import Realm.Acl.Engine
import Realm.Proofs.Acl.ShadowFile
import Realm.Proofs.Path

/-! Nodes and the shadow files that they are stored in. -/
namespace Realm.Acl

open Node

variable {R : Type}

/-- A node that lies at or below a pattern, with all that is stored inside it. -/
inductive Node.Inner : Node R → Prop
  | mk {path : Text} {depth : Nat} {name : Text} {permissions : Grants}
    {files : Table Text FileEntry} {inherits : Bool} {pattern : Option R}
    {patterns : List (Node R)} {children : List (Text × Node R)}
    (hps : ∀ n ∈ patterns, Inner n) (hcs : ∀ c ∈ children, Inner c.2) :
    Inner (.mk path depth name permissions files inherits true pattern patterns children)

namespace Node

/-- The node without those below it that are stored on their own. -/
def bare : Node R → Node R
  | mk p d n g f i s pt ps _ => mk p d n g f i s pt ps []

@[simp] theorem path_bare (n : Node) : n.bare.path = n.path := by
  cases n
  rfl

@[simp] theorem depth_bare (n : Node) : n.bare.depth = n.depth := by
  cases n
  rfl

@[simp] theorem name_bare (n : Node) : n.bare.name = n.name := by
  cases n
  rfl

@[simp] theorem isSpecial_bare (n : Node) : n.bare.isSpecial = n.isSpecial := by
  cases n
  rfl

@[simp] theorem files_bare (n : Node) : n.bare.files = n.files := by
  cases n
  rfl

@[simp] theorem match?_bare (n : Node) (segment : Text) :
    n.bare.match? segment = n.match? segment := by
  cases n
  rfl

@[simp] theorem lookup_bare (n : Node) (groups : Groups) (bindings : Bindings) (identity : Text) :
    n.bare.lookup groups bindings identity = n.lookup groups bindings identity := by
  cases n
  rfl

@[simp] theorem apply_bare (n : Node) (groups : Groups) (bindings : Bindings) (identity : Text)
    (total : Permission) :
    n.bare.apply groups bindings identity total = n.apply groups bindings identity total := by
  cases n
  rfl

@[simp] theorem bare_withChild (n : Node) (name : Text) (c : Node) :
    (n.withChild name c).bare = n.bare := by
  cases n
  rfl

@[simp] theorem children_withChild (n : Node) (name : Text) (c : Node) :
    (n.withChild name c).children = Table.insert name c n.children := by
  cases n
  rfl

@[simp] theorem files_withPermissions (n : Node) (g : Grants) :
    (n.withPermissions g).files = n.files := by
  cases n
  rfl

@[simp] theorem patterns_withPermissions (n : Node) (g : Grants) :
    (n.withPermissions g).patterns = n.patterns := by
  cases n
  rfl

@[simp] theorem apply_withPermissions (n : Node) (g : Grants) (groups : Groups)
    (bindings : Bindings) (identity : Text) (total : Permission) :
    (n.withPermissions g).apply groups bindings identity total =
      layer n.inherits total (granted groups bindings identity g) := by
  cases n
  rfl

/-- A node as it is kept for a directory: what its shadow file is to hold can be stored and
gives the node back. -/
structure Sound (n : Node) : Prop where
  regular : n.isSpecial = false
  unnamed : n.pattern = none
  patterns : buildPatterns n.path (n.depth + 1) (patternShadows n.patterns) = .ok n.patterns
  wellFormed : n.toShadow.WellFormed
  shallow : n.toShadow.depth < Json.depthLimit

end Node

section Stored

variable [Regex R]

theorem mem_of_firstMatch {segment : Text} {ns : List (Node R)} {r : Nat × Node R × Bindings}
    (h : Node.firstMatch segment ns = some r) : r.2.1 ∈ ns := by
  induction ns generalizing r with
  | nil => simp [Node.firstMatch] at h
  | cons n ns ih =>
    rw [Node.firstMatch] at h
    split at h
    · cases h
      simp
    · obtain ⟨r',hr',rfl⟩ := Option.map_eq_some_iff.1 h
      simp [ih hr']

/-! The nodes of stored rules. -/

mutual

/-- A node that is built has its place, and stores the rules that it is built from. -/
theorem build_spec {path : Text} {depth : Nat} {name : Text} {isSpecial : Bool}
    {pattern : Option R} {s : Shadow} {n : Node R}
    (h : build path depth name isSpecial pattern s = .ok n) :
    n.path = path ∧ n.depth = depth ∧ n.name = name ∧ n.isSpecial = isSpecial ∧
      n.pattern = pattern ∧ n.toShadow = s ∧
      (isSpecial = true → n.Inner) ∧ (isSpecial = false → n.bare = n) ∧
      buildPatterns path (depth + 1) (patternShadows n.patterns) = .ok n.patterns := by
  cases s with
  | node g fs i ps cs =>
    rw [build] at h
    obtain ⟨ns,hns,h⟩ := bind_eq_ok.1 h
    split at h
    · cases h
    · next hcs =>
      obtain ⟨ms,hms,h⟩ := bind_eq_ok.1 h
      cases h
      obtain ⟨hps,hpi⟩ := buildPatterns_spec hns
      obtain ⟨hcs',hci⟩ := buildChildren_spec hms
      cases isSpecial with
      | true =>
        refine ⟨rfl,rfl,rfl,rfl,rfl,?_,fun _ => .mk hpi hci,by simp,?_⟩
        · simp [toShadow,hps,hcs']
        · simpa [patterns,hps] using hns
      | false =>
        obtain rfl : cs = [] := by simpa using hcs
        cases hms
        refine ⟨rfl,rfl,rfl,rfl,rfl,?_,by simp,fun _ => rfl,?_⟩
        · simp [toShadow,hps]
        · simpa [patterns,hps] using hns

theorem buildPatterns_spec {parent : Text} {depth : Nat} {ps : List (Text × Shadow)}
    {ns : List (Node R)} (h : buildPatterns parent depth ps = .ok ns) :
    patternShadows ns = ps ∧ ∀ n ∈ ns, n.Inner := by
  cases ps with
  | nil =>
    cases h
    exact ⟨rfl,by simp⟩
  | cons p ps =>
    obtain ⟨pattern,s⟩ := p
    rw [buildPatterns] at h
    obtain ⟨p,hp,h⟩ := bind_eq_ok.1 h
    obtain ⟨n,hn,h⟩ := bind_eq_ok.1 h
    obtain ⟨ns,hns,h⟩ := bind_eq_ok.1 h
    cases h
    obtain ⟨-,-,hname,-,-,hs,hi,-,-⟩ := build_spec hn
    obtain ⟨hps,hns⟩ := buildPatterns_spec hns
    refine ⟨by rw [patternShadows,hname,hs,hps],fun m hm => ?_⟩
    rcases List.mem_cons.1 hm with rfl | hm
    · exact hi rfl
    · exact hns m hm

theorem buildChildren_spec {parent : Text} {depth : Nat} {cs : List (Text × Shadow)}
    {ns : List (Text × Node R)} (h : buildChildren parent depth cs = .ok ns) :
    childShadows ns = cs ∧ ∀ n ∈ ns, n.2.Inner := by
  cases cs with
  | nil =>
    cases h
    exact ⟨rfl,by simp⟩
  | cons c cs =>
    obtain ⟨name,s⟩ := c
    rw [buildChildren] at h
    obtain ⟨n,hn,h⟩ := bind_eq_ok.1 h
    obtain ⟨ns,hns,h⟩ := bind_eq_ok.1 h
    cases h
    obtain ⟨-,-,-,-,-,hs,hi,-,-⟩ := build_spec hn
    obtain ⟨hcs,hns⟩ := buildChildren_spec hns
    refine ⟨by rw [childShadows,hs,hcs],fun m hm => ?_⟩
    rcases List.mem_cons.1 hm with rfl | hm
    · exact hi rfl
    · exact hns m hm

end

theorem ofShadow_spec {path : Text} {depth : Nat} {name : Text} {s : Shadow} {n : Node R}
    (h : ofShadow path depth name s = .ok n) :
    n.path = path ∧ n.depth = depth ∧ n.name = name ∧ n.toShadow = s ∧ n.bare = n := by
  obtain ⟨h₁,h₂,h₃,-,-,h₄,-,h₅,-⟩ := build_spec h
  exact ⟨h₁,h₂,h₃,h₄,h₅ rfl⟩

end Stored

theorem Node.Sound.of_ofShadow {path : Text} {depth : Nat} {name : Text} {s : Shadow} {n : Node}
    (h : ofShadow path depth name s = .ok n) (hs : s.WellFormed)
    (hd : s.depth < Json.depthLimit) : n.Sound := by
  obtain ⟨h₁,h₂,h₃,h₄,h₅,h₆,-,-,h₇⟩ := build_spec h
  exact ⟨h₄,h₅,by rw [h₁,h₂]; exact h₇,by rw [h₆]; exact hs,by rw [h₆]; exact hd⟩

namespace Node

theorem toShadow_of_regular {n : Node} (h : n.isSpecial = false) :
    n.toShadow = .node n.permissions n.files n.inherits (patternShadows n.patterns) [] := by
  cases n with
  | mk _ _ _ _ _ _ isSpecial =>
    obtain rfl : isSpecial = false := h
    rfl

namespace Sound

variable {n : Node}

theorem ofShadow_toShadow (h : n.Sound) :
    ofShadow n.path n.depth n.name n.toShadow = .ok n.bare := by
  rw [toShadow_of_regular h.regular,ofShadow,build]
  simp only [h.patterns]
  cases n with
  | mk _ _ _ _ _ _ isSpecial pattern =>
    obtain rfl : isSpecial = false := h.regular
    obtain rfl : pattern = none := h.unnamed
    rfl

theorem inner (h : n.Sound) : ∀ p ∈ n.patterns, p.Inner :=
  (buildPatterns_spec h.patterns).2

theorem tables (h : n.Sound) : n.permissions.Sorted ∧ n.files.Sorted ∧
    (∀ f ∈ n.files, f.2.permissions.Sorted) ∧
    ∀ p ∈ patternShadows n.patterns, p.2.WellFormed := by
  have hw := h.wellFormed
  rw [toShadow_of_regular h.regular] at hw
  cases hw with
  | node hg hfs hes hps _ _ => exact ⟨hg,hfs,hes,hps⟩

theorem patterns_shallow (h : n.Sound) :
    ∀ p ∈ patternShadows n.patterns, p.2.depth + 2 < Json.depthLimit := by
  have hd := h.shallow
  rw [toShadow_of_regular h.regular,Shadow.depth_lt_iff (by decide)] at hd
  exact hd.1

end Sound

theorem toShadow_bare {n : Node} (h : n.isSpecial = false) : n.bare.toShadow = n.toShadow := by
  rw [toShadow_of_regular h,toShadow_of_regular (by rwa [isSpecial_bare])]
  cases n
  rfl

@[simp] theorem sound_bare_iff {n : Node} : n.bare.Sound ↔ n.Sound := by
  constructor
  · intro h
    have hr : n.isSpecial = false := by simpa using h.regular
    have hs := toShadow_bare hr
    refine ⟨hr,?_,?_,hs ▸ h.wellFormed,hs ▸ h.shallow⟩
    · cases n
      exact h.unnamed
    · cases n
      exact h.patterns
  · intro h
    have hs := toShadow_bare h.regular
    refine ⟨by simpa using h.regular,?_,?_,hs ▸ h.wellFormed,hs ▸ h.shallow⟩
    · cases n
      exact h.unnamed
    · cases n
      exact h.patterns

theorem sound_of {n : Node} (hr : n.isSpecial = false) (hn : n.pattern = none)
    (hb : buildPatterns n.path (n.depth + 1) (patternShadows n.patterns) = .ok n.patterns)
    (hg : n.permissions.Sorted) (hfs : n.files.Sorted)
    (hes : ∀ f ∈ n.files, f.2.permissions.Sorted)
    (hps : ∀ p ∈ patternShadows n.patterns,
      p.2.WellFormed ∧ p.2.depth + 2 < Json.depthLimit) : n.Sound := by
  refine ⟨hr,hn,hb,?_,?_⟩
  · rw [toShadow_of_regular hr]
    exact .node hg hfs hes (fun p hp => (hps p hp).1) Table.sorted_nil (by simp)
  · rw [toShadow_of_regular hr,Shadow.depth_lt_iff (by decide)]
    exact ⟨fun p hp => (hps p hp).2,by simp⟩

theorem sound_new {path : Text} {depth : Nat} {name : Text} {g : Grants} (hg : g.Sorted) :
    (Node.new path depth name g).Sound :=
  sound_of rfl rfl rfl hg Table.sorted_nil (by simp [Node.new,files])
    (by simp [Node.new,patterns,patternShadows])

@[simp] theorem patternShadows_append (ns ms : List Node) :
    patternShadows (ns ++ ms) = patternShadows ns ++ patternShadows ms := by
  induction ns with
  | nil => rfl
  | cons n ns ih => simp [patternShadows,ih]

theorem buildPatterns_append {parent : Text} {depth : Nat} {ps qs : List (Text × Shadow)}
    {ns ms : List Node} (h : buildPatterns parent depth ps = .ok ns)
    (h' : buildPatterns parent depth qs = .ok ms) :
    buildPatterns parent depth (ps ++ qs) = .ok (ns ++ ms) := by
  induction ps generalizing ns with
  | nil =>
    cases h
    exact h'
  | cons p ps ih =>
    obtain ⟨pattern,s⟩ := p
    rw [buildPatterns] at h
    obtain ⟨p,hp,h⟩ := bind_eq_ok.1 h
    obtain ⟨n,hn,h⟩ := bind_eq_ok.1 h
    obtain ⟨ns,hns,h⟩ := bind_eq_ok.1 h
    cases h
    rw [List.cons_append,buildPatterns]
    exact bind_eq_ok.2 ⟨p,hp,bind_eq_ok.2 ⟨n,hn,bind_eq_ok.2 ⟨ns ++ ms,ih hns,rfl⟩⟩⟩

theorem buildPatterns_ofPattern {n c : Node} {pattern : Text} {g : Grants} {on : Bool}
    (h : ofPattern n pattern g on = .ok c) :
    patternShadows [c] = [(pattern,.node g [] on [] [])] ∧
      buildPatterns n.path (n.depth + 1) (patternShadows [c]) = .ok [c] := by
  obtain ⟨p,hp,h⟩ := bind_eq_ok.1 h
  cases h
  refine ⟨rfl,?_⟩
  show buildPatterns n.path (n.depth + 1) [(pattern,.node g [] on [] [])] = _
  rw [buildPatterns,hp]
  rfl

end Node

/-! Changes. -/

/-- The tables that a change brings along are in order. -/
def Change.Orderly : Change → Prop
  | addPattern _ permissions _ => permissions.Sorted
  | grant _ _ | inherit _ | touch _ | grantFile _ _ _ | inheritFile _ _ => True

theorem Grants.sorted_grant {g : Grants} (h : g.Sorted) (key : Text) (p : Permission) :
    (g.grant key p).Sorted := by
  unfold Grants.grant
  split
  · exact h.erase key
  · exact h.insert key p

theorem sound_changeFile {n : Node} (h : n.Sound) (file : Text) {f : FileEntry → FileEntry}
    (hf : ∀ x : FileEntry, x.permissions.Sorted → (f x).permissions.Sorted) :
    (changeFile file f n).Sound := by
  obtain ⟨hg,hfs,hes,hps⟩ := h.tables
  have hnew : (f ((Table.get? file n.files).getD {})).permissions.Sorted := by
    refine hf _ ?_
    cases hget : Table.get? file n.files with
    | none => exact Table.sorted_nil
    | some x => exact hes _ (Table.mem_of_get? hget)
  cases n with
  | mk path depth name g fs i s pt ps cs =>
    refine Node.sound_of h.regular h.unnamed h.patterns hg (hfs.insert _ _) (fun x hx => ?_)
      fun p hp => ⟨hps p hp,h.patterns_shallow p hp⟩
    rcases Table.mem_insert hx with rfl | hx
    · exact hnew
    · exact hes x hx

/-- Changes keep nodes sound, and leave alone where they are and what lies below them. -/
theorem sound_change {n n' : Node} (h : n.Sound) {c : Change} (hc : c.Orderly)
    (happ : c.apply n = .ok n') :
    n'.Sound ∧ n'.path = n.path ∧ n'.depth = n.depth ∧ n'.name = n.name ∧
      n'.children = n.children := by
  obtain ⟨hg,hfs,hes,hps⟩ := h.tables
  have hsh := fun p hp => And.intro (hps p hp) (h.patterns_shallow p hp)
  cases c with
  | grant key p =>
    cases happ
    cases n
    exact ⟨Node.sound_of h.regular h.unnamed h.patterns (Grants.sorted_grant hg key p) hfs hes hsh,
      rfl,rfl,rfl,rfl⟩
  | inherit on =>
    cases happ
    cases n
    exact ⟨Node.sound_of h.regular h.unnamed h.patterns hg hfs hes hsh,rfl,rfl,rfl,rfl⟩
  | addPattern pattern g on =>
    simp only [Change.apply] at happ
    split at happ
    · cases happ
    · cases hp : Node.ofPattern n pattern g on with
      | error err => simp [hp,Except.map] at happ
      | ok c =>
        obtain rfl : n.withPatterns (n.patterns ++ [c]) = n' := by
          simpa [hp,Except.map] using happ
        obtain ⟨hs,hb⟩ := Node.buildPatterns_ofPattern hp
        have hb := Node.buildPatterns_append h.patterns hb
        rw [← Node.patternShadows_append] at hb
        have hps : ∀ p ∈ patternShadows (n.patterns ++ [c]),
            p.2.WellFormed ∧ p.2.depth + 2 < Json.depthLimit := by
          intro p hp
          rw [Node.patternShadows_append,hs,List.mem_append,List.mem_singleton] at hp
          rcases hp with hp | rfl
          · exact hsh p hp
          · have hd : (Shadow.node g [] on [] []).depth < 126 :=
              (Shadow.depth_lt_iff (by decide)).2 ⟨by simp,by simp⟩
            exact ⟨.node hc Table.sorted_nil (by simp) (by simp) Table.sorted_nil (by simp),
              Nat.add_lt_of_lt_sub hd⟩
        cases n
        exact ⟨Node.sound_of h.regular h.unnamed hb hg hfs hes hps,rfl,rfl,rfl,rfl⟩
  | touch file =>
    cases happ
    split
    · exact ⟨h,rfl,rfl,rfl,rfl⟩
    · refine ⟨sound_changeFile h file fun _ hx => hx,?_⟩
      cases n
      exact ⟨rfl,rfl,rfl,rfl⟩
  | grantFile file key p =>
    cases happ
    refine ⟨sound_changeFile h file fun _ hx => Grants.sorted_grant hx key p,?_⟩
    cases n
    exact ⟨rfl,rfl,rfl,rfl⟩
  | inheritFile file on =>
    cases happ
    refine ⟨sound_changeFile h file fun _ hx => hx,?_⟩
    cases n
    exact ⟨rfl,rfl,rfl,rfl⟩

@[simp] theorem apply_bare (c : Change) (n : Node) :
    c.apply n.bare = (c.apply n).map Node.bare := by
  cases n with
  | mk path depth name g fs i s pt ps cs =>
    cases c with
    | grant | inherit | grantFile | inheritFile => rfl
    | touch file =>
      simp only [Change.apply,Except.map]
      split
      · next h => rw [if_pos (by simpa [Node.files,Node.bare] using h)]
      · next h => rw [if_neg (by simpa [Node.files,Node.bare] using h)]; rfl
    | addPattern pattern g' on =>
      simp only [Change.apply]
      split
      · next h => rw [if_pos (by simpa [Node.patterns,Node.bare] using h)]; rfl
      · next h =>
        rw [if_neg (by simpa [Node.patterns,Node.bare] using h)]
        simp only [Node.ofPattern]
        cases Node.compilePattern pattern <;> rfl

end Realm.Acl
