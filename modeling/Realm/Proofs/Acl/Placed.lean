import Realm.Proofs.Acl.Calls
import Realm.Proofs.Acl.Follows
import Realm.Proofs.FileSystem.Locality

/-! The places of the nodes that an engine keeps, and the shadow files that its steps get at.
What is said here holds of all calls, whatever they come to. -/
namespace Realm

open Realm.Path (ofSegments AreNames)

namespace Acl

variable {σ α : Type}

/-- The node that the bytes of a directory's shadow file stand for. -/
def Node.ofBytes (dir : Text) (depth : Nat) (name : Text) (bytes : Bytes) : Except Error Node :=
  match Shadow.ofBytes bytes with
  | .error fault => .error (.json fault)
  | .ok s => Node.ofShadow dir depth name s

theorem load_eq (e : Engine σ) (dir : Text) (depth : Nat) (name : Text) (w : σ) :
    e.load dir depth name w =
      match e.shadow.has (e.shadowPath dir) w with
      | (.error err,w) => (.error err,w)
      | (.ok false,w) => (.ok none,w)
      | (.ok true,w) =>
        match e.shadow.read (e.shadowPath dir) w with
        | (.error err,w) => (.error err,w)
        | (.ok bytes,w) => ((Node.ofBytes dir depth name bytes).map some,w) := by
  rw [Engine.load,Action.bind_eq]
  rcases e.shadow.has (e.shadowPath dir) w with ⟨err | (_ | _),w⟩
  · rfl
  · rfl
  · simp only [if_true]
    rw [Action.bind_eq]
    rcases e.shadow.read (e.shadowPath dir) w with ⟨err | bytes,w⟩
    · rfl
    · simp only [Node.ofBytes]
      cases Shadow.ofBytes bytes with
      | error fault => rfl
      | ok s =>
        simp only
        cases Node.ofShadow dir depth name s <;> rfl

/-- Nothing is read of a directory without a shadow file, and of no other. -/
theorem has_of_load_none {e : Engine σ} {dir name : Text} {depth : Nat} {w : σ}
    (h : (e.load dir depth name w).1 = .ok none) :
    (e.shadow.has (e.shadowPath dir) w).1 = .ok false := by
  rw [load_eq] at h
  rcases hhas : e.shadow.has (e.shadowPath dir) w with ⟨err | (_ | _),w₁⟩
  · simp [hhas] at h
  · rfl
  · simp only [hhas] at h
    rcases hread : e.shadow.read (e.shadowPath dir) w₁ with ⟨err | bytes,w₂⟩
    · simp [hread] at h
    · cases hn : Node.ofBytes dir depth name bytes <;> simp [hread,hn,Except.map] at h

theorem persist_eq (e : Engine σ) {n : Node} (h : n.isSpecial = false) :
    e.persist n = e.shadow.store (e.shadowPath n.path) n.toShadow.toBytes := by
  rw [Engine.persist,h]
  rfl

namespace Node

@[simp] theorem patterns_bare (n : Node) : n.bare.patterns = n.patterns := by
  cases n
  rfl

/-- The second node is the first but for what is kept under one name. -/
structure ExceptAt (name : Text) (n n' : Node) : Prop where
  bare : n'.bare = n.bare
  others : ∀ name', name' ≠ name → Table.get? name' n'.children = Table.get? name' n.children

theorem ExceptAt.refl (name : Text) (n : Node) : n.ExceptAt name n :=
  ⟨rfl,fun _ _ => rfl⟩

theorem ExceptAt.withChild {name : Text} {n n' : Node} (h : n.ExceptAt name n') (c : Node) :
    n.ExceptAt name (n'.withChild name c) := by
  refine ⟨by rw [bare_withChild,h.bare],fun name' hne => ?_⟩
  rw [children_withChild,Table.get?_insert_of_ne hne,h.others name' hne]

@[simp] theorem get?_withChild (n : Node) (name : Text) (c : Node) :
    Table.get? name (n.withChild name c).children = some c := by
  rw [children_withChild,Table.get?_insert_self]

/-- A node has the path of its directory and lies at no pattern or below one, and so do those
that are kept below it. -/
inductive Placed : List Text → Node → Prop
  | mk {dir : List Text} {n : Node} (regular : n.isSpecial = false) (path : n.path = ofSegments dir)
    (inner : ∀ p ∈ n.patterns, p.Inner)
    (below : ∀ name c, Table.get? name n.children = some c → Placed (dir ++ [name]) c) :
    Placed dir n

namespace Placed

variable {dir : List Text} {n : Node}

theorem regular (h : n.Placed dir) : n.isSpecial = false := by
  cases h with
  | mk h _ _ _ => exact h

theorem path (h : n.Placed dir) : n.path = ofSegments dir := by
  cases h with
  | mk _ h _ _ => exact h

theorem inner (h : n.Placed dir) : ∀ p ∈ n.patterns, p.Inner := by
  cases h with
  | mk _ _ h _ => exact h

theorem child (h : n.Placed dir) {name : Text} {c : Node}
    (hc : Table.get? name n.children = some c) : c.Placed (dir ++ [name]) := by
  cases h with
  | mk _ _ _ h => exact h name c hc

theorem child_eq (h : n.Placed dir) (hdir : AreNames dir) (name : Text) :
    Path.child n.path name = ofSegments (dir ++ [name]) := by
  rw [h.path,Path.child_ofSegments hdir]

theorem new (dir : List Text) (depth : Nat) (name : Text) (g : Grants) :
    (Node.new (ofSegments dir) depth name g).Placed dir :=
  .mk rfl rfl (by simp [Node.new,patterns]) (by simp [Node.new,children,Table.get?])

theorem ofBytes {depth : Nat} {name : Text} {bytes : Bytes}
    (h : Node.ofBytes (ofSegments dir) depth name bytes = .ok n) : n.Placed dir := by
  rw [Node.ofBytes] at h
  cases hs : Shadow.ofBytes bytes with
  | error fault => simp [hs] at h
  | ok s =>
    rw [hs] at h
    obtain ⟨hpath,-,-,hspecial,-,-,-,hbare,hps⟩ := build_spec h
    have hnone : n.children = [] := by
      rw [← hbare rfl]
      cases n
      rfl
    exact .mk hspecial hpath (buildPatterns_spec hps).2 (by simp [hnone,Table.get?])

theorem of_load {e : Engine σ} {depth : Nat} {name : Text} {w : σ}
    (h : (e.load (ofSegments dir) depth name w).1 = .ok (some n)) : n.Placed dir := by
  rw [load_eq] at h
  rcases hhas : e.shadow.has (e.shadowPath (ofSegments dir)) w with ⟨err | (_ | _),w₁⟩
  · simp [hhas] at h
  · simp [hhas] at h
  · simp only [hhas] at h
    rcases hread : e.shadow.read (e.shadowPath (ofSegments dir)) w₁ with ⟨err | bytes,w₂⟩
    · simp [hread] at h
    · cases hn : Node.ofBytes (ofSegments dir) depth name bytes with
      | error err => simp [hread,hn,Except.map] at h
      | ok m =>
        obtain rfl : m = n := by simpa [hread,hn,Except.map] using h
        exact .ofBytes hn

theorem exceptAt (h : n.Placed dir) {name : Text} {n' : Node} (hn' : n.ExceptAt name n')
    (hc : ∀ c, Table.get? name n'.children = some c → c.Placed (dir ++ [name])) :
    n'.Placed dir := by
  refine .mk ?_ ?_ ?_ fun name' c hget => ?_
  · rw [← isSpecial_bare,hn'.bare,isSpecial_bare,h.regular]
  · rw [← path_bare,hn'.bare,path_bare,h.path]
  · rw [← patterns_bare,hn'.bare,patterns_bare]
    exact h.inner
  · by_cases hne : name' = name
    · subst hne
      exact hc c hget
    · rw [hn'.others name' hne] at hget
      exact h.child hget

theorem withChild (h : n.Placed dir) {name : Text} {n' c : Node} (hn' : n.ExceptAt name n')
    (hc : c.Placed (dir ++ [name])) : (n'.withChild name c).Placed dir := by
  refine h.exceptAt (hn'.withChild c) fun m hm => ?_
  rw [get?_withChild] at hm
  exact Option.some.inj hm ▸ hc

/-- A change of the rules of a directory leaves alone where it is and what is kept below it. -/
theorem change (h : n.Placed dir) {c : Change} {n' : Node} (hc : c.apply n = .ok n') :
    n'.Placed dir ∧ n'.children = n.children ∧ n'.depth = n.depth := by
  have hsame : ∀ n' : Node, n'.isSpecial = n.isSpecial → n'.path = n.path →
      (∀ p ∈ n'.patterns, p.Inner) → n'.children = n.children → n'.depth = n.depth →
      n'.Placed dir ∧ n'.children = n.children ∧ n'.depth = n.depth := by
    intro n' hspecial hpath hinner hchildren hdepth
    refine ⟨.mk (hspecial.trans h.regular) (hpath.trans h.path) hinner fun name c hget => ?_,
      hchildren,hdepth⟩
    rw [hchildren] at hget
    exact h.child hget
  have hinner := h.inner
  cases n with
  | mk path depth name g fs i s pt ps cs =>
    cases c with
    | grant | inherit | grantFile | inheritFile =>
      cases hc
      exact hsame _ rfl rfl hinner rfl rfl
    | touch file =>
      cases hc
      split <;> exact hsame _ rfl rfl hinner rfl rfl
    | addPattern pattern g' on =>
      simp only [Change.apply] at hc
      split at hc
      · cases hc
      · rw [Node.ofPattern] at hc
        cases hp : compilePattern pattern with
        | error err =>
          rw [hp] at hc
          cases hc
        | ok p =>
          rw [hp] at hc
          cases hc
          refine hsame _ rfl rfl (fun m hm => ?_) rfl rfl
          rcases List.mem_append.1 hm with hm | hm
          · exact hinner m hm
          · rw [List.mem_singleton.1 hm]
            exact .mk (by simp) (by simp)

end Placed

end Node

def Engine.seeded (e : Engine σ) (dir : List Text) (depth : Nat) (name : Text) : Node :=
  Node.new (ofSegments dir) depth name (e.source (ofSegments dir))

/-- All that an identity may do at a place below a node, the node's own grants included. -/
def Engine.ask (e : Engine σ) (identity : Text) (names : List Text) (bindings : Bindings)
    (total : Permission) : Visit σ Permission := fun (n,w) =>
  e.resolve identity names bindings (n.apply e.groups bindings identity total) (n,w)

@[simp] theorem Node.apply_empty (n : Node) (groups : Groups) (bindings : Bindings)
    (identity : Text) :
    n.apply groups bindings identity Permission.empty = n.lookup groups bindings identity := by
  simp [Node.apply,layer,Permission.union,Permission.empty]

theorem effective_eq (e : Engine σ) (path identity : Text) :
    e.effective path identity =
      e.visitTop (e.ask identity (Path.segments path) [] Permission.empty) := by
  have hask : e.ask identity (Path.segments path) [] Permission.empty = fun s =>
      e.resolve identity (Path.segments path) [] (s.1.lookup e.groups [] identity) s := by
    funext s
    rw [Engine.ask,Node.apply_empty]
  rw [hask]
  rfl

/-- The last step of an update: change the node and store it. -/
def Engine.changing (e : Engine σ) (c : Change) : Visit σ Node := do
  let n ← Visit.node
  match c.apply n with
  | .error err => throw err
  | .ok n' => do
    Visit.put n'
    Visit.outside (e.persist n')
    pure n

theorem update_eq (e : Engine σ) (dir : Text) (c : Change) :
    e.update dir c =
      e.visitTop (e.visitDirectory (Path.normalize dir) none (e.changing c) (Path.segments dir)) :=
  rfl

theorem changing_eq (e : Engine σ) (c : Change) (n : Node) (w : σ) :
    e.changing c (n,w) =
      match c.apply n with
      | .error err => (.error err,(n,w))
      | .ok n' =>
        match e.persist n' w with
        | (.ok _,w) => (.ok n,(n',w))
        | (.error err,w) => (.error err,(n',w)) := by
  rw [Engine.changing,Action.bind_eq]
  show (match c.apply n with
    | .error err => _
    | .ok n' => _ : Visit σ Node) (n,w) = _
  cases c.apply n with
  | error err => rfl
  | ok n' =>
    show (Visit.outside (e.persist n') >>= fun _ => pure n : Visit σ Node) (n',w) = _
    rw [Action.bind_eq,Visit.outside]
    dsimp only
    rcases e.persist n' w with ⟨_ | _,_⟩ <;> rfl

def Cache.Placed (cache : Cache) : Prop :=
  ∀ n, cache = some n → n.Placed []

theorem visitTop_begins (e : Engine σ) {s : Cache × σ} (hs : s.1.Placed) :
    (∃ n w, n.Placed [] ∧ (w = s.2 ∨ w = (e.load (ofSegments []) 0 [] s.2).2) ∧
      ∀ {α : Type} (visit : Visit σ α),
        e.visitTop visit s = ((visit (n,w)).1,(some (visit (n,w)).2.1,(visit (n,w)).2.2))) ∨
    ∃ err w, e.load (ofSegments []) 0 [] s.2 = (.error err,w) ∧
      ∀ {α : Type} (visit : Visit σ α), e.visitTop visit s = (.error err,(none,w)) := by
  obtain ⟨cache,w⟩ := s
  cases cache with
  | some n => exact .inl ⟨n,w,hs n rfl,.inl rfl,fun visit => rfl⟩
  | none =>
    rcases hl : e.load (ofSegments []) 0 [] w with ⟨err | (_ | n),w₁⟩
    · refine .inr ⟨err,w₁,rfl,fun visit => ?_⟩
      replace hl : e.load ['/'] 0 [] w = (.error err,w₁) := hl
      simp only [Engine.visitTop,hl]
    · refine .inl ⟨_,w₁,.new [] 0 [] (e.source ['/']),.inr rfl,fun visit => ?_⟩
      replace hl : e.load ['/'] 0 [] w = (.ok none,w₁) := hl
      simp only [Engine.visitTop,hl]
      rfl
    · refine .inl ⟨n,w₁,.of_load (congrArg Prod.fst hl),.inr rfl,fun visit => ?_⟩
      replace hl : e.load ['/'] 0 [] w = (.ok (some n),w₁) := hl
      simp only [Engine.visitTop,hl]
      rfl

/-! What a step may do to the shadow files. -/

/-- A relation of states before and after steps at a directory, in which all steps of an
engine lie. -/
structure Engine.Confined (e : Engine σ) (within : List Text → σ → σ → Prop) : Prop where
  refl : ∀ {dir w}, within dir w w
  trans : ∀ {dir w w' w''}, within dir w w' → within dir w' w'' → within dir w w''
  above : ∀ {dir w w'} (names), within (dir ++ names) w w' → within dir w w'
  load : ∀ {dir} (depth name w), AreNames dir →
    within dir w (e.load (ofSegments dir) depth name w).2
  persist : ∀ {dir n} (w), AreNames dir → n.Placed dir → within dir w (e.persist n w).2

theorem Engine.confined_any (e : Engine σ) : e.Confined fun _ _ _ => True :=
  ⟨trivial,fun _ _ => trivial,fun _ _ => trivial,fun _ _ _ _ => trivial,fun _ _ _ => trivial⟩

/-- A visit to the node of a directory that leaves it there, with only such steps. -/
def Visit.Keeps (within : List Text → σ → σ → Prop) (dir : List Text) (visit : Visit σ α) :
    Prop :=
  ∀ n w, n.Placed dir →
    (visit (n,w)).2.1.Placed dir ∧ within dir w (visit (n,w)).2.2

section Steps

variable {e : Engine σ} {within : List Text → σ → σ → Prop} (hb : e.Confined within)
  {dir : List Text} {name : Text} {n : Node}

include hb

/-- What there may be under a name: a node, which is kept from now on, none, or something
that cannot be read. -/
theorem child?_cases (hn : n.Placed dir) (hdir : AreNames (dir ++ [name])) (w : σ) :
    (∃ c n₁ w₁, e.child? name (n,w) = (.ok (some c),(n₁,w₁)) ∧ n.ExceptAt name n₁ ∧
      c.Placed (dir ++ [name]) ∧ within (dir ++ [name]) w w₁) ∨
    (∃ w₁, e.child? name (n,w) = (.ok none,(n,w₁)) ∧
      e.load (ofSegments (dir ++ [name])) (n.depth + 1) name w = (.ok none,w₁) ∧
      within (dir ++ [name]) w w₁) ∨
    ∃ err w₁, e.child? name (n,w) = (.error err,(n,w₁)) ∧
      e.load (ofSegments (dir ++ [name])) (n.depth + 1) name w = (.error err,w₁) ∧
      within (dir ++ [name]) w w₁ := by
  rw [child?_eq]
  cases hget : Table.get? name n.children with
  | some c => exact .inl ⟨c,n,w,rfl,.refl name n,hn.child hget,hb.refl⟩
  | none =>
    have hload := hb.load (n.depth + 1) name w hdir
    simp only [hn.regular,Bool.false_eq_true,if_false,hn.child_eq hdir.of_append.1]
    rcases hl : e.load (ofSegments (dir ++ [name])) (n.depth + 1) name w with ⟨err | (_ | c),w₁⟩
    · rw [hl] at hload
      exact .inr (.inr ⟨err,w₁,rfl,rfl,hload⟩)
    · rw [hl] at hload
      exact .inr (.inl ⟨w₁,rfl,rfl,hload⟩)
    · have hc : c.Placed (dir ++ [name]) := .of_load (congrArg Prod.fst hl)
      rw [hl] at hload
      exact .inl ⟨c,n.withChild name c,w₁,rfl,(Node.ExceptAt.refl name n).withChild c,hc,hload⟩

theorem child?_found (hn : n.Placed dir) (hdir : AreNames (dir ++ [name])) {c n₁ : Node}
    {w w₁ : σ} (h : e.child? name (n,w) = (.ok (some c),(n₁,w₁))) :
    n.ExceptAt name n₁ ∧ c.Placed (dir ++ [name]) ∧ within (dir ++ [name]) w w₁ := by
  rcases child?_cases hb hn hdir w with ⟨c',n',w',h',hn',hc,hw⟩ | ⟨w',h',-,-⟩ | ⟨err,w',h',-,-⟩
  · rw [h] at h'
    cases h'
    exact ⟨hn',hc,hw⟩
  · rw [h] at h'
    cases h'
  · rw [h] at h'
    cases h'

theorem create_cases (hn : n.Placed dir) (hdir : AreNames (dir ++ [name])) (w : σ) :
    (∃ w₁, e.create name (n,w) =
        (.ok (e.seeded (dir ++ [name]) (n.depth + 1) name),
          (n.withChild name (e.seeded (dir ++ [name]) (n.depth + 1) name),w₁)) ∧
      e.persist (e.seeded (dir ++ [name]) (n.depth + 1) name) w = (.ok (),w₁) ∧
      within (dir ++ [name]) w w₁) ∨
    ∃ err w₁, e.create name (n,w) = (.error err,(n,w₁)) ∧
      e.persist (e.seeded (dir ++ [name]) (n.depth + 1) name) w = (.error err,w₁) ∧
      within (dir ++ [name]) w w₁ := by
  have hplaced : (e.seeded (dir ++ [name]) (n.depth + 1) name).Placed (dir ++ [name]) := .new ..
  have hstore := hb.persist w hdir hplaced
  have hcreate := create_eq e name n w (hn.child_eq hdir.of_append.1 name)
    (c := e.seeded (dir ++ [name]) (n.depth + 1) name) rfl
  rw [hcreate]
  rcases hp : e.persist (e.seeded (dir ++ [name]) (n.depth + 1) name) w with ⟨err | _,w₁⟩
  · rw [hp] at hstore
    exact .inr ⟨err,w₁,rfl,rfl,hstore⟩
  · rw [hp] at hstore
    exact .inl ⟨w₁,rfl,rfl,hstore⟩

theorem child_keeps {visit : Visit σ α} (hv : visit.Keeps within (dir ++ [name]))
    (hn : n.Placed dir) {n₁ c : Node} {w w₁ : σ} (hn₁ : n.ExceptAt name n₁)
    (hc : c.Placed (dir ++ [name])) (hw : within (dir ++ [name]) w w₁) :
    (Visit.child name c visit (n₁,w₁)).2.1.Placed dir ∧
      within dir w (Visit.child name c visit (n₁,w₁)).2.2 := by
  obtain ⟨hplaced,hwithin⟩ := hv c w₁ hc
  exact ⟨hn.withChild hn₁ hplaced,hb.above [name] (hb.trans hw hwithin)⟩

theorem create_keeps {visit : Node → Visit σ α}
    (hv : ∀ c, (visit c).Keeps within (dir ++ [name])) (hdir : AreNames (dir ++ [name]))
    (hn : n.Placed dir) {w w₁ : σ} (hw : within (dir ++ [name]) w w₁) :
    ((e.create name >>= fun c => Visit.child name c (visit c)) (n,w₁)).2.1.Placed dir ∧
      within dir w ((e.create name >>= fun c => Visit.child name c (visit c)) (n,w₁)).2.2 := by
  rw [Action.bind_eq]
  rcases create_cases hb hn hdir w₁ with ⟨w₂,hcreate,-,hw₂⟩ | ⟨err,w₂,hcreate,-,hw₂⟩
  · rw [hcreate]
    exact child_keeps hb (hv _) hn ((Node.ExceptAt.refl name n).withChild _) (.new ..)
      (hb.trans hw hw₂)
  · rw [hcreate]
    exact ⟨hn,hb.above [name] (hb.trans hw hw₂)⟩

theorem resolve_keeps (identity : Text) {names : List Text} (hdir : AreNames (dir ++ names))
    (bindings : Bindings) (total : Permission) :
    (e.resolve identity names bindings total).Keeps within dir := by
  induction names generalizing dir bindings total with
  | nil => exact fun n w hn => ⟨hn,hb.refl⟩
  | cons name names ih =>
    intro n w hn
    rw [List.append_cons] at hdir
    have hname := hdir.of_append.1
    rw [resolve_cons]
    rcases child?_cases hb hn hname w with ⟨c,n₁,w₁,hchild,hn₁,hc,hw⟩ | ⟨w₁,hchild,-,hw⟩ |
      ⟨err,w₁,hchild,-,hw⟩
    · rw [hchild]
      exact child_keeps hb (ih hdir _ _) hn hn₁ hc hw
    · rw [hchild]
      dsimp only
      have hstill := hb.above [name] hw
      cases hmatch : n.match? name with
      | some r =>
        obtain ⟨c',hinner⟩ := resolve_inner e identity (hn.inner _ (mem_of_firstMatch hmatch))
          names (Table.insertAll r.2.2 bindings)
          (r.2.1.apply e.groups (Table.insertAll r.2.2 bindings) identity total) w₁
        simp only [Visit.inner,hinner]
        exact ⟨hn,hstill⟩
      | none =>
        dsimp only
        cases Table.get? name n.files with
        | some f => exact ⟨hn,hstill⟩
        | none =>
          dsimp only
          split
          · exact ⟨hn,hstill⟩
          · exact create_keeps hb (fun c => ih hdir _ _) hname hn hw
    · rw [hchild]
      exact ⟨hn,hb.above [name] hw⟩

theorem ask_keeps (identity : Text) {names : List Text} (hdir : AreNames (dir ++ names))
    (bindings : Bindings) (total : Permission) :
    (e.ask identity names bindings total).Keeps within dir :=
  fun n => resolve_keeps hb identity hdir bindings (n.apply e.groups bindings identity total) n

theorem visitDirectory_keeps (d : Text) (absent : Option α) {visit : Visit σ α}
    {names : List Text} (hdir : AreNames (dir ++ names)) (hv : visit.Keeps within (dir ++ names)) :
    (e.visitDirectory d absent visit names).Keeps within dir := by
  induction names generalizing dir with
  | nil => simpa [Engine.visitDirectory] using hv
  | cons name names ih =>
    intro n w hn
    rw [List.append_cons] at hdir hv
    have hname := hdir.of_append.1
    rw [visitDirectory_cons,hn.regular]
    simp only [Bool.false_eq_true,if_false]
    rcases child?_cases hb hn hname w with ⟨c,n₁,w₁,hchild,hn₁,hc,hw⟩ | ⟨w₁,hchild,-,hw⟩ |
      ⟨err,w₁,hchild,-,hw⟩
    · rw [hchild]
      exact child_keeps hb (ih hdir hv) hn hn₁ hc hw
    · rw [hchild]
      cases absent with
      | some a => exact ⟨hn,hb.above [name] hw⟩
      | none => exact create_keeps hb (fun c => ih hdir hv) hname hn hw
    · rw [hchild]
      exact ⟨hn,hb.above [name] hw⟩

theorem visitTop_keeps {visit : Visit σ α} (hv : visit.Keeps within []) (s : Cache × σ)
    (hs : s.1.Placed) :
    (e.visitTop visit s).2.1.Placed ∧ within [] s.2 (e.visitTop visit s).2.2 := by
  have hload := hb.load 0 [] s.2 Path.areNames_nil
  rcases visitTop_begins e hs with ⟨n,w,hn,hw,htop⟩ | ⟨err,w,hl,htop⟩
  · have hwithin : within [] s.2 w := by
      rcases hw with rfl | rfl
      · exact hb.refl
      · exact hload
    obtain ⟨hplaced,hwithin'⟩ := hv n w hn
    rw [htop]
    exact ⟨fun m hm => Option.some.inj hm ▸ hplaced,hb.trans hwithin hwithin'⟩
  · rw [hl] at hload
    rw [htop]
    exact ⟨by simp [Cache.Placed],hload⟩

theorem changing_keeps (hdir : AreNames dir) (c : Change) : (e.changing c).Keeps within dir := by
  intro n w hn
  rw [changing_eq]
  cases hc : c.apply n with
  | error err => exact ⟨hn,hb.refl⟩
  | ok n' =>
    obtain ⟨hn',-⟩ := hn.change hc
    have hstore := hb.persist w hdir hn'
    dsimp only
    rcases hp : e.persist n' w with ⟨_ | _,w₁⟩
    · rw [hp] at hstore
      exact ⟨hn',hstore⟩
    · rw [hp] at hstore
      exact ⟨hn',hstore⟩

/-- Every call leaves the nodes that are kept at their places. -/
theorem call_placed (call : Engine.Call) (s : Cache × σ) (hs : s.1.Placed) :
    (call.run e s).2.1.Placed ∧ within [] s.2 (call.run e s).2.2 := by
  have hupdate : ∀ d c, (e.update d c s).2.1.Placed ∧ within [] s.2 (e.update d c s).2.2 := by
    intro d c
    have hnames : AreNames ([] ++ Path.segments d) := Path.areNames_segments d
    exact visitTop_keeps hb (visitDirectory_keeps hb _ none hnames (changing_keeps hb hnames c)) s hs
  cases hchange : call.change? with
  | some r =>
    obtain ⟨f,hrun⟩ := call.run_change hchange e s
    rw [hrun]
    rcases r with err | ⟨d,c⟩
    · exact ⟨hs,hb.refl⟩
    · exact hupdate d c
  | none =>
    cases call with
    | effective path identity =>
      have hnames : AreNames ([] ++ Path.segments path) := Path.areNames_segments path
      rw [Engine.Call.run_effective,effective_eq]
      exact visitTop_keeps hb (ask_keeps hb identity hnames [] _) s hs
    | describe d =>
      have hnames : AreNames ([] ++ Path.segments d) := Path.areNames_segments d
      rw [Engine.Call.run_describe]
      refine visitTop_keeps hb (visitDirectory_keeps hb _ _ hnames fun n w hn => ?_) s hs
      exact ⟨hn,hb.refl⟩
    | clearCache =>
      have hrun : (Engine.Call.clearCache).run e s = (.ok .done,(none,s.2)) := rfl
      rw [hrun]
      exact ⟨by simp [Cache.Placed],hb.refl⟩
    | _ => cases hchange

theorem run_placed (calls : List Engine.Call) (s : Cache × σ) (hs : s.1.Placed) :
    (e.run calls s).2.1.Placed ∧ within [] s.2 (e.run calls s).2.2 := by
  induction calls generalizing s with
  | nil => exact ⟨hs,hb.refl⟩
  | cons call calls ih =>
    obtain ⟨hplaced,hwithin⟩ := call_placed hb call s hs
    obtain ⟨hplaced',hwithin'⟩ := ih (call.run e s).2 hplaced
    exact ⟨hplaced',hb.trans hwithin hwithin'⟩

end Steps

end Acl
end Realm
