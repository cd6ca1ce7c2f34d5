import Realm.Proofs.Acl.Answers
import Realm.Proofs.Acl.InMemory

/-! Directories below a name that matches a pattern. Whoever changes the rules of a directory
goes down to it by the names of nodes alone, so that patterns on the way to it do not count,
neither then nor afterwards. -/
namespace Realm.Acl

open Realm.Path (ofSegments AreNames)

variable {σ α : Type}

/-- Go down to the node of a directory, and make the nodes that are missing. -/
def Engine.walk (e : Engine σ) (visit : Visit σ α) : List Text → Visit σ α
  | [] => visit
  | name :: names => do
    match ← e.child? name with
    | some c => Visit.child name c (walk e visit names)
    | none => do
      let c ← e.create name
      Visit.child name c (walk e visit names)

/-- What an identity may do at a directory by the nodes on the way to it alone. -/
def Node.gather (groups : Groups) (identity : Text) :
    List Text → Node → Permission → Option Permission
  | [],n,total => some (n.apply groups [] identity total)
  | name :: names,n,total =>
    (Table.get? name n.children).bind fun c =>
      gather groups identity names c (n.apply groups [] identity total)

section

variable {e : Engine σ}

theorem walk_cons (e : Engine σ) (visit : Visit σ α) (name : Text) (names : List Text) (n : Node)
    (w : σ) :
    e.walk visit (name :: names) (n,w) =
      match e.child? name (n,w) with
      | (.error err,x) => (.error err,x)
      | (.ok (some c),x) => Visit.child name c (e.walk visit names) x
      | (.ok none,x) => (e.create name >>= fun c => Visit.child name c (e.walk visit names)) x := by
  rw [Engine.walk,Action.bind_eq]
  rcases e.child? name (n,w) with ⟨err | (_ | c),x⟩ <;> rfl

/-- No node on the way to a directory lies below a pattern. -/
theorem visitDirectory_eq_walk (d : Text) {visit : Visit σ α} {dir names : List Text} {n : Node}
    (hn : n.Placed dir) (hdir : AreNames (dir ++ names)) (w : σ) :
    e.visitDirectory d none visit names (n,w) = e.walk visit names (n,w) := by
  induction names generalizing dir n w with
  | nil => rfl
  | cons name names ih =>
    rw [List.append_cons] at hdir
    have hname := hdir.of_append.1
    have hb := e.confined_any
    have hchild : ∀ (c n₁ : Node) (w₁ : σ), c.Placed (dir ++ [name]) →
        Visit.child name c (e.visitDirectory d none visit names) (n₁,w₁) =
          Visit.child name c (e.walk visit names) (n₁,w₁) := by
      intro c n₁ w₁ hc
      simp only [Visit.child,ih hc hdir w₁]
    -- A node that has a directory of its own is never one below a pattern.
    rw [visitDirectory_cons,walk_cons,hn.regular]
    simp only [Bool.false_eq_true,if_false]
    rcases child?_cases hb hn hname w with ⟨c,n₁,w₁,h,-,hc,-⟩ | ⟨w₁,h,-,-⟩ | ⟨err,w₁,h,-,-⟩
    · rw [h]
      exact hchild c n₁ w₁ hc
    · rw [h]
      dsimp only
      rw [Action.bind_eq,Action.bind_eq]
      rcases create_cases hb hn hname w₁ with ⟨w₂,h,-,-⟩ | ⟨err,w₂,h,-,-⟩
      · rw [h]
        exact hchild _ _ w₂ (.new ..)
      · rw [h]
    · rw [h]

theorem visitTop_congr {visit visit' : Visit σ α}
    (h : ∀ n w, n.Placed [] → visit (n,w) = visit' (n,w)) {s : Cache × σ} (hs : s.1.Placed) :
    e.visitTop visit s = e.visitTop visit' s := by
  rcases visitTop_begins e hs with ⟨n,w,hn,-,htop⟩ | ⟨err,w,-,htop⟩
  · rw [htop,htop,h n w hn]
  · rw [htop,htop]

theorem gather_walk {visit : Visit σ α} {names : List Text} {s s' : Node × σ} {a : α}
    (h : e.walk visit names s = (.ok a,s')) (groups : Groups) (identity : Text)
    (total : Permission) : ∃ p, s'.1.gather groups identity names total = some p := by
  induction names generalizing s s' total with
  | nil => exact ⟨_,rfl⟩
  | cons name names ih =>
    have hchild : ∀ c x, Visit.child name c (e.walk visit names) x = (.ok a,s') →
        ∃ p, s'.1.gather groups identity (name :: names) total = some p := by
      intro c x hx
      rcases hv : e.walk visit names (c,x.2) with ⟨r,c',w⟩
      simp only [Visit.child,hv] at hx
      cases hx
      simp only [Node.gather,Node.get?_withChild]
      exact ih hv _
    obtain ⟨n,w⟩ := s
    rw [walk_cons] at h
    rcases hc : e.child? name (n,w) with ⟨err | (_ | c),x⟩
    · rw [hc] at h
      cases h
    · simp only [hc,Action.bind_eq] at h
      rcases hcreate : e.create name x with ⟨err | c,y⟩
      · rw [hcreate] at h
        cases h
      · simp only [hcreate] at h
        exact hchild c y h
    · simp only [hc] at h
      exact hchild c x h

theorem ask_gather {names : List Text} {n : Node} {identity : Text} {total p : Permission}
    (h : n.gather e.groups identity names total = some p) (w : σ) :
    (e.ask identity names [] total (n,w)).1 = .ok p := by
  induction names generalizing n total with
  | nil =>
    obtain rfl : n.apply e.groups [] identity total = p := Option.some.inj h
    rfl
  | cons name names ih =>
    obtain ⟨c,hc,h⟩ := Option.bind_eq_some_iff.1 h
    have hchild : e.child? name (n,w) = (.ok (some c),(n,w)) := by rw [child?_eq,hc]
    rw [ask_child hchild]
    exact ih h

/-- A change of the rules of a directory goes down to it by the names of nodes, whatever the
patterns on the way, and if it succeeds these nodes alone count at the directory. -/
theorem change_beneath_patterns (e : Engine σ) (w : σ) (before : List Engine.Call)
    {call : Engine.Call} {dir : Text} {c : Change} (hcall : call.change? = some (.ok (dir,c))) :
    let s := (e.run before (none,w)).2
    let s' := (call.run e s).2
    (∃ f : Node → Engine.Answer, call.run e s =
      (((e.visitTop (e.walk (e.changing c) (Path.segments dir))) s).1.map f,
        ((e.visitTop (e.walk (e.changing c) (Path.segments dir))) s).2)) ∧
    ∀ a, (call.run e s).1 = .ok a → ∃ top, s'.1 = some top ∧ ∀ identity, ∃ p,
      top.gather e.groups identity (Path.segments dir) Permission.empty = some p ∧
        (e.effective dir identity s').1 = .ok p := by
  intro s s'
  obtain ⟨hs,-⟩ := run_placed e.confined_any before (none,w) (by simp [Cache.Placed])
  have hnames : AreNames ([] ++ Path.segments dir) := Path.areNames_segments dir
  have hwalk : e.update dir c s = e.visitTop (e.walk (e.changing c) (Path.segments dir)) s :=
    visitTop_congr (fun n w hn => visitDirectory_eq_walk (Path.normalize dir) hn hnames w) hs
  obtain ⟨f,hrun⟩ := call.run_change hcall e s
  replace hrun : call.run e s = ((e.update dir c s).1.map f,(e.update dir c s).2) := hrun
  rw [hwalk] at hrun
  refine ⟨⟨f,hrun⟩,fun a ha => ?_⟩
  have hstate : s' = (e.visitTop (e.walk (e.changing c) (Path.segments dir)) s).2 :=
    congrArg Prod.snd hrun
  rw [hrun] at ha
  rcases visitTop_begins e hs with ⟨n,w₁,-,-,htop⟩ | ⟨err,w₁,-,htop⟩
  · rcases hv : e.walk (e.changing c) (Path.segments dir) (n,w₁) with ⟨r,n',w'⟩
    rw [htop,hv] at ha hstate
    cases r with
    | error err => cases ha
    | ok m =>
      refine ⟨n',by rw [hstate],fun identity => ?_⟩
      obtain ⟨p,hp⟩ := gather_walk hv e.groups identity Permission.empty
      refine ⟨p,hp,?_⟩
      rw [hstate,effective_eq]
      exact ask_gather hp w'
  · rw [htop] at ha
    cases ha

end

/-- Everyone may read at home and below. -/
def openHomes : List Engine.Call :=
  [.addPattern "/home".toList ".+".toList [("%token".toList,Permission.of .read)] true]

/-- Someone gives ann a grant for a directory at the home of bob. -/
def lendDocs : Engine.Call :=
  .setPermissions "/home/bob/docs".toList "ann".toList (Permission.of .read)

theorem change_beneath_patterns_memory :
    lendDocs.change? =
        some (.ok ("/home/bob/docs".toList,.grant "ann".toList (Permission.of .read))) ∧
      (let s := (memoryEngine.run openHomes (none,FileTree.empty)).2
      let s' := (lendDocs.run memoryEngine s).2
      let walk := memoryEngine.walk (memoryEngine.changing (.grant "ann".toList (Permission.of .read)))
        (Path.segments "/home/bob/docs".toList)
      (∃ f : Node → Engine.Answer, lendDocs.run memoryEngine s =
        ((memoryEngine.visitTop walk s).1.map f,(memoryEngine.visitTop walk s).2)) ∧
      ∀ a, (lendDocs.run memoryEngine s).1 = .ok a → ∃ top, s'.1 = some top ∧ ∀ identity, ∃ p,
        top.gather memoryEngine.groups identity (Path.segments "/home/bob/docs".toList)
            Permission.empty = some p ∧
          (memoryEngine.effective "/home/bob/docs".toList identity s').1 = .ok p) :=
  have hcall : lendDocs.change? =
      some (.ok ("/home/bob/docs".toList,.grant "ann".toList (Permission.of .read))) := rfl
  ⟨hcall,change_beneath_patterns memoryEngine FileTree.empty openHomes hcall⟩

/-- Before the grant bob may read there, and afterwards he may not. -/
theorem not_change_beneath_patterns :
    let s := (memoryEngine.run openHomes (none,FileTree.empty)).2
    (memoryEngine.run openHomes (none,FileTree.empty)).1 = [.ok .done] ∧
      (memoryEngine.effective "/home/bob/docs".toList "bob".toList s).1 =
        .ok (Permission.of .read) ∧
      (lendDocs.run memoryEngine s).1 = .ok .done ∧
      (memoryEngine.effective "/home/bob/docs".toList "bob".toList (lendDocs.run memoryEngine s).2).1 =
        .ok Permission.empty := by
  decide +kernel

end Realm.Acl
