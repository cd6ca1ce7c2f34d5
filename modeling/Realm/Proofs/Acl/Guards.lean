import Realm.Proofs.Acl.Calls
import Realm.Proofs.Acl.InMemory
import Realm.Proofs.Acl.Placed
import Realm.Proofs.Acl.RoundTrip
import Realm.Proofs.Acl.Structure
import Realm.Proofs.FileSystem.Discreet

/-! The access engine with guards. It goes back to the tree for each node that it has put there,
and looks at each node that comes from a shadow file or goes to one. The tree is always such that
no guard is needed. -/
namespace Realm.Acl

variable {σ α β : Type}

namespace Guarded

/-- What the engine relies on and does not find. -/
inductive Lapse where
  /-- A node that has been put under a name is not there. -/
  | childVanished
  /-- Missing nodes were to be made, and still there is none for a directory. -/
  | nodeNotCreated (dir : Text)
  | topMissing
  /-- A node at or below a pattern comes from a shadow file of its own. -/
  | patternNodeRead (path : Text)
  /-- A node at or below a pattern goes to a shadow file of its own. -/
  | patternNodeStored (path : Text)
deriving DecidableEq, Repr

inductive Fault where
  | lapse (cause : Lapse)
  | error (err : Error)
deriving DecidableEq, Repr

end Guarded

/-- A step on a state with guards. -/
abbrev Guarded (σ α : Type) := ExceptT Guarded.Fault (StateM σ) α

namespace Guarded

def plain (x : Action σ α) : Guarded σ α := fun s =>
  ((x s).1.mapError .error,(x s).2)

/-! Steps at a node. -/

def node : Guarded (Node × σ) Node :=
  plain Visit.node

def put (n : Node) : Guarded (Node × σ) Unit :=
  plain (Visit.put n)

def outside (step : Guarded σ α) : Guarded (Node × σ) α := fun (n,w) =>
  let (r,w) := step w
  (r,(n,w))

def child (name : Text) (c : Node) (visit : Guarded (Node × σ) α) : Guarded (Node × σ) α :=
  fun (n,w) =>
    let (r,(c,w)) := visit (c,w)
    (r,(n.withChild name c,w))

def inner (c : Node) (visit : Guarded (Node × σ) α) : Guarded (Node × σ) α := fun (n,w) =>
  let (r,(_,w)) := visit (c,w)
  (r,(n,w))

def load (e : Engine σ) (dir : Text) (depth : Nat) (name : Text) : Guarded σ (Option Node) := do
  if ← plain (e.shadow.has (e.shadowPath dir)) then
    let bytes ← plain (e.shadow.read (e.shadowPath dir))
    match Shadow.ofBytes bytes with
    | .error fault => throw (.error (.json fault))
    | .ok s =>
      match Node.ofShadow dir depth name s with
      | .error err => throw (.error err)
      | .ok n => if n.isSpecial then throw (.lapse (.patternNodeRead n.path)) else pure (some n)
  else pure none

def persist (e : Engine σ) (n : Node) : Guarded σ Unit := do
  if n.isSpecial then throw (.lapse (.patternNodeStored n.path))
  else
    plain (e.shadow.makeDir (Path.parent (e.shadowPath n.path)) true)
    plain (e.shadow.write (e.shadowPath n.path) n.toShadow.toBytes)

def kept (name : Text) : Guarded (Node × σ) Node := do
  let n ← node
  match Table.get? name n.children with
  | some c => pure c
  | none => throw (.lapse .childVanished)

/-- Read the child of a name, if it is not kept yet. -/
def fetch (e : Engine σ) (name : Text) : Guarded (Node × σ) Unit := do
  let n ← node
  if !Table.contains name n.children then
    if n.isSpecial then throw (.lapse (.patternNodeRead (Path.child n.path name)))
    else
      match ← outside (load e (Path.child n.path name) (n.depth + 1) name) with
      | some c => put (n.withChild name c)
      | none => pure ()

def look (name : Text) : Guarded (Node × σ) (Option Node) := do
  let n ← node
  if Table.contains name n.children then
    let c ← kept name
    pure (some c)
  else pure none

def child? (e : Engine σ) (name : Text) : Guarded (Node × σ) (Option Node) := do
  let n ← node
  if !n.isSpecial then fetch e name
  look name

def create (e : Engine σ) (name : Text) : Guarded (Node × σ) Node := do
  let n ← node
  let dir := Path.child n.path name
  let c := Node.new dir (n.depth + 1) name (e.source dir)
  if n.isSpecial then throw (.lapse (.patternNodeStored dir))
  else
    outside (persist e c)
    put (n.withChild name c)
    kept name

def resolve (e : Engine σ) (identity : Text) :
    List Text → Bindings → Permission → Guarded (Node × σ) Permission
  | [], _, total => pure total
  | name :: names, bindings, total => do
    match ← child? e name with
    | some c =>
      child name c (resolve e identity names bindings (c.apply e.groups bindings identity total))
    | none => do
      let n ← node
      match n.match? name with
      | some (_,c,bound) =>
        let bindings := Table.insertAll bound bindings
        inner c (resolve e identity names bindings (c.apply e.groups bindings identity total))
      | none =>
        match Table.get? name n.files with
        | some f => pure (f.apply e.groups bindings identity total)
        | none =>
          if names.isEmpty || n.isSpecial then pure total
          else do
            let c ← create e name
            child name c
              (resolve e identity names bindings (c.apply e.groups bindings identity total))

/-- Visit the node of a directory. Missing nodes are made if that is wanted, and otherwise the
visit ends there. -/
def visitDirectory (e : Engine σ) (dir : Text) (make : Bool) (absent visit : Guarded (Node × σ) α) :
    List Text → Guarded (Node × σ) α
  | [] => visit
  | name :: names => do
    let n ← node
    if n.isSpecial then throw (.error (.config (.beneathPattern dir)))
    else
      fetch e name
      match ← look name with
      | some c => child name c (visitDirectory e dir make absent visit names)
      | none =>
        if make then do
          let c ← create e name
          child name c (visitDirectory e dir make absent visit names)
        else absent

/-- Read or make the top of the tree, if it is not kept yet. -/
def fetchTop (e : Engine σ) : Guarded (Cache × σ) Unit := fun (cache,w) =>
  match cache with
  | some n => (.ok (),(some n,w))
  | none =>
    match load e ['/'] 0 [] w with
    | (.error fault,w) => (.error fault,(none,w))
    | (.ok (some n),w) => (.ok (),(some n,w))
    | (.ok none,w) => (.ok (),(some (Node.new ['/'] 0 [] (e.source ['/'])),w))

def visitTop (e : Engine σ) (visit : Guarded (Node × σ) α) : Guarded (Cache × σ) α := do
  fetchTop e
  fun (cache,w) =>
    match cache with
    | none => (.error (.lapse .topMissing),(none,w))
    | some n =>
      let (r,(n,w)) := visit (n,w)
      (r,(some n,w))

def effective (e : Engine σ) (path identity : Text) : Guarded (Cache × σ) Permission :=
  visitTop e do
    let n ← node
    resolve e identity (Path.segments path) [] (n.lookup e.groups [] identity)

def changing (e : Engine σ) (c : Change) : Guarded (Node × σ) Node := do
  let n ← node
  match c.apply n with
  | .error err => throw (.error err)
  | .ok n' => do
    put n'
    outside (persist e n')
    pure n

def update (e : Engine σ) (dir : Text) (c : Change) : Guarded (Cache × σ) Node :=
  visitTop e
    (visitDirectory e (Path.normalize dir) true
      (throw (.lapse (.nodeNotCreated (Path.normalize dir)))) (changing e c) (Path.segments dir))

def updateFile (e : Engine σ) (file : Text) (change : Text → Change) :
    Guarded (Cache × σ) Node := do
  match Engine.splitFile file with
  | .error err => throw (.error err)
  | .ok (dir,name) => update e dir (change name)

def touchFile (e : Engine σ) (file : Text) : Guarded (Cache × σ) Bool := do
  let before ← updateFile e file .touch
  pure (!Table.contains (Path.fileName (Path.normalize file)) before.files)

def describe (e : Engine σ) (dir : Text) : Guarded (Cache × σ) Text :=
  let absent := Path.normalize dir ++ ": no ACL node\n".toList
  let visit : Guarded (Node × σ) Text := do
    let n ← node
    pure (Engine.describeNode 0 n)
  visitTop e
    (visitDirectory e (Path.normalize dir) false (pure absent) visit (Path.segments dir))

def call (e : Engine σ) : Engine.Call → Guarded (Cache × σ) Engine.Answer
  | .effective path identity => do
    let p ← effective e path identity
    pure (.permission p)
  | .setPermissions dir key p => do
    let _ ← update e dir (.grant key p)
    pure .done
  | .setInherits dir on => do
    let _ ← update e dir (.inherit on)
    pure .done
  | .addPattern dir pattern permissions inherits => do
    let _ ← update e dir (.addPattern pattern permissions inherits)
    pure .done
  | .touchFile file => do
    let b ← touchFile e file
    pure (.created b)
  | .setFilePermissions file key p => do
    let _ ← updateFile e file (.grantFile · key p)
    pure .done
  | .setFileInherits file on => do
    let _ ← updateFile e file (.inheritFile · on)
    pure .done
  | .describe dir => do
    let t ← describe e dir
    pure (.text t)
  | .clearCache => do
    plain Engine.clearCache
    pure .done

/-- Carry out calls in their order, each whatever became of those before it. -/
def run (e : Engine σ) : List Engine.Call → Cache × σ →
    List (Except Fault Engine.Answer) × (Cache × σ)
  | [], s => ([],s)
  | c :: calls, s =>
    let rest := run e calls (call e c s).2
    ((call e c s).1 :: rest.1,rest.2)

/-! Steps that are not stopped by their guards. -/

theorem bind_eq (x : Guarded σ α) (f : α → Guarded σ β) (s : σ) :
    (x >>= f) s = match x s with
      | (.ok a,s) => f a s
      | (.error fault,s) => (.error fault,s) := by
  show ExceptT.bindCont f (x s).1 (x s).2 = _
  rcases x s with ⟨_ | _,_⟩ <;> rfl

/-- With its guards a step does what it does without them, wherever it begins in a state of a
kind. It ends in such a state, with a result of which something holds, and reports no internal
error. -/
def Safe (I : σ → Prop) (Q : α → Prop) (x : Action σ α) (g : Guarded σ α) : Prop :=
  ∀ s, I s → g s = plain x s ∧ I (x s).2 ∧ Fair Q (x s).1

namespace Safe

variable {I : σ → Prop} {P : α → Prop} {Q : β → Prop}

theorem pure {a : α} (h : P a) : Safe I P (Pure.pure a) (Pure.pure a) :=
  fun _ hs => ⟨rfl,hs,h⟩

theorem throw {err : Error} (h : ∀ cause, err ≠ .internal cause) :
    Safe I P (throw err) (throw (.error err)) :=
  fun _ hs => ⟨rfl,hs,h⟩

theorem bind {x : Action σ α} {g : Guarded σ α} {f : α → Action σ β} {k : α → Guarded σ β}
    (h : Safe I P x g) (hk : ∀ a, P a → Safe I Q (f a) (k a)) : Safe I Q (x >>= f) (g >>= k) := by
  intro s hs
  obtain ⟨heq,hI,hP⟩ := h s hs
  rw [bind_eq,heq,plain,plain,Action.bind_eq]
  rcases hx : x s with ⟨err | a,s'⟩ <;> rw [hx] at hI hP
  · exact ⟨rfl,hI,hP⟩
  · exact hk a hP s' hI

theorem map {x : Action σ α} {g : Guarded σ α} (h : Safe I P x g) (f : α → β) :
    Safe I (fun _ => True) (x >>= fun a => Pure.pure (f a)) (g >>= fun a => Pure.pure (f a)) :=
  h.bind fun _ _ => .pure trivial

end Safe

theorem safe_plain {x : Action σ α} (h : x.Discreet) :
    Safe (fun _ => True) (fun _ => True) x (plain x) :=
  fun s _ => ⟨rfl,trivial,h s⟩

/-- The states of a visit at the place of a node. -/
def At (n : Node) (s : Node × σ) : Prop :=
  s.1.Formed ∧ n.SamePlace s.1

section Visits

variable {n : Node} {Q : α → Prop}

theorem safe_node : Safe (At n) (fun m => m.Formed ∧ n.SamePlace m)
    (Visit.node : Visit σ Node) node :=
  fun _ hs => ⟨rfl,hs,hs⟩

theorem safe_put {m : Node} (hm : m.Formed) (hplace : n.SamePlace m) :
    Safe (At n) (fun _ => True) (Visit.put m : Visit σ Unit) (put m) :=
  fun _ _ => ⟨rfl,⟨hm,hplace⟩,trivial⟩

theorem safe_outside {x : Action σ α} {g : Guarded σ α} (h : Safe (fun _ => True) Q x g) :
    Safe (At n) Q (Visit.outside x) (outside g) := by
  rintro ⟨m,w⟩ hs
  obtain ⟨heq,-,hQ⟩ := h w trivial
  refine ⟨?_,hs,hQ⟩
  rw [outside,heq]
  rfl

theorem safe_child {name : Text} {c : Node} (hc : n.ChildOf name c) {v : Visit σ α}
    {g : Guarded (Node × σ) α} (h : Safe (At c) Q v g) :
    Safe (At n) Q (Visit.child name c v) (child name c g) := by
  rintro ⟨m,w⟩ ⟨hm,hplace⟩
  obtain ⟨heq,⟨hc',hcplace⟩,hQ⟩ := h (c,w) ⟨hc.formed,.refl c⟩
  refine ⟨?_,⟨hm.withChild (hc.congr hplace hcplace hc'),?_⟩,hQ⟩
  · rw [child,heq]
    rfl
  · exact hplace.trans (Node.samePlace_withChild m name _)

theorem safe_inner {c : Node} (hc : c.Formed) {v : Visit σ α} {g : Guarded (Node × σ) α}
    (h : Safe (At c) Q v g) : Safe (At n) Q (Visit.inner c v) (inner c g) := by
  rintro ⟨m,w⟩ hs
  obtain ⟨heq,-,hQ⟩ := h (c,w) ⟨hc,.refl c⟩
  refine ⟨?_,hs,hQ⟩
  rw [inner,heq]
  rfl

end Visits

/-! What the steps at a node come to. -/

theorem node_bind (f : Node → Guarded (Node × σ) β) (n : Node) (w : σ) :
    (node >>= f) (n,w) = f n (n,w) := by
  rw [bind_eq]
  rfl

theorem kept_eq (name : Text) (n : Node) (w : σ) :
    kept name (n,w) = match Table.get? name n.children with
      | some c => (.ok c,(n,w))
      | none => (.error (.lapse .childVanished),(n,w)) := by
  rw [kept,node_bind]
  cases Table.get? name n.children <;> rfl

theorem look_eq (name : Text) (n : Node) (w : σ) :
    look name (n,w) = (.ok (Table.get? name n.children),(n,w)) := by
  rw [look,node_bind,Table.contains]
  cases hget : Table.get? name n.children with
  | none => rfl
  | some c =>
    simp only [Option.isSome_some,if_true]
    rw [bind_eq,kept_eq,hget]
    rfl

theorem fetch_look (e : Engine σ) (name : Text) {n : Node} (hn : n.isSpecial = false) (w : σ) :
    (fetch e name >>= fun _ => look name) (n,w) =
      match Table.get? name n.children with
      | some c => (.ok (some c),(n,w))
      | none =>
        match load e (Path.child n.path name) (n.depth + 1) name w with
        | (.ok (some c),w) => (.ok (some c),(n.withChild name c,w))
        | (.ok none,w) => (.ok none,(n,w))
        | (.error fault,w) => (.error fault,(n,w)) := by
  have hput : ∀ c w, put (n.withChild name c) (n,w) =
      ((.ok (),(n.withChild name c,w)) : Except Fault Unit × (Node × σ)) := fun _ _ => rfl
  rw [bind_eq,fetch,node_bind,Table.contains]
  cases hget : Table.get? name n.children with
  | some c =>
    show look name (n,w) = _
    rw [look_eq,hget]
  | none =>
    simp only [Option.isSome_none,Bool.not_false,hn,Bool.false_eq_true,if_false,if_true]
    rw [bind_eq,outside]
    rcases load e (Path.child n.path name) (n.depth + 1) name w with ⟨fault | _ | c,w₁⟩
    · rfl
    · show look name (n,w₁) = _
      rw [look_eq,hget]
    · simp only [hput]
      rw [look_eq,Node.get?_withChild]

theorem create_eq (e : Engine σ) (name : Text) {n : Node} (hn : n.isSpecial = false) (w : σ)
    {c : Node} (hc : c = Node.new (Path.child n.path name) (n.depth + 1) name
      (e.source (Path.child n.path name))) :
    create e name (n,w) =
      match persist e c w with
      | (.ok _,w) => (.ok c,(n.withChild name c,w))
      | (.error fault,w) => (.error fault,(n,w)) := by
  rw [create,node_bind,← hc,hn]
  simp only [Bool.false_eq_true,if_false]
  rw [bind_eq,outside]
  rcases persist e c w with ⟨fault | _,w₁⟩
  · rfl
  · show (put (n.withChild name c) >>= fun _ => kept name : Guarded (Node × σ) Node) (n,w₁) = _
    rw [bind_eq]
    show kept name (n.withChild name c,w₁) = _
    rw [kept_eq,Node.get?_withChild]

theorem childOf_new {n c : Node} {name : Text} {g : Grants} (hn : n.isSpecial = false)
    (hc : c.Formed)
    (hplace : (Node.new (Path.child n.path name) (n.depth + 1) name g).SamePlace c) :
    n.ChildOf name c where
  formed := hc
  above := ⟨hplace.depth,by rw [hplace.path,hplace.name]; rfl⟩
  name := hplace.name
  pattern := hplace.pattern
  isSpecial := hplace.isSpecial.trans hn.symm

theorem fair_change (c : Change) (n : Node) : Fair (fun _ => True) (c.apply n) := by
  cases c with
  | grant | inherit | touch | grantFile | inheritFile => trivial
  | addPattern pattern g on =>
    simp only [Change.apply]
    split
    · exact fun _ h => by cases h
    · rw [Node.ofPattern,Node.compilePattern]
      cases Regex.compile ("^(?:".toList ++ pattern ++ ")$".toList) with
      | none => exact fun _ h => by cases h
      | some p => trivial

section Steps

variable {e : Engine σ} (hfs : e.shadow.Discreet)

include hfs

theorem safe_load (dir : Text) (depth : Nat) (name : Text) :
    Safe (fun _ => True) (fun r => ∀ c, r = some c →
        c.Formed ∧ (Node.new dir depth name []).SamePlace c)
      (e.load dir depth name) (load e dir depth name) := by
  rw [Engine.load,load]
  refine (safe_plain (hfs.operation (.has _) rfl)).bind fun there _ => ?_
  cases there with
  | false => exact .pure fun _ h => by cases h
  | true =>
    refine (safe_plain (hfs.operation (.read _) rfl)).bind fun bytes _ => ?_
    cases Shadow.ofBytes bytes with
    | error fault => exact .throw fun _ h => by cases h
    | ok s =>
      simp only
      rcases hs : Node.ofShadow dir depth name s with err | n
      · refine .throw fun cause => ?_
        rcases ofShadow_cases dir depth name s with ⟨p,-,-,h⟩ | ⟨-,h⟩ | ⟨-,-,m,h⟩
        all_goals rw [h] at hs; cases hs
        all_goals exact fun h => by cases h
      · obtain ⟨hformed,hpath,hdepth,hname,hregular,hpattern⟩ := Node.Formed.ofShadow hs
        simp only [hregular,Bool.false_eq_true,if_false]
        refine .pure fun c hc => ?_
        cases hc
        exact ⟨hformed,hpath,hdepth,hname,hregular,hpattern⟩

theorem safe_persist {n : Node} (hn : n.isSpecial = false) :
    Safe (fun _ => True) (fun _ => True) (e.persist n) (persist e n) := by
  rw [Engine.persist,persist,hn]
  simp only [Bool.false_eq_true,if_false]
  exact (safe_plain (hfs.operation (.makeDir _ _) rfl)).bind fun _ _ =>
    safe_plain (hfs.operation (.write _ _) rfl)

theorem safe_fetch_look {n : Node} (hn : n.isSpecial = false) (name : Text) :
    Safe (At n) (fun r => ∀ c, r = some c → n.ChildOf name c) (e.child? name)
      (fetch e name >>= fun _ => look name) := by
  rintro ⟨m,w⟩ ⟨hm,hplace⟩
  have hregular : m.isSpecial = false := hplace.isSpecial.trans hn
  rw [fetch_look e name hregular,plain,Acl.child?_eq]
  cases hget : Table.get? name m.children with
  | some c =>
    refine ⟨rfl,⟨hm,hplace⟩,fun _ h => ?_⟩
    cases h
    exact (hm.child (Table.mem_of_get? hget)).of_samePlace hplace
  | none =>
    obtain ⟨heq,-,hQ⟩ := safe_load hfs (Path.child m.path name) (m.depth + 1) name w trivial
    simp only [hregular,Bool.false_eq_true,if_false,heq,plain]
    rcases hl : e.load (Path.child m.path name) (m.depth + 1) name w with ⟨err | (_ | c),w₁⟩
    all_goals rw [hl] at hQ
    · exact ⟨rfl,⟨hm,hplace⟩,hQ⟩
    · exact ⟨rfl,⟨hm,hplace⟩,nofun⟩
    · obtain ⟨hformed,hcplace⟩ := hQ c rfl
      have hc : m.ChildOf name c := childOf_new hregular hformed hcplace
      have hkept := hplace.trans (Node.samePlace_withChild m name c)
      refine ⟨rfl,⟨hm.withChild hc,hkept⟩,fun _ h => ?_⟩
      cases h
      exact hc.of_samePlace hplace

theorem safe_child? (n : Node) (name : Text) :
    Safe (At n) (fun r => ∀ c, r = some c → n.ChildOf name c) (e.child? name) (child? e name) := by
  rintro ⟨m,w⟩ ⟨hm,hplace⟩
  rw [child?,node_bind]
  cases hspecial : m.isSpecial with
  | false =>
    have hn : n.isSpecial = false := hplace.isSpecial.symm.trans hspecial
    exact safe_fetch_look hfs hn name (m,w) ⟨hm,hplace⟩
  | true =>
    show look name (m,w) = _ ∧ _
    rw [look_eq,plain,Acl.child?_eq]
    cases hget : Table.get? name m.children with
    | some c =>
      refine ⟨rfl,⟨hm,hplace⟩,fun _ h => ?_⟩
      cases h
      exact (hm.child (Table.mem_of_get? hget)).of_samePlace hplace
    | none =>
      simp only [hspecial,if_true]
      exact ⟨rfl,⟨hm,hplace⟩,nofun⟩

theorem safe_create {n : Node} (hn : n.isSpecial = false) (name : Text) :
    Safe (At n) (n.ChildOf name) (e.create name) (create e name) := by
  rintro ⟨m,w⟩ ⟨hm,hplace⟩
  have hregular : m.isSpecial = false := hplace.isSpecial.trans hn
  obtain ⟨c,hmade⟩ : ∃ c, c = Node.new (Path.child m.path name) (m.depth + 1) name
      (e.source (Path.child m.path name)) := ⟨_,rfl⟩
  have hc : m.ChildOf name c := by
    rw [hmade]
    exact childOf_new hregular (.new ..) (.refl _)
  obtain ⟨heq,-,hQ⟩ := safe_persist hfs (hc.isSpecial.trans hregular) w trivial
  rw [create_eq e name hregular w hmade,plain,Acl.create_eq e name m w rfl hmade,heq,plain]
  rcases hp : e.persist c w with ⟨err | _,w₁⟩
  all_goals rw [hp] at hQ
  · exact ⟨rfl,⟨hm,hplace⟩,hQ⟩
  · exact ⟨rfl,⟨hm.withChild hc,hplace.trans (Node.samePlace_withChild m name c)⟩,
      hc.of_samePlace hplace⟩

theorem safe_resolve (identity : Text) (names : List Text) (n : Node) (bindings : Bindings)
    (total : Permission) : Safe (At n) (fun _ => True) (e.resolve identity names bindings total)
      (resolve e identity names bindings total) := by
  induction names generalizing n bindings total with
  | nil => exact .pure trivial
  | cons name names ih =>
    rw [Engine.resolve,resolve]
    refine (safe_child? hfs n name).bind fun c hc => ?_
    cases c with
    | some c => exact safe_child (hc c rfl) (ih c _ _)
    | none =>
      refine safe_node.bind fun m hm => ?_
      cases hmatch : m.match? name with
      | some r =>
        exact safe_inner (hm.1.pattern (mem_of_firstMatch hmatch)).1 (ih r.2.1 _ _)
      | none =>
        simp only
        cases Table.get? name m.files with
        | some f => exact .pure trivial
        | none =>
          simp only
          split
          · exact .pure trivial
          · next hmore =>
            have hn : n.isSpecial = false := by
              have hspecial := hm.2.isSpecial
              simp_all
            exact (safe_create hfs hn name).bind fun c hc => safe_child hc (ih c _ _)

/-- Where missing nodes are made there is a node in the end, and it is not stored with
another. -/
theorem safe_visitDirectory (dir : Text) (absent : Option α) {v : Visit σ α}
    {g : Guarded (Node × σ) α}
    (hv : ∀ n : Node, n.isSpecial = false → Safe (At n) (fun _ => True) v g)
    (names : List Text) {n : Node} (hn : n.isSpecial = false) :
    Safe (At n) (fun _ => True) (e.visitDirectory dir absent v names)
      (visitDirectory e dir absent.isNone
        (absent.elim (throw (.lapse (.nodeNotCreated dir))) pure) g names) := by
  induction names generalizing n with
  | nil => exact hv n hn
  | cons name names ih =>
    have hbelow : ∀ {c}, n.ChildOf name c → Safe (At n) (fun _ => True)
        (Visit.child name c (e.visitDirectory dir absent v names))
        (child name c (visitDirectory e dir absent.isNone
          (absent.elim (throw (.lapse (.nodeNotCreated dir))) pure) g names)) :=
      fun hc => safe_child hc (ih (hc.isSpecial.trans hn))
    simp only [Engine.visitDirectory,visitDirectory]
    refine safe_node.bind fun m hm => ?_
    split
    · exact .throw fun _ h => by cases h
    · rw [← bind_assoc]
      refine (safe_fetch_look hfs hn name).bind fun c hc => ?_
      cases c with
      | some c => exact hbelow (hc c rfl)
      | none =>
        cases absent with
        | some a => exact .pure trivial
        | none => exact (safe_create hfs hn name).bind fun c hc => hbelow hc

theorem safe_changing (c : Change) {n : Node} (hn : n.isSpecial = false) :
    Safe (At n) (fun _ => True) (e.changing c) (changing e c) := by
  rw [Engine.changing,changing]
  refine safe_node.bind fun m hm => ?_
  have hfair := fair_change c m
  cases happ : c.apply m with
  | error err =>
    rw [happ] at hfair
    exact .throw hfair
  | ok m' =>
    obtain ⟨hformed,hplace⟩ := hm.1.change happ
    have hregular : m'.isSpecial = false := by rw [hplace.isSpecial,hm.2.isSpecial,hn]
    exact (safe_put hformed (hm.2.trans hplace)).bind fun _ _ =>
      (safe_outside (safe_persist hfs hregular)).bind fun _ _ => .pure trivial

/-- The states of an engine: the top of the tree is kept, or nothing is. -/
def Begun (s : Cache × σ) : Prop :=
  ∀ n, s.1 = some n → At (Node.new ['/'] 0 [] []) (n,s.2)

theorem safe_visitTop {Q : α → Prop} {v : Visit σ α} {g : Guarded (Node × σ) α}
    (h : Safe (At (Node.new ['/'] 0 [] [])) Q v g) :
    Safe Begun Q (e.visitTop v) (visitTop e g) := by
  have hgo : ∀ (n : Node) (w : σ), At (Node.new ['/'] 0 [] []) (n,w) →
      ((g (n,w)).1,((some (g (n,w)).2.1 : Cache),(g (n,w)).2.2)) =
          ((v (n,w)).1.mapError Fault.error,(some (v (n,w)).2.1,(v (n,w)).2.2)) ∧
        Begun ((some (v (n,w)).2.1 : Cache),(v (n,w)).2.2) ∧ Fair Q (v (n,w)).1 := by
    intro n w hn
    obtain ⟨heq,hat,hQ⟩ := h (n,w) hn
    refine ⟨by rw [heq]; rfl,fun m hm => ?_,hQ⟩
    cases hm
    exact hat
  rintro ⟨cache,w⟩ hs
  rw [visitTop,bind_eq]
  cases cache with
  | some n => exact hgo n w (hs n rfl)
  | none =>
    obtain ⟨heq,-,hQ⟩ := safe_load hfs ['/'] 0 [] w trivial
    simp only [fetchTop,heq,plain,Engine.visitTop]
    rcases hl : e.load ['/'] 0 [] w with ⟨err | (_ | n),w₁⟩
    all_goals rw [hl] at hQ
    · exact ⟨rfl,fun _ h => (by cases h),hQ⟩
    · exact hgo _ w₁ ⟨.new ..,⟨rfl,rfl,rfl,rfl,rfl⟩⟩
    · exact hgo n w₁ (hQ n rfl)

theorem safe_effective (path identity : Text) :
    Safe Begun (fun _ => True) (e.effective path identity) (effective e path identity) :=
  safe_visitTop hfs (safe_node.bind fun _ _ => safe_resolve hfs identity _ _ [] _)

theorem safe_update (dir : Text) (c : Change) :
    Safe Begun (fun _ => True) (e.update dir c) (update e dir c) :=
  safe_visitTop hfs
    (safe_visitDirectory hfs _ none (fun _ hn => safe_changing hfs c hn) _ rfl)

theorem safe_updateFile (file : Text) (c : Text → Change) :
    Safe Begun (fun _ => True) (e.updateFile file c) (updateFile e file c) := by
  rw [Engine.updateFile,updateFile,Engine.splitFile]
  cases Path.fileName (Path.normalize file) with
  | nil => exact .throw fun _ h => by cases h
  | cons => exact safe_update hfs _ _

theorem safe_describe (dir : Text) :
    Safe Begun (fun _ => True) (e.describe dir) (describe e dir) :=
  safe_visitTop hfs (safe_visitDirectory hfs _ (some _)
    (fun _ _ => safe_node.bind fun _ _ => .pure trivial) _ rfl)

theorem safe_call (c : Engine.Call) : Safe Begun (fun _ => True) (c.run e) (call e c) := by
  cases c with
  | effective => exact (safe_effective hfs _ _).map _
  | setPermissions | setInherits | addPattern => exact (safe_update hfs _ _).map _
  | touchFile => exact ((safe_updateFile hfs _ _).map _).map _
  | setFilePermissions | setFileInherits => exact (safe_updateFile hfs _ _).map _
  | describe => exact (safe_describe hfs _).map _
  | clearCache => exact fun s _ => ⟨rfl,nofun,trivial⟩

/-- Carrying out calls needs no guards. -/
theorem safe_run (calls : List Engine.Call) {s : Cache × σ} (hs : Begun s) :
    run e calls s = ((e.run calls s).1.map (·.mapError .error),(e.run calls s).2) ∧
      Begun (e.run calls s).2 ∧ ∀ r ∈ (e.run calls s).1, Fair (fun _ => True) r := by
  induction calls generalizing s with
  | nil => exact ⟨rfl,hs,nofun⟩
  | cons c calls ih =>
    obtain ⟨heq,hbegun,hfair⟩ := safe_call hfs c s hs
    obtain ⟨hrun,hend,hall⟩ := ih hbegun
    rw [run,Engine.run_cons,heq,plain]
    refine ⟨?_,hend,fun r hr => ?_⟩
    · rw [hrun]
      rfl
    · rcases List.mem_cons.1 hr with rfl | hr
      · exact hfair
      · exact hall r hr

end Steps

end Guarded

/-- Whatever an engine is asked, and whatever comes of it, the nodes that it keeps make an access
tree. No answer is an internal error, as long as the file system of its shadow files reports
none, and none of its guards would ever stop it: a node is found where it has been put, and none
at or below a pattern comes from a shadow file of its own or goes to one. -/
theorem run_isTree (e : Engine σ) (hfs : e.shadow.Discreet) (calls : List Engine.Call) (w : σ) :
    (∀ root, (e.run calls (none,w)).2.1 = some root → root.IsTree) ∧
    (∀ cause, .error (.internal cause) ∉ (e.run calls (none,w)).1) ∧
    Guarded.run e calls (none,w) =
      ((e.run calls (none,w)).1.map (·.mapError .error),(e.run calls (none,w)).2) := by
  obtain ⟨hrun,hbegun,hfair⟩ := Guarded.safe_run hfs calls (s := (none,w)) nofun
  refine ⟨fun root hroot => ?_,fun cause hmem => hfair _ hmem cause rfl,hrun⟩
  obtain ⟨hformed,hplace⟩ := hbegun root hroot
  exact hformed.isTree hplace

/-- All that is in a home may be written by whom the home is named after, but for a private
directory, which is only read. -/
def writableHomes : Shadow :=
  .node [] [] true
    [("[a-z]+".toList,.node [("%token".toList,.of .write)] [] true []
      [("private".toList,.node [("%token".toList,.of .read)] [] false [] [])])] []

/-- A directory of such homes. -/
def homesTree : FileTree :=
  [([],.directory),(["home".toList],.directory),
    (["home".toList,aclName],.file writableHomes.toBytes)]

/-- Ann asks for the private directory of her home, and somebody makes the rule for homes once
more. -/
def homeCalls : List Engine.Call :=
  [.effective "/home/ann/private".toList "ann".toList,
    .addPattern "/home".toList "[a-z]+".toList [] true]

theorem run_isTree_memory :
    memoryEngine.shadow.Discreet ∧
    (memoryEngine.run homeCalls (none,homesTree)).1 = [.ok (.permission (.of .read)),
      .error (.config (.duplicatePattern "/home".toList "[a-z]+".toList))] ∧
    (∃ root, (memoryEngine.run homeCalls (none,homesTree)).2.1 = some root ∧ root.IsTree) ∧
    (∀ cause, .error (.internal cause) ∉ (memoryEngine.run homeCalls (none,homesTree)).1) ∧
    Guarded.run memoryEngine homeCalls (none,homesTree) =
      ((memoryEngine.run homeCalls (none,homesTree)).1.map (·.mapError .error),
        (memoryEngine.run homeCalls (none,homesTree)).2) := by
  obtain ⟨htree,hinternal,hguards⟩ :=
    run_isTree memoryEngine Memory.discreet homeCalls homesTree
  have hrun : (memoryEngine.run homeCalls (none,homesTree)).1 = [.ok (.permission (.of .read)),
        .error (.config (.duplicatePattern "/home".toList "[a-z]+".toList))] ∧
      (memoryEngine.run homeCalls (none,homesTree)).2.1.isSome = true := by
    decide +kernel
  obtain ⟨root,hroot⟩ := Option.isSome_iff_exists.1 hrun.2
  exact ⟨Memory.discreet,hrun.1,⟨root,hroot,htree root hroot⟩,hinternal,hguards⟩

end Realm.Acl
