import Realm.Acl.Engine
import Realm.Proofs.Action
import Realm.Proofs.Path

/-! The calls that an access engine answers, one after the other. -/
namespace Realm.Acl

variable {σ : Type}

/-- What can be asked of an engine. -/
inductive Engine.Call where
  | effective (path identity : Text)
  | setPermissions (dir key : Text) (p : Permission)
  | setInherits (dir : Text) (on : Bool)
  | addPattern (dir pattern : Text) (permissions : Grants) (inherits : Bool)
  | touchFile (file : Text)
  | setFilePermissions (file key : Text) (p : Permission)
  | setFileInherits (file : Text) (on : Bool)
  | describe (dir : Text)
  | clearCache

instance instDecidableEqExcept {ε α : Type} [DecidableEq ε] [DecidableEq α] :
    DecidableEq (Except ε α)
  | .ok a,.ok b => decidable_of_iff (a = b) ⟨congrArg _,Except.ok.inj⟩
  | .error e,.error e' => decidable_of_iff (e = e') ⟨congrArg _,Except.error.inj⟩
  | .ok _,.error _ => .isFalse fun h => by cases h
  | .error _,.ok _ => .isFalse fun h => by cases h

/-- What an engine answers. -/
inductive Engine.Answer where
  | done
  | permission (p : Permission)
  | created (b : Bool)
  | text (t : Text)
deriving DecidableEq, Repr

namespace Engine

def Call.run (e : Engine σ) : Call → Action (Cache × σ) Answer
  | effective path identity => do
    let p ← e.effective path identity
    pure (.permission p)
  | setPermissions dir key p => do
    let _ ← e.update dir (.grant key p)
    pure .done
  | setInherits dir on => do
    let _ ← e.update dir (.inherit on)
    pure .done
  | addPattern dir pattern permissions inherits => do
    let _ ← e.update dir (.addPattern pattern permissions inherits)
    pure .done
  | touchFile file => do
    let b ← e.touchFile file
    pure (.created b)
  | setFilePermissions file key p => do
    let _ ← e.updateFile file (.grantFile · key p)
    pure .done
  | setFileInherits file on => do
    let _ ← e.updateFile file (.inheritFile · on)
    pure .done
  | describe dir => do
    let t ← e.describe dir
    pure (.text t)
  | clearCache => do
    Engine.clearCache
    pure .done

/-- Carry out calls in their order, each whatever became of those before it. -/
def run (e : Engine σ) : List Call → Cache × σ → List (Except Error Answer) × (Cache × σ)
  | [], s => ([],s)
  | call :: calls, s =>
    let rest := run e calls (call.run e s).2
    ((call.run e s).1 :: rest.1,rest.2)

@[simp] theorem run_cons (e : Engine σ) (call : Call) (calls : List Call) (s : Cache × σ) :
    e.run (call :: calls) s = ((call.run e s).1 :: (e.run calls (call.run e s).2).1,
      (e.run calls (call.run e s).2).2) :=
  rfl

theorem run_append (e : Engine σ) (calls calls' : List Call) (s : Cache × σ) :
    e.run (calls ++ calls') s =
      ((e.run calls s).1 ++ (e.run calls' (e.run calls s).2).1,(e.run calls' (e.run calls s).2).2) := by
  induction calls generalizing s with
  | nil => rfl
  | cons call calls ih =>
    simp only [List.cons_append,run_cons,ih]

/-- The directory whose rules a call is to change, and the change. Whoever changes the rules of
a file has to name one. -/
def Call.change? : Call → Option (Except Error (Text × Change))
  | setPermissions dir key p => some (.ok (dir,.grant key p))
  | setInherits dir on => some (.ok (dir,.inherit on))
  | addPattern dir pattern permissions inherits =>
    some (.ok (dir,.addPattern pattern permissions inherits))
  | touchFile file => some ((splitFile file).map fun p => (p.1,.touch p.2))
  | setFilePermissions file key p =>
    some ((splitFile file).map fun f => (f.1,.grantFile f.2 key p))
  | setFileInherits file on => some ((splitFile file).map fun f => (f.1,.inheritFile f.2 on))
  | effective _ _ | describe _ | clearCache => none

theorem segments_of_splitFile {file dir name : Text}
    (h : splitFile file = .ok (dir,name)) :
    Path.segments file = Path.segments dir ++ [name] := by
  have hnames := Path.areNames_segments file
  rw [splitFile,Path.normalize] at h
  rcases List.eq_nil_or_concat (Path.segments file) with hnil | ⟨segs,last,hsegs⟩
  · rw [hnil] at h
    cases h
  · rw [List.concat_eq_append] at hsegs
    rw [hsegs] at hnames h ⊢
    have hlast := hnames last (by simp)
    rw [Path.fileName_ofSegments hlast.2.2.2,Path.parent_ofSegments hlast.2.2.2] at h
    split at h
    · cases h
    · cases h
      rw [Path.segments_ofSegments hnames.of_append.1]

def attempt (e : Engine σ) : Except Error (Text × Change) → Action (Cache × σ) Node
  | .error err => throw err
  | .ok (dir,c) => e.update dir c

theorem updateFile_eq (e : Engine σ) (file : Text) (c : Text → Change) :
    e.updateFile file c = e.attempt ((splitFile file).map fun f => (f.1,c f.2)) := by
  rw [updateFile]
  cases splitFile file <;> rfl

theorem Call.run_change {call : Call} {r : Except Error (Text × Change)}
    (h : call.change? = some r) (e : Engine σ) (s : Cache × σ) :
    ∃ f : Node → Answer, call.run e s = ((e.attempt r s).1.map f,(e.attempt r s).2) := by
  cases call with
  | setPermissions | setInherits | addPattern =>
    cases h
    exact ⟨fun _ => .done,Action.bind_pure _ _ s⟩
  | touchFile file =>
    cases h
    refine ⟨fun n => .created (!Table.contains (Path.fileName (Path.normalize file)) n.files),?_⟩
    show (e.touchFile file >>= fun b => pure (Answer.created b)) s = _
    rw [Action.bind_pure,Engine.touchFile,Action.bind_pure,← updateFile_eq e file .touch]
    cases (e.updateFile file .touch s).1 <;> rfl
  | setFilePermissions file key p =>
    cases h
    rw [← updateFile_eq e file (.grantFile · key p)]
    exact ⟨fun _ => .done,Action.bind_pure _ _ s⟩
  | setFileInherits file on =>
    cases h
    rw [← updateFile_eq e file (.inheritFile · on)]
    exact ⟨fun _ => .done,Action.bind_pure _ _ s⟩
  | effective | describe | clearCache => cases h

@[simp] theorem Call.run_effective (e : Engine σ) (path identity : Text) (s : Cache × σ) :
    (effective path identity).run e s =
      ((e.effective path identity s).1.map .permission,(e.effective path identity s).2) :=
  Action.bind_pure _ _ s

@[simp] theorem Call.run_describe (e : Engine σ) (dir : Text) (s : Cache × σ) :
    (describe dir).run e s = ((e.describe dir s).1.map .text,(e.describe dir s).2) :=
  Action.bind_pure _ _ s

def Call.path : Call → Text
  | effective path _ => path
  | setPermissions dir _ _ | setInherits dir _ | addPattern dir _ _ _ | describe dir => dir
  | touchFile file | setFilePermissions file _ _ | setFileInherits file _ => file
  | clearCache => ['/']

end Engine

end Realm.Acl
