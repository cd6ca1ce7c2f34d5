import Realm.Path
import Realm.Proofs.Action

/-! The calls that a file system answers, one after the other. -/
namespace Realm

inductive FileReply where
  | bytes (content : Bytes)
  | done
  | entries (es : List DirectoryEntry)
  | info (i : FileInfo)
  | flag (b : Bool)
deriving DecidableEq, Repr

namespace FileSystem

variable {σ : Type}

/-- What can be asked of a file system. -/
inductive Call where
  | read (path : Text)
  | write (path : Text) (content : Bytes)
  | append (path : Text) (content : Bytes)
  | makeDir (path : Text) (recursive : Bool)
  | remove (path : Text) (recursive : Bool)
  | stat (path : Text)
  | list (path : Text)
  | has (path : Text)
deriving DecidableEq, Repr

namespace Call

def run (fs : FileSystem σ) : Call → Action σ FileReply
  | read path => do
    let content ← fs.read path
    pure (.bytes content)
  | write path content => do
    fs.write path content
    pure .done
  | append path content => do
    fs.append path content
    pure .done
  | makeDir path recursive => do
    fs.makeDir path recursive
    pure .done
  | remove path recursive => do
    fs.remove path recursive
    pure .done
  | stat path => do
    let i ← fs.stat path
    pure (.info i)
  | list path => do
    let es ← fs.list path
    pure (.entries es)
  | has path => do
    let b ← fs.has path
    pure (.flag b)

theorem run_eq (fs : FileSystem σ) (call : Call) (s : σ) :
    call.run fs s =
      match call with
      | read path => ((fs.read path s).1.map .bytes,(fs.read path s).2)
      | write path content =>
        ((fs.write path content s).1.map fun _ => .done,(fs.write path content s).2)
      | append path content =>
        ((fs.append path content s).1.map fun _ => .done,(fs.append path content s).2)
      | makeDir path recursive =>
        ((fs.makeDir path recursive s).1.map fun _ => .done,(fs.makeDir path recursive s).2)
      | remove path recursive =>
        ((fs.remove path recursive s).1.map fun _ => .done,(fs.remove path recursive s).2)
      | stat path => ((fs.stat path s).1.map .info,(fs.stat path s).2)
      | list path => ((fs.list path s).1.map .entries,(fs.list path s).2)
      | has path => ((fs.has path s).1.map .flag,(fs.has path s).2) := by
  cases call <;> exact Action.bind_pure _ _ s

def onPath (f : Text → Text) : Call → Call
  | read path => read (f path)
  | write path content => write (f path) content
  | append path content => append (f path) content
  | makeDir path recursive => makeDir (f path) recursive
  | remove path recursive => remove (f path) recursive
  | stat path => stat (f path)
  | list path => list (f path)
  | has path => has (f path)

/-- Whether the top directory itself is to be removed. -/
def removesTop : Call → Bool
  | remove path _ => Path.normalize path = ['/']
  | read _ | write _ _ | append _ _ | makeDir _ _ | stat _ | list _ | has _ => false

end Call

/-- Carry out calls in their order, each whatever became of those before it. -/
def run (fs : FileSystem σ) : List Call → σ → List (Except Error FileReply) × σ
  | [], s => ([],s)
  | call :: calls, s =>
    let rest := run fs calls (call.run fs s).2
    ((call.run fs s).1 :: rest.1,rest.2)

@[simp] theorem run_cons (fs : FileSystem σ) (call : Call) (calls : List Call) (s : σ) :
    fs.run (call :: calls) s = ((call.run fs s).1 :: (fs.run calls (call.run fs s).2).1,
      (fs.run calls (call.run fs s).2).2) :=
  rfl

end FileSystem
end Realm
