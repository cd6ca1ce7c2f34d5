import Realm.Error
import Realm.Text.Utf8

/-! File systems as the operations that they offer on some state. What an operation does to
the state stays done when it ends in an error. -/
namespace Realm

/-- A step on a state, with a result or an error. -/
abbrev Action (σ α : Type) := ExceptT Error (StateM σ) α

inductive FileInfo where
  | file (size : Nat)
  | directory
deriving DecidableEq, Repr

def FileInfo.isDirectory : FileInfo → Bool
  | directory => true
  | file _ => false

structure DirectoryEntry where
  name : Text
  info : FileInfo
deriving DecidableEq, Repr

/-- The operations of a file system. Their paths start at its own top. -/
structure FileSystem (σ : Type) where
  read : Text → Action σ Bytes
  /-- Replace what a file holds. -/
  write : Text → Bytes → Action σ Unit
  append : Text → Bytes → Action σ Unit
  /-- Make a directory, and those above it if `recursive`. -/
  makeDir : Text → (recursive : Bool) → Action σ Unit
  /-- Remove a file or directory, and what lies below it if `recursive`. -/
  remove : Text → (recursive : Bool) → Action σ Unit
  stat : Text → Action σ FileInfo
  /-- The entries of a directory in ascending order of their names. -/
  list : Text → Action σ (List DirectoryEntry)
  has : Text → Action σ Bool

/-- A part of a state. -/
structure Slot (σ τ : Type) where
  get : σ → τ
  set : τ → σ → σ

namespace Slot

variable {σ τ α : Type}

/-- A part that can be looked at and replaced independently of the rest. -/
structure Lawful (s : Slot σ τ) : Prop where
  get_set : ∀ t w, s.get (s.set t w) = t
  set_get : ∀ w, s.set (s.get w) w = w
  set_set : ∀ t u w, s.set t (s.set u w) = s.set t w

def run (s : Slot σ τ) (step : Action τ α) : Action σ α := fun w =>
  let (r,t) := step (s.get w)
  (r,s.set t w)

/-- A step on a part and the whole together; what it makes of the part counts. -/
def runBeside (s : Slot σ τ) (step : Action (τ × σ) α) : Action σ α := fun w =>
  let (r,(t,w)) := step (s.get w,w)
  (r,s.set t w)

end Slot

def FileSystem.within {σ τ : Type} (s : Slot σ τ) (fs : FileSystem τ) : FileSystem σ where
  read path := s.run (fs.read path)
  write path content := s.run (fs.write path content)
  append path content := s.run (fs.append path content)
  makeDir path recursive := s.run (fs.makeDir path recursive)
  remove path recursive := s.run (fs.remove path recursive)
  stat path := s.run (fs.stat path)
  list path := s.run (fs.list path)
  has path := s.run (fs.has path)

inductive FileSystem.Operation where
  | read
  | write
  | append
  | makeDir
  | remove
  | stat
  | list
  | has
deriving DecidableEq, Repr

namespace FileSystem

def Operation.all : List Operation :=
  [.read,.write,.append,.makeDir,.remove,.stat,.list,.has]

def Operation.name : Operation → Text
  | read => "read_file".toList
  | write => "write_file".toList
  | append => "append_file".toList
  | makeDir => "mkdir".toList
  | remove => "remove".toList
  | stat => "stat".toList
  | list => "read_dir".toList
  | has => "exists".toList

/-- A file system that does something else before each operation, and leaves the operation
out if that ends in an error. -/
def watched {σ : Type} (watch : Operation → Text → Action σ Unit) (fs : FileSystem σ) :
    FileSystem σ where
  read path := do watch .read path; fs.read path
  write path content := do watch .write path; fs.write path content
  append path content := do watch .append path; fs.append path content
  makeDir path recursive := do watch .makeDir path; fs.makeDir path recursive
  remove path recursive := do watch .remove path; fs.remove path recursive
  stat path := do watch .stat path; fs.stat path
  list path := do watch .list path; fs.list path
  has path := do watch .has path; fs.has path

end FileSystem
end Realm
