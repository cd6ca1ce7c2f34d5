import Realm.Acl.Engine

/-! Security managers: who may do what with the files of a mount. -/
namespace Realm

inductive FileAction where
  | read
  | write
  | append
  | makeDirectory
  | deleteFile
  | deleteDirectory
  | list
  | stat
  /-- Read a file as the source of an object of the game. -/
  | load
deriving DecidableEq, Repr

namespace FileAction

def name : FileAction → Text
  | read => "read".toList
  | write => "write".toList
  | append => "append".toList
  | makeDirectory => "mkdir".toList
  | deleteFile => "delete".toList
  | deleteDirectory => "rmdir".toList
  | list => "list".toList
  | stat => "stat".toList
  | load => "load".toList

def isWrite : FileAction → Bool
  | write | append | makeDirectory | deleteFile | deleteDirectory => true
  | read | list | stat | load => false

end FileAction

/-- A place in a mount: its path in the world and its path on the mounted file system. -/
structure Target where
  fullPath : Text
  relativePath : Text
deriving DecidableEq, Repr

structure SecurityManager (σ : Type) where
  /-- Whether an identity may do something at a place. -/
  allows : (identity : Text) → FileAction → Target → Action σ Bool
  /-- Whether a path is left out of the listings that an identity sees. -/
  isHidden : (identity fullPath : Text) → Action σ Bool := fun _ _ => pure false

namespace SecurityManager

variable {σ : Type}

/-- Everything is allowed, or everything that changes nothing. -/
def permissive (readOnly : Bool) : SecurityManager σ where
  allows _ action _ := pure !(readOnly && action.isWrite)

/-- An action is allowed to who has the capability that it takes: on the path, or, to make
something new, on the directory that holds it. -/
def ofEngine (e : Acl.Engine σ) (cache : Slot σ Acl.Cache) : SecurityManager σ where
  allows identity action target :=
    let check (path : Text) (c : Capability) : Action σ Bool :=
      cache.runBeside (e.check path identity (Permission.of c))
    let path := target.fullPath
    match action with
    | .read | .list | .stat => check path .read
    | .write | .append => do
      if ← check path .write then pure true else check (Path.parent path) .createFile
    | .makeDirectory => check (Path.parent path) .createDirectory
    | .deleteFile => check path .write
    | .deleteDirectory => check path .deleteDirectory
    | .load => check path .load
  isHidden identity path :=
    cache.runBeside (e.check path identity (Permission.of .hidden))

end SecurityManager
end Realm
