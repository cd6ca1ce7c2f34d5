import Realm.Security

/-! The file manager: file systems mounted in one tree of paths. Every operation finds the
mount of its path, asks the mount's security manager, and only then touches the mount's
file system. -/
namespace Realm

/-- The outcome of an operation that has to be allowed first. -/
inductive Access (α : Type) where
  | granted (value : α)
  | denied (action : FileAction) (path : Text)
deriving DecidableEq, Repr

def Access.toResult {α : Type} : Access α → Except Error α
  | granted value => .ok value
  | denied action path => .error (.permissionDenied action.name path)

structure Mount (σ : Type) where
  fileSystem : FileSystem σ
  security : SecurityManager σ

structure Request (σ : Type) extends Target where
  mount : Mount σ

/-- The mounts by the normal paths at which they are. -/
structure FileManager (σ : Type) where
  mounts : Table Text (Mount σ) := []

namespace FileManager

variable {σ α : Type}

/-- A file manager without mounts. There may be only one at a time. -/
def new (oneExists : Bool) : Except Error (FileManager σ) :=
  if oneExists then .error (.config .managerExists) else .ok {}

/-- Mount a file system at a path that is not taken. -/
def mount (m : FileManager σ) (path : Text) (mounted : Mount σ) :
    Except Error (FileManager σ) :=
  let path := Path.normalize path
  if Table.contains path m.mounts then .error (.config (.alreadyMounted path))
  else .ok ⟨Table.insert path mounted m.mounts⟩

def unmount (m : FileManager σ) (path : Text) : Except Error (FileManager σ) :=
  let path := Path.normalize path
  if Table.contains path m.mounts then .ok ⟨Table.erase path m.mounts⟩
  else .error (.config (.notMounted path))

def mountPoints (m : FileManager σ) : List Text :=
  Table.keys m.mounts

/-- The longer of two mounts, the later of two that are equally long. -/
def longer (best : Option (Text × Mount σ)) (next : Text × Mount σ) : Option (Text × Mount σ) :=
  match best with
  | some b => if next.1.length < b.1.length then some b else some next
  | none => some next

/-- The mount with the longest path at or above a normal path. -/
def mountOf (m : FileManager σ) (path : Text) : Option (Text × Mount σ) :=
  (m.mounts.filter fun e => Path.isWithin path e.1).foldl longer none

/-- Find the mount of a path and the path on it. -/
def request (m : FileManager σ) (path : Text) : Except Error (Request σ) :=
  let path := Path.normalize path
  match m.mountOf path with
  | none => .error (.noMount path)
  | some (top,mount) =>
    let relative := if top = ['/'] then path else Path.normalize (path.drop top.length)
    .ok { fullPath := path, relativePath := relative, mount }

/-- Do something at a path on behalf of an identity, if it is allowed. -/
def perform (m : FileManager σ) (identity : Text) (action : FileAction) (path : Text)
    (operation : Request σ → Action σ α) : Action σ (Access α) := do
  match m.request path with
  | .error e => throw e
  | .ok r => do
    if ← r.mount.security.allows identity action r.toTarget then
      let value ← operation r
      pure (.granted value)
    else pure (.denied action r.fullPath)

def read (m : FileManager σ) (identity path : Text) : Action σ (Access Bytes) :=
  m.perform identity .read path fun r => r.mount.fileSystem.read r.relativePath

def write (m : FileManager σ) (identity path : Text) (content : Bytes) :
    Action σ (Access Unit) :=
  m.perform identity .write path fun r => r.mount.fileSystem.write r.relativePath content

def append (m : FileManager σ) (identity path : Text) (content : Bytes) :
    Action σ (Access Unit) :=
  m.perform identity .append path fun r => r.mount.fileSystem.append r.relativePath content

def makeDirectory (m : FileManager σ) (identity path : Text) : Action σ (Access Unit) :=
  m.perform identity .makeDirectory path fun r =>
    r.mount.fileSystem.makeDir r.relativePath false

/-- Delete a file, and no directory. -/
def deleteFile (m : FileManager σ) (identity path : Text) : Action σ (Access Unit) :=
  m.perform identity .deleteFile path fun r => do
    let info ← r.mount.fileSystem.stat r.relativePath
    if info.isDirectory then throw (.file (.pathIsDirectory r.fullPath))
    else r.mount.fileSystem.remove r.relativePath false

/-- Delete a directory, and no file. -/
def deleteDirectory (m : FileManager σ) (identity path : Text) (recursive : Bool) :
    Action σ (Access Unit) :=
  m.perform identity .deleteDirectory path fun r => do
    let info ← r.mount.fileSystem.stat r.relativePath
    if info.isDirectory then r.mount.fileSystem.remove r.relativePath recursive
    else throw (.file (.pathNotDirectory r.fullPath))

/-- Those of the entries of a directory that an identity may see. -/
def visible (security : SecurityManager σ) (identity directory : Text) :
    List DirectoryEntry → Action σ (List DirectoryEntry)
  | [] => pure []
  | e :: es => do
    let hidden ← security.isHidden identity (Path.child directory e.name)
    let rest ← visible security identity directory es
    pure (if hidden then rest else e :: rest)

/-- The entries of a directory, without those that are hidden from the identity. -/
def list (m : FileManager σ) (identity path : Text) :
    Action σ (Access (List DirectoryEntry)) :=
  m.perform identity .list path fun r => do
    let entries ← r.mount.fileSystem.list r.relativePath
    visible r.mount.security identity r.fullPath entries

def stat (m : FileManager σ) (identity path : Text) : Action σ (Access FileInfo) :=
  m.perform identity .stat path fun r => r.mount.fileSystem.stat r.relativePath

/-- Whether there is something at a path, for who may look at it. -/
def has (m : FileManager σ) (identity path : Text) : Action σ (Access Bool) :=
  m.perform identity .stat path fun r => r.mount.fileSystem.has r.relativePath

def load (m : FileManager σ) (identity path : Text) : Action σ (Access Bytes) :=
  m.perform identity .load path fun r => r.mount.fileSystem.read r.relativePath

end FileManager
end Realm
