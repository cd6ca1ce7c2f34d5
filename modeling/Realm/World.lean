import Realm.Acl.Engine
import Realm.FileSystem.Disk
import Realm.FileSystem.Memory
import Realm.Options

/-! The state outside of a single session: what changes when a command is read or a file
is touched. -/
namespace Realm

structure World where
  /-- Values that go up by one each time they are asked for. -/
  counters : List Int := []
  /-- The trees of the file systems in memory. -/
  volumes : List FileTree := []
  /-- The files of the host. -/
  host : FileTree := FileTree.empty
  /-- The directory at which relative paths on the host start. -/
  directory : List Text := []
  /-- What the access engines keep. -/
  caches : List Acl.Cache := []
  /-- Notes on what happened, the oldest first. -/
  journal : List Text := []
  /-- The operations that file systems are to refuse, by the numbers of the file systems. -/
  refusals : Table Nat (List FileSystem.Operation) := []

namespace World

def tick (i : Nat) : StateM World Text := fun w =>
  (Text.ofInt (w.counters[i]?.getD 0),{ w with counters := w.counters.modify i (· + 1) })

def volume (i : Nat) : Slot World FileTree where
  get w := w.volumes[i]?.getD []
  set t w := { w with volumes := w.volumes.set i t }

def hostFiles : Slot World FileTree where
  get w := w.host
  set t w := { w with host := t }

theorem hostFiles_lawful : hostFiles.Lawful :=
  ⟨fun _ _ => rfl,fun _ => rfl,fun _ _ _ => rfl⟩

def cache (i : Nat) : Slot World Acl.Cache where
  get w := w.caches[i]?.getD none
  set c w := { w with caches := w.caches.set i c }

def note (text : Text) : Action World Unit :=
  modify fun w => { w with journal := w.journal ++ [text] }

/-- Watch a file system: each operation is noted if `noted`, under a number, and refused if
it is among those that this file system is to refuse. -/
def watched (number : Nat) (noted : Bool) (fs : FileSystem World) : FileSystem World :=
  fs.watched fun operation path => do
    if noted then
      note ("fs".toList ++ Text.ofNat number ++ ' ' :: operation.name ++ ' ' :: path)
    let w ← get
    if operation ∈ (Table.get? number w.refusals).getD [] then
      throw (.file (.reported ("injected ".toList ++ operation.name)))

def newVolume : StateM World (FileSystem World) := do
  let w ← get
  set { w with volumes := w.volumes ++ [FileTree.empty] }
  pure (Memory.fileSystem.within (volume w.volumes.length))

def newCache : StateM World (Slot World Acl.Cache) := do
  let w ← get
  set { w with caches := w.caches ++ [none] }
  pure (cache w.caches.length)

def hostPlace (w : World) (path : Text) : List Text :=
  Path.segments (Path.resolve (Path.ofSegments w.directory) path)

def disk (root : List Text) (readOnly : Bool) : FileSystem World :=
  (Disk.fileSystem ⟨root,readOnly⟩).within hostFiles

end World
end Realm
