import Realm.FileSystem.Tree

/-! File systems in memory. Each operation looks at the places that it needs and changes
the tree in one step, so that a refused operation leaves it as it was. -/
namespace Realm.Memory

open FileTree (Entry)

/-- The place that a path leads to: two dots leave the directory entered last, and stay at
the top. -/
def locate (path : Text) : List Text :=
  (Path.parts path).foldl
    (fun place part => if part = Path.up then place.dropLast else place ++ [part]) []

def fail {α : Type} (e : FileError) : Action FileTree α :=
  throw (.file e)

def notFound (place : List Text) : FileError :=
  .notFound (Path.ofSegments place)

/-- Whether the directory that is to hold a place is missing. The top needs none. -/
def lacksParent (t : FileTree) (place : List Text) : Bool :=
  place ≠ [] && !t.isDirectory place.dropLast

def read (path : Text) : Action FileTree Bytes := do
  let t ← get
  match t.at? (locate path) with
  | some (.file content) => pure content
  | some .directory => fail .isDirectory
  | none => fail (notFound (locate path))

def writeAt (place : List Text) (content : Bytes) : Action FileTree Unit := do
  let t ← get
  if lacksParent t place then fail .parentNotFound
  else if t.isDirectory place then fail .isDirectory
  else set (t.insert place (Entry.file content))

def write (path : Text) (content : Bytes) : Action FileTree Unit :=
  writeAt (locate path) content

def append (path : Text) (content : Bytes) : Action FileTree Unit := do
  let t ← get
  match t.at? (locate path) with
  | some (.file old) => set (t.insert (locate path) (Entry.file (old ++ content)))
  | some .directory => fail .isDirectory
  | none => writeAt (locate path) content

/-- Make the directories on the way from a place down through some names, as far as they
are missing. -/
def makeWay (place : List Text) : List Text → Action FileTree Unit
  | [] => pure ()
  | name :: names => do
    let place := place ++ [name]
    let t ← get
    match t.at? place with
    | some .directory => makeWay place names
    | some (.file _) => fail .notDirectory
    | none => do
      set (t.insert place Entry.directory)
      makeWay place names

def makeDir (path : Text) (recursive : Bool) : Action FileTree Unit := do
  let place := locate path
  if recursive then makeWay [] place
  else do
    let t ← get
    if lacksParent t place then fail .parentNotFound
    else if t.contains place then fail .directoryExists
    else set (t.insert place Entry.directory)

def remove (path : Text) (recursive : Bool) : Action FileTree Unit := do
  let place := locate path
  let t ← get
  match t.at? place with
  | some .directory =>
    if !(t.below place).isEmpty && !recursive then fail .directoryNotEmpty
    else set (t.prune place)
  | some (.file _) => set (t.erase place)
  | none => fail (notFound place)

def stat (path : Text) : Action FileTree FileInfo := do
  let t ← get
  match t.at? (locate path) with
  | some e => pure e.info
  | none => fail (notFound (locate path))

def list (path : Text) : Action FileTree (List DirectoryEntry) := do
  let t ← get
  match t.at? (locate path) with
  | some .directory => pure (t.children (locate path))
  | some (.file _) => fail .notDirectory
  | none => fail (notFound (locate path))

def has (path : Text) : Action FileTree Bool := do
  let t ← get
  pure (t.contains (locate path))

def fileSystem : FileSystem FileTree where
  read := read
  write := write
  append := append
  makeDir := makeDir
  remove := remove
  stat := stat
  list := list
  has := has

end Realm.Memory
