import Realm.FileSystem.Tree

/-! File systems that show a directory of the host. The host's own rules say what an
operation may do: each part of the way but the last has to be a directory. -/
namespace Realm.Disk

open FileTree (Entry)

/-- The place on the host that a path leads to below `root`. Two dots go up no further than
the root. -/
def resolve (root : List Text) (path : Text) : List Text :=
  ((Path.parts path).foldl
    (fun (place,depth) part =>
      if part = Path.up then
        match depth with
        | 0 => (place,0)
        | depth + 1 => (place.dropLast,depth)
      else (place ++ [part],depth + 1))
    (root,0)).1

def fail {α : Type} (e : HostError) : Action FileTree α :=
  throw (.file (.host e))

/-- What keeps a place from being reached, going down from the top: a part of the way that
is missing, or one that is a file. -/
def obstacle? (t : FileTree) (place : List Text) : Option HostError :=
  (FileTree.wayTo place.dropLast).findSome? fun p =>
    match t.at? p with
    | some .directory => none
    | some (.file _) => some .notADirectory
    | none => some .noSuchFile

def find (place : List Text) : Action FileTree (Option Entry) := do
  let t ← get
  match obstacle? t place with
  | some e => fail e
  | none => pure (t.at? place)

/-- What a place holds, which must not be nothing. -/
def require (place : List Text) : Action FileTree Entry := do
  match ← find place with
  | some e => pure e
  | none => fail .noSuchFile

def readAt (place : List Text) : Action FileTree Bytes := do
  match ← require place with
  | .file content => pure content
  | .directory => fail .isADirectory

/-- Change what a file holds; a missing file holds nothing. -/
def changeAt (place : List Text) (change : Bytes → Bytes) : Action FileTree Unit := do
  match ← find place with
  | some .directory => fail .isADirectory
  | some (.file content) => modify (·.insert place (Entry.file (change content)))
  | none => modify (·.insert place (Entry.file (change [])))

def makeDirAt (place : List Text) : Action FileTree Unit := do
  match ← find place with
  | some _ => fail .fileExists
  | none => modify (·.insert place Entry.directory)

/-- Make a directory and those above it, as far as they are missing. -/
def makeWayTo (place : List Text) : Action FileTree Unit := do
  let t ← get
  match obstacle? t place, t.at? place with
  | some .notADirectory, _ => fail .notADirectory
  | none, some (.file _) => fail .fileExists
  | _, _ =>
    let missing := (FileTree.wayTo place).filter fun p => !t.contains p
    set (missing.foldl (fun t p => t.insert p Entry.directory) t)

def removeAt (place : List Text) (recursive : Bool) : Action FileTree Unit := do
  match ← require place with
  | .file _ => modify (·.erase place)
  | .directory => do
    let t ← get
    if !(t.below place).isEmpty && !recursive then fail .directoryNotEmpty
    else set (t.prune place)

def listAt (place : List Text) : Action FileTree (List DirectoryEntry) := do
  match ← require place with
  | .file _ => fail .notADirectory
  | .directory => do
    let t ← get
    pure (t.children place)

/-- Whether a place holds something. A file on the way to it is an error. -/
def hasAt (place : List Text) : Action FileTree Bool := do
  let t ← get
  match obstacle? t place with
  | some .noSuchFile => pure false
  | some e => fail e
  | none => pure (t.contains place)

/-- A directory of the host, and whether its files may only be looked at. -/
structure Config where
  root : List Text
  readOnly : Bool

/-- Refuse what changes a file system that may only be looked at. -/
def guarded (c : Config) (step : Action FileTree Unit) : Action FileTree Unit :=
  if c.readOnly then throw (.file .readOnly) else step

/-- The file system of a directory of the host. -/
def fileSystem (c : Config) : FileSystem FileTree where
  read path := readAt (resolve c.root path)
  write path content := guarded c (changeAt (resolve c.root path) fun _ => content)
  append path content := guarded c (changeAt (resolve c.root path) (· ++ content))
  makeDir path recursive :=
    guarded c ((if recursive then makeWayTo else makeDirAt) (resolve c.root path))
  remove path recursive :=
    guarded c
      (if resolve c.root path = c.root then throw (.file .cannotRemoveRoot)
      else removeAt (resolve c.root path) recursive)
  stat path := do
    let e ← require (resolve c.root path)
    pure e.info
  list path := listAt (resolve c.root path)
  has path := hasAt (resolve c.root path)

end Realm.Disk
