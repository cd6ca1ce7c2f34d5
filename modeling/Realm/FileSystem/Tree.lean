import Realm.FileSystem
import Realm.Path
import Realm.Table

/-! File trees as tables: each file and directory under the segments of its path. -/
namespace Realm

inductive FileTree.Entry where
  | file (content : Bytes)
  | directory
deriving DecidableEq, Repr

/-- The files and directories of a tree by the segments that lead to them. -/
abbrev FileTree := Table (List Text) FileTree.Entry

namespace FileTree

def Entry.info : Entry → FileInfo
  | file content => .file content.length
  | directory => .directory

def empty : FileTree :=
  [([],.directory)]

def at? (t : FileTree) (place : List Text) : Option Entry :=
  Table.get? place t

def isDirectory (t : FileTree) (place : List Text) : Bool :=
  t.at? place = some .directory

/-- The places on the way from the top down to a place, both included. -/
def wayTo : List Text → List (List Text)
  | [] => [[]]
  | name :: names => [] :: (wayTo names).map (name :: ·)

/-- Whether one place is above another. -/
def isAbove (top place : List Text) : Bool :=
  top.isPrefixOf place && place ≠ top

def children (t : FileTree) (place : List Text) : List DirectoryEntry :=
  t.filterMap fun (p,e) =>
    match p.getLast? with
    | some name => if p.dropLast = place then some ⟨name,e.info⟩ else none
    | none => none

def below (t : FileTree) (place : List Text) : List (List Text) :=
  t.keys.filter (isAbove place)

def prune (place : List Text) (t : FileTree) : FileTree :=
  t.filter fun e => e.1 ≠ place && !isAbove place e.1

end FileTree
end Realm
