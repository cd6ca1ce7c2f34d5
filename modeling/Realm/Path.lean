import Realm.Text

/-! Virtual paths: texts of segments separated by slashes, rooted at the top of the
world's file tree. They are normalized by their spelling alone; nothing here looks at a
file system. -/
namespace Realm.Path

/-- The segments named by a text, with empty ones left out. -/
def pieces (path : Text) : List Text :=
  (Text.splitOn '/' path).filter (· ≠ [])

/-- The parts of a text that lead somewhere: names, and two dots for the way up. -/
def parts (path : Text) : List Text :=
  (pieces path).filter (· ≠ ['.'])

/-- Two dots lead to the directory above. -/
def up : Text := ['.','.']

/-- Extend a trail of segments, innermost first, by one part of a path: a dot stays,
two dots go up and stop at the top, anything else goes down. -/
def step (trail : List Text) (part : Text) : List Text :=
  if part = [] ∨ part = ['.'] then trail
  else if part = ['.','.'] then trail.tail
  else part :: trail

/-- The segments that a path leads through from the top. -/
def segments (path : Text) : List Text :=
  ((Text.splitOn '/' path).foldl step []).reverse

def ofSegments (segs : List Text) : Text :=
  if segs = [] then ['/'] else segs.flatMap ('/' :: ·)

/-- The absolute path with the same segments and no dots or doubled slashes. -/
def normalize (path : Text) : Text :=
  ofSegments (segments path)

def isAbsolute (path : Text) : Bool :=
  path.head? == some '/'

/-- Read a path relative to a working directory. -/
def resolve (cwd path : Text) : Text :=
  if isAbsolute path then normalize path else normalize (cwd ++ '/' :: path)

/-- The directory that holds a normal path; the top holds itself. -/
def parent (path : Text) : Text :=
  match Text.splitLast? '/' path with
  | some (c :: before,_) => c :: before
  | _ => ['/']

/-- The last segment of a normal path, empty for the top. -/
def fileName (path : Text) : Text :=
  match Text.splitLast? '/' path with
  | some (_,name) => name
  | none => path

/-- Whether `path` is `top` or lies beneath it. -/
def isWithin (path top : Text) : Bool :=
  top = ['/'] ||
    match Text.stripPrefix? top path with
    | some [] => true
    | some (c :: _) => c = '/'
    | none => false

def child (directory name : Text) : Text :=
  if directory = ['/'] then '/' :: name else directory ++ '/' :: name

/-- A path in normal form: the slash alone, or slashes each followed by a segment that
is neither empty nor made of one or two dots. -/
def IsNormal (path : Text) : Prop :=
  ∃ segs : List Text, path = ofSegments segs ∧
    ∀ s ∈ segs, s ≠ [] ∧ s ≠ ['.'] ∧ s ≠ ['.','.'] ∧ '/' ∉ s

end Realm.Path
