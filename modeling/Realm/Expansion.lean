import Realm.Command.Compile
import Realm.FileManager
import Realm.Glob
import Realm.Pattern.Search

/-! Expansion of file expressions. Directories are listed through the file manager, so that
nobody finds a name that he may not see. An expression that matches nothing stays as it is
written. -/
namespace Realm.Expansion

variable {σ : Type}

/-- A place that matches the first segments of an expression: its path, and how it is shown
to the player. -/
structure Candidate where
  path : Text
  shown : Text
deriving DecidableEq, Repr

def joinShown (absolute : Bool) (shown name : Text) : Text :=
  if shown.isEmpty && !absolute then name else shown ++ '/' :: name

/-- The entries of a directory that an identity may list; none where there is nothing to be
listed. -/
def listing (m : FileManager σ) (identity path : Text) : Action σ (List DirectoryEntry) :=
  fun w =>
    match m.list identity path w with
    | (.ok (.granted entries),w) => (.ok entries,w)
    | (.ok (.denied _ _),w) | (.error (.file _),w) | (.error (.noMount _),w) => (.ok [],w)
    | (.error e,w) => (.error e,w)

/-- Whether an entry can stand for a segment: a name with a dot in front matches only if the
segment has one too, and all but the last have to be directories. -/
def fits (segment : Text) (p : Pattern) (last : Bool) (e : DirectoryEntry) : Bool :=
  (e.name.head? ≠ some '.' || segment.head? = some '.') && p.isMatch e.name &&
    (last || e.info.isDirectory)

def extend (m : FileManager σ) (identity : Text) (absolute : Bool)
    (good : DirectoryEntry → Bool) : List Candidate → Action σ (List Candidate)
  | [] => pure []
  | c :: cs => do
    let entries ← listing m identity c.path
    let found := (entries.filter good).map fun e =>
      ⟨Path.child c.path e.name,joinShown absolute c.shown e.name⟩
    let rest ← extend m identity absolute good cs
    pure (found ++ rest)

def follow (m : FileManager σ) (identity : Text) (absolute : Bool) :
    List Text → List Candidate → Action σ (List Candidate)
  | [], cs => pure cs
  | segment :: segments, cs =>
    if hasGlob segment then
      match Glob.compile segment with
      | .error e => throw e
      | .ok p => do
        let next ← extend m identity absolute (fits segment p segments.isEmpty) cs
        if next.isEmpty then pure [] else follow m identity absolute segments next
    else
      follow m identity absolute segments
        (cs.map fun c => ⟨Path.resolve c.path segment,joinShown absolute c.shown segment⟩)

def sort (ts : List Text) : List Text :=
  ts.mergeSort fun a b => !decide (b < a)

/-- The names that match an expression, in ascending order. They are relative if the
expression is. -/
def glob (m : FileManager σ) (identity cwd pattern : Text) : Action σ (List Text) := do
  let absolute := Path.isAbsolute pattern
  let start := if absolute then ['/'] else Path.normalize cwd
  let segments := Path.pieces pattern
  let found ← follow m identity absolute segments [⟨start,[]⟩]
  pure (if segments.any hasGlob then sort (found.map (·.shown)) else [])

/-- The arguments of a command that are to be expanded. -/
def patternsOf (c : Command) : List Text :=
  c.globArgs.filterMap (c.args[·]?)

/-- The elements of a list without those that have occurred before. -/
def distinct (seen : List Text) : List Text → List Text
  | [] => []
  | t :: ts => if t ∈ seen then distinct seen ts else t :: distinct (t :: seen) ts

/-- The matches of each of some expressions, of those that have any. -/
def globAll (m : FileManager σ) (identity cwd : Text) :
    List Text → Action σ (List (Text × List Text))
  | [] => pure []
  | p :: ps => do
    let found ← glob m identity cwd p
    let rest ← globAll m identity cwd ps
    pure (if found.isEmpty then rest else (p,found) :: rest)

def splice (found : List (Text × List Text)) (c : Command) : Command :=
  { c with
    args := c.args.zipIdx.flatMap fun (arg,i) =>
      if i ∈ c.globArgs then (found.lookup arg).getD [arg] else [arg]
    globArgs := [] }

/-- Expand the file expressions in all commands of a tree. -/
def expand (m : FileManager σ) (identity cwd : Text) (t : CommandTree) :
    Action σ CommandTree := do
  let patterns := distinct [] (t.walk.flatMap patternsOf)
  if patterns.isEmpty then pure t
  else
    let found ← globAll m identity cwd patterns
    pure (t.map (splice found))

end Realm.Expansion
