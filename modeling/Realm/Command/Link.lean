import Realm.Command
import Realm.Error

/-! Commands and the operators between them, made into a tree. A pipe binds tightest, then
the operators that depend on success, then the sequence. -/
namespace Realm.CommandTree

/-- A command with the operator that follows it. -/
abbrev Link := Command × Option Operator

def splitAfter {α : Type} (ends : α → Bool) : List α → List (List α)
  | [] => []
  | a :: as =>
    if ends a then [a] :: splitAfter ends as
    else
      match splitAfter ends as with
      | [] => [[a]]
      | group :: groups => (a :: group) :: groups

@[simp] theorem flatten_splitAfter {α : Type} (ends : α → Bool) (as : List α) :
    (splitAfter ends as).flatten = as := by
  induction as with
  | nil => rfl
  | cons a as ih =>
    simp only [splitAfter]
    split
    · simp [ih]
    · split
      · next h => simp [h] at ih; simp [← ih]
      · next h => simp [h] at ih; simp [← ih]

/-- A command that has been given the operator after it, and what that lets flow on. -/
structure Stage where
  command : Command
  operator : Option Operator
  pipeTarget : Option PipeTarget

def Stage.ofLink (l : Link) : Stage :=
  ⟨l.1,l.2,l.2.bind Operator.pipeTarget?⟩

/-- The stages of a pipeline, each the successor of the one before. The last of them leads
elsewhere, so that nothing flows on from it. -/
def ofPipeline : List Stage → Option CommandTree → Option CommandTree
  | [], _ => none
  | [last], successor => some (.node last.command last.operator none [] none successor)
  | s :: stages, successor =>
    some (.node s.command s.operator s.pipeTarget [] none (ofPipeline stages successor))

/-- Let other pipelines depend on the first command of a tree. -/
def anchor (conditions : List CommandTree) (alternate : Option CommandTree) :
    CommandTree → CommandTree
  | .node c o p _ _ successor => .node c o p conditions alternate successor

/-- Pipelines that depend on success: the first command of all holds the others as its
conditions. -/
def ofPipelines (pipelines : List (List Stage)) (alternate successor : Option CommandTree) :
    Option CommandTree :=
  match pipelines with
  | [] => none
  | first :: conditions =>
    (ofPipeline first successor).map (anchor (conditions.filterMap (ofPipeline · none)) alternate)

/-- Alternatives: each is what to run when the one before it fails. Only the first leads
on to what comes after the list. -/
def ofAlternatives : List (List Stage) → Option CommandTree → Option CommandTree
  | [], _ => none
  | segment :: segments, successor =>
    ofPipelines (splitAfter (·.operator = some .and) segment) (ofAlternatives segments none)
      successor

def ofLists : List (List Stage) → Option CommandTree
  | [] => none
  | list :: lists => ofAlternatives (splitAfter (·.operator = some .or) list) (ofLists lists)

/-- Whether an operator leaves the commands before it complete. -/
def endsList : Option Operator → Bool
  | none | some .sequence => true
  | some _ => false

/-- The tree of commands with their operators. Every command but the last must have an
operator, and the last may have one only if nothing need follow it. -/
def link (links : List Link) : Except Error (Option CommandTree) :=
  if links.dropLast.any (·.2 = none) then .error (.internal .operatorMissing)
  else if links.getLast?.any (!endsList ·.2) then .error (.internal .operatorAtEnd)
  else .ok (ofLists (splitAfter (·.operator = some .sequence) (links.map .ofLink)))

end Realm.CommandTree
