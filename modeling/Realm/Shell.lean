import Realm.Command.Parser
import Realm.Expansion
import Realm.Text.Blank

/-! Sessions: what a player's lines mean, one after the other. A session decides nothing but
the meaning; to run commands is up to the caller. -/
namespace Realm

inductive Input where
  /-- Blanks only. -/
  | empty
  /-- The line goes on. -/
  | incomplete
  /-- The expanded line is to be shown and not run. -/
  | printOnly (line : Text)
  | command (tree : CommandTree)

/-- The session of a player. -/
structure Shell (σ : Type) where
  /-- What error messages begin with. -/
  name : Text := "mudsh".toList
  /-- On whose behalf files are looked at. -/
  identity : Text := "guest".toList
  options : Options σ := {}
  settings : Settings := fun _ => none
  /-- How many lines are remembered. -/
  maxHistory : Nat := 100
  /-- Lines that wait for another one. -/
  pending : Option Text := none
  lastSubstitution : Option History.Substitution := none

namespace Shell

variable {σ : Type}

def isContinuing (s : Shell σ) : Bool :=
  s.pending.isSome

/-- What is read when a line comes in: the line behind those that wait for it. -/
def textFor (s : Shell σ) (line : Text) : Text :=
  match s.pending with
  | some pending => pending ++ '\n' :: line
  | none => line

/-- A history with one more line, without the oldest ones if it has grown too long. -/
def remember (max : Nat) (history : List Text) (line : Text) : List Text :=
  let history := history ++ [line]
  history.drop (history.length - max)

/-- The session after a line that has been understood. Blank lines are not remembered. -/
def accept (s : Shell σ) (parsed : ParsedLine) : Shell σ :=
  { s with
    pending := none
    lastSubstitution := parsed.lastSubstitution.or s.lastSubstitution
    options := { s.options with
      history :=
        if Text.isAllBlank parsed.expanded then s.options.history
        else remember s.maxHistory s.options.history parsed.expanded } }

def inputOf (parsed : ParsedLine) : Input :=
  if parsed.printOnly then .printOnly parsed.expanded
  else
    match parsed.tree with
    | some tree => .command tree
    | none => .empty

/-- Take in a line. An error leaves nothing behind but the loss of lines that waited. -/
def process (s : Shell σ) (line : Text) : StateM σ (Except Error Input × Shell σ) := do
  let text := s.textFor line
  match ← parseLine text s.options s.settings s.lastSubstitution with
  | .ok parsed => pure (.ok (inputOf parsed),s.accept parsed)
  | .error .incomplete => pure (.ok .incomplete,{ s with pending := some text })
  | .error e => pure (.error e,{ s with pending := none })

def cancel (s : Shell σ) : Shell σ :=
  { s with pending := none }

def setVariable (s : Shell σ) (name : Text) (value : Variable σ) : Shell σ :=
  { s with options := { s.options with environment := s.options.environment.insert name value } }

/-- Remove a variable; the result is what it was. -/
def unsetVariable (s : Shell σ) (name : Text) : Option (Variable σ) × Shell σ :=
  (s.options.environment.get? name,
    { s with options := { s.options with environment := s.options.environment.erase name } })

def setAlias (s : Shell σ) (name template : Text) : Shell σ :=
  { s with options := { s.options with aliases := s.options.aliases.insert name template } }

def removeAlias (s : Shell σ) (name : Text) : Option Text × Shell σ :=
  (s.options.aliases.get? name,
    { s with options := { s.options with aliases := s.options.aliases.erase name } })

def setCwd (s : Shell σ) (path : Text) : Shell σ :=
  { s with options := { s.options with cwd := Path.resolve s.options.cwd path } }

/-- Expand the file expressions of a command on behalf of the player. -/
def expandFileExpressions (s : Shell σ) (m : FileManager σ) (t : CommandTree) :
    Action σ CommandTree :=
  Expansion.expand m s.identity s.options.cwd t

def formatError (s : Shell σ) (e : Error) : Text :=
  s.name ++ ':' :: ' ' :: e.message

end Shell
end Realm
