import Realm.Error
import Realm.Table
import Realm.Text.Class

/-! What a session allows in its command lines, and what it remembers between them. -/
namespace Realm

/-- Which part of a line is searched for history references. -/
inductive HistoryLevel where
  | off
  /-- Only a reference that begins the line. -/
  | lineStart
  /-- References anywhere, and quick substitution. -/
  | full
deriving DecidableEq, Repr

def HistoryLevel.toNat : HistoryLevel → Nat
  | .off => 0
  | .lineStart => 1
  | .full => 2

def HistoryLevel.ofNat? : Nat → Except Error HistoryLevel
  | 0 => .ok .off
  | 1 => .ok .lineStart
  | 2 => .ok .full
  | n => .error (.config (.historyLevel n))

@[simp] theorem HistoryLevel.ofNat?_toNat (level : HistoryLevel) :
    ofNat? level.toNat = .ok level := by
  cases level <;> rfl

/-- The features of the line grammar that are switched on. -/
structure Grammar where
  /-- A backslash takes away the meaning of the next character. -/
  allowEscaping : Bool := true
  /-- Redirections. -/
  allowFileAccess : Bool := true
  /-- Quoted strings. -/
  allowQuoting : Bool := true
  /-- Pipelines and lists of commands. -/
  allowPipelining : Bool := true
  /-- A backslash at the end asks for another line. -/
  allowLineSpanning : Bool := true
  /-- A leading word that names an alias is expanded. -/
  expandAliases : Bool := true
  /-- Commands in grave accents. -/
  expandBackticks : Bool := true
  /-- Variable references are recognized. -/
  expandEnvironment : Bool := true
  /-- Unquoted file expressions are matched against directories. -/
  expandFileExpressions : Bool := false
  /-- Variable references are replaced by values. -/
  expandVariables : Bool := true
  historyLevel : HistoryLevel := .full
deriving DecidableEq, Repr

/-- The grammar of plain game verbs: words, aliases and history, and nothing else. -/
def Grammar.restricted : Grammar where
  allowEscaping := false
  allowFileAccess := false
  allowQuoting := false
  allowPipelining := false
  allowLineSpanning := false
  expandBackticks := false
  expandEnvironment := false
  expandFileExpressions := false
  expandVariables := false

/-- A shell variable: a plain text, or a text worked out from the state of the world, and
perhaps changing it, each time the variable is used. -/
inductive Variable (σ : Type) where
  | plain (value : Text)
  | computed (value : StateM σ Text)

def Variable.resolve {σ : Type} : Variable σ → StateM σ Text
  | .plain value => pure value
  | .computed value => value

/-- The grammar of a session with its aliases, history, variables and place. -/
structure Options (σ : Type) extends Grammar where
  aliases : Table Text Text := []
  /-- Earlier lines, oldest first. -/
  history : List Text := []
  environment : Table Text (Variable σ) := []
  cwd : Text := ['/']

/-- The grammars of verbs that bring their own. -/
abbrev Settings := Text → Option Grammar

namespace Options

variable {σ : Type}

/-- Read a verb's arguments by the verb's own grammar; the session's memory stays. -/
def forCommand (session : Options σ) (command : Grammar) : Options σ :=
  { session with toGrammar := command }

def historyEnabled (o : Options σ) : Bool :=
  o.historyLevel ≠ .off && !o.history.isEmpty

/-- The template of an alias named by one character that is neither letter nor number. -/
def charAlias? (o : Options σ) (c : Char) : Option Text :=
  if o.expandAliases && !Text.isAlphanumeric c then o.aliases.get? [c] else none

def valueOf (o : Options σ) (name : Text) : StateM σ Text :=
  match o.environment.get? name with
  | some v => v.resolve
  | none => pure []

end Options
end Realm
