import Realm.Token

/-! Commands: a verb, its arguments and the tokens that they come from; and the trees that
operators make of several commands. -/
namespace Realm

/-- An operator that joins a command to what follows it. -/
inductive Operator where
  /-- One after the other. -/
  | sequence
  /-- The next if this succeeds. -/
  | and
  /-- The next if this fails. -/
  | or
  /-- The output of this is the input of the next. -/
  | pipe
  /-- The output and the messages of this are the input of the next. -/
  | pipeAll
deriving DecidableEq, Repr

namespace Operator

def text : Operator → Text
  | .sequence => [';']
  | .and => ['&','&']
  | .or => ['|','|']
  | .pipe => ['|']
  | .pipeAll => ['|','&']

def ofText? (t : Text) : Option Operator :=
  [sequence,.and,.or,.pipe,.pipeAll].find? (·.text = t)

@[simp] theorem ofText?_text (o : Operator) : ofText? o.text = some o := by
  cases o <;> decide

def isPipe : Operator → Bool
  | .pipe | .pipeAll => true
  | _ => false

end Operator

/-- What flows into the next stage of a pipeline. -/
inductive PipeTarget where
  | output
  | outputAndMessages
deriving DecidableEq, Repr

/-- What flows out of a command that is followed by this operator. -/
def Operator.pipeTarget? : Operator → Option PipeTarget
  | .pipe => some .output
  | .pipeAll => some .outputAndMessages
  | _ => none

namespace Redirect

inductive Kind where
  | input
  | output
  | append
deriving DecidableEq, Repr

def Kind.text : Kind → Text
  | .input => ['<']
  | .output => ['>']
  | .append => ['>','>']

def Kind.ofText? (t : Text) : Option Kind :=
  [input,.output,.append].find? (·.text = t)

@[simp] theorem Kind.ofText?_text (k : Kind) : ofText? k.text = some k := by
  cases k <;> decide

end Redirect

structure Redirect where
  kind : Redirect.Kind
  target : Text
deriving DecidableEq, Repr

/-- How a command was classified when its verb was read. -/
inductive Command.Kind where
  /-- A verb of the game without a grammar of its own. -/
  | game
  /-- A verb that brings its own grammar. -/
  | shell
  /-- A line that begins with a variable. -/
  | expression
deriving DecidableEq, Repr

/-- One command of a line. -/
structure Command where
  verb : Text
  args : List Text
  /-- The tokens from the verb on. -/
  tokens : List Token
  kind : Command.Kind
  redirects : List Redirect
  /-- Places in `args` of unquoted file expressions. -/
  globArgs : List Nat
deriving DecidableEq, Repr

namespace Command

def opened (verb : Token) (kind : Kind) : Command where
  verb := verb.rawText
  args := []
  tokens := [verb]
  kind := kind
  redirects := []
  globArgs := []

def isAlias (c : Command) : Bool :=
  match c.tokens with
  | token :: _ => token.kind = .alias
  | [] => false

end Command

/-- Commands joined by operators. -/
inductive CommandTree where
  /-- A command, the operator after it, what flows into the successor if that is a stage of
  the same pipeline, the pipelines to run after it while each succeeds, what to run if one
  fails, and the successor: the next stage of the pipeline, or what comes after the whole
  list. -/
  | node (command : Command) (operator : Option Operator) (pipeTarget : Option PipeTarget)
    (conditions : List CommandTree) (alternate : Option CommandTree)
    (successor : Option CommandTree)

namespace CommandTree

def command : CommandTree → Command
  | .node c _ _ _ _ _ => c

def operator : CommandTree → Option Operator
  | .node _ o _ _ _ _ => o

def pipeTarget : CommandTree → Option PipeTarget
  | .node _ _ p _ _ _ => p

def conditions : CommandTree → List CommandTree
  | .node _ _ _ cs _ _ => cs

def alternate : CommandTree → Option CommandTree
  | .node _ _ _ _ a _ => a

def successor : CommandTree → Option CommandTree
  | .node _ _ _ _ _ s => s

mutual

/-- All commands of the tree: each before its conditions, these before the alternate, and
that before the successor. -/
def walk : CommandTree → List Command
  | .node c _ _ conditions alternate successor =>
    c :: walkAll conditions ++ walkOpt alternate ++ walkOpt successor

def walkAll : List CommandTree → List Command
  | [] => []
  | t :: ts => walk t ++ walkAll ts

def walkOpt : Option CommandTree → List Command
  | none => []
  | some t => walk t

end

mutual

def map (f : Command → Command) : CommandTree → CommandTree
  | .node c o p conditions alternate successor =>
    .node (f c) o p (mapAll f conditions) (mapOpt f alternate) (mapOpt f successor)

def mapAll (f : Command → Command) : List CommandTree → List CommandTree
  | [] => []
  | t :: ts => map f t :: mapAll f ts

def mapOpt (f : Command → Command) : Option CommandTree → Option CommandTree
  | none => none
  | some t => some (map f t)

end

end CommandTree
end Realm
