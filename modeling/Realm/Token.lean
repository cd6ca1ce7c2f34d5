import Realm.Text

/-! Tokens of a command line, with the bytes of the line that each one covers. -/
namespace Realm

inductive Token.Kind where
  /-- A run of characters without a meaning of their own. -/
  | word
  /-- A number that no word character follows. -/
  | numeric
  /-- A run of blanks. -/
  | blank
  /-- A joining operator, a redirection, or `=` in an expression. -/
  | operator
  /-- A quoted string; its value leaves out the quotes. -/
  | string
  /-- A variable; its value is the bare name. -/
  | variable
  /-- A verb that names an alias. -/
  | alias
  /-- A history reference; its value is the text it stands for. -/
  | history
  /-- A quick substitution, after which the line was begun afresh. -/
  | substitution
  /-- A member of the variable before it; its value leaves out the dot. -/
  | member
  /-- A command in grave accents; its value is what stands between them. -/
  | backtick
deriving DecidableEq, Repr

/-- The text that a token's offsets point into: the line, or text that a history
reference brought in. -/
inductive Token.Source where
  | input
  | history
deriving DecidableEq, Repr

/-- A lexical unit and its place. -/
structure Token where
  kind : Token.Kind
  value : Text
  source : Token.Source
  /-- Offset in bytes of the first character. -/
  start : Nat
  /-- Offset in bytes just past the last character. -/
  stop : Nat
  /-- The file that a redirection leads to. -/
  redirectTarget : Option Text
deriving DecidableEq, Repr

namespace Token

def isOperator (t : Token) (text : Text) : Bool :=
  t.kind = .operator && t.value = text

def isVerb (t : Token) : Bool :=
  match t.kind with
  | .word | .numeric | .alias | .variable | .string => true
  | _ => false

def isWordLike (t : Token) : Bool :=
  match t.kind with
  | .word | .numeric | .string | .variable | .member | .backtick | .alias => true
  | _ => false

/-- The token with its mark put back; quotes stay off. -/
def rawText (t : Token) : Text :=
  match t.kind with
  | .variable => '$' :: t.value
  | .member => '.' :: t.value
  | .backtick => '\x60' :: t.value ++ ['\x60']
  | _ => t.value

end Token
end Realm
