import Realm.Text

/-! Program arguments: flags, options with values and operands, in any order. The first
argument that fits nowhere ends the reading. -/
namespace Realm.CommandLine

inductive Refusal where
  /-- The arguments make no sense. -/
  | usage
  | help
  | version
deriving DecidableEq, Repr

structure Signature where
  flags : List Text := []
  /-- Options with a value that are given at most once. -/
  single : List Text := []
  /-- Options with a value that are given any number of times. -/
  repeated : List Text := []
  /-- Those of the options whose value is a path, which cannot be empty. -/
  paths : List Text := []
  /-- How many operands there may be. -/
  operands : Nat := 0

structure Arguments where
  flags : List Text := []
  /-- Options with their values in the order in which they are given. -/
  values : List (Text × Text) := []
  operands : List Text := []

inductive Argument where
  /-- Two hyphens: all that follows is operands. -/
  | separator
  /-- A name behind two hyphens, perhaps with a value behind an equals sign. -/
  | long (name : Text) (value : Option Text)
  /-- Letters behind one hyphen. -/
  | short (letters : Text)
  | operand (text : Text)

namespace Argument

def classify : Text → Argument
  | ['-','-'] => separator
  | '-' :: '-' :: name =>
    match Text.splitFirst? '=' name with
    | some (name,value) => long name (some value)
    | none => long name none
  | '-' :: c :: letters => short (c :: letters)
  | text => operand text

def isValue (text : Text) : Bool :=
  match classify text with
  | operand _ => true
  | _ => false

end Argument

namespace Signature

def addFlag (s : Signature) (a : Arguments) (name : Text) : Except Refusal Arguments :=
  if name ∈ s.flags ∧ name ∉ a.flags then .ok { a with flags := a.flags ++ [name] }
  else .error .usage

def addValue (s : Signature) (a : Arguments) (name value : Text) : Except Refusal Arguments :=
  let taken := name ∈ s.single ∧ name ∈ a.values.map (·.1)
  if taken ∨ (name ∈ s.paths ∧ value = []) then .error .usage
  else .ok { a with values := a.values ++ [(name,value)] }

def addOperand (s : Signature) (a : Arguments) (text : Text) : Except Refusal Arguments :=
  if a.operands.length < s.operands then .ok { a with operands := a.operands ++ [text] }
  else .error .usage

def readFrom (s : Signature) (a : Arguments) : List Text → Except Refusal Arguments
  | [] => .ok a
  | argument :: rest =>
    match Argument.classify argument with
    | .separator => rest.foldlM s.addOperand a
    | .short ('h' :: _) => .error .help
    | .short _ => .error .usage
    | .operand text => do
      let a ← s.addOperand a text
      readFrom s a rest
    | .long name value =>
      if name = "help".toList ∧ value = none then .error .help
      else if name ∈ s.single ++ s.repeated then
        match value, rest with
        | some value, rest => do
          let a ← s.addValue a name value
          readFrom s a rest
        | none, value :: rest => do
          if Argument.isValue value then
            let a ← s.addValue a name value
            readFrom s a rest
          else .error .usage
        | none, [] => .error .usage
      else
        match value with
        | some _ => .error .usage
        | none => do
          let a ← s.addFlag a name
          readFrom s a rest

def read (s : Signature) (arguments : List Text) : Except Refusal Arguments :=
  s.readFrom {} arguments

end Signature

namespace Arguments

def has (a : Arguments) (flag : String) : Bool :=
  flag.toList ∈ a.flags

def all (a : Arguments) (name : String) : List Text :=
  (a.values.filter (·.1 = name.toList)).map (·.2)

def value? (a : Arguments) (name : String) : Option Text :=
  (a.all name).head?

def require (a : Arguments) (name : String) : Except Refusal Text :=
  match a.value? name with
  | some v => .ok v
  | none => .error .usage

def operand (a : Arguments) : Except Refusal Text :=
  match a.operands with
  | [t] => .ok t
  | _ => .error .usage

end Arguments
end Realm.CommandLine
