import Realm.Text.Quoted

/-! What can be wrong with a JSON document that is read as a value of a known shape, and
how it is told. -/
namespace Realm.Json

/-- The first thing wrong with a document, read from left to right. -/
inductive Reason where
  | endOfValue
  | endOfString
  | endOfArray
  | endOfObject
  | valueExpected
  | wordExpected
  | colonExpected
  | itemEndExpected
  | memberEndExpected
  | nameExpected
  | trailingComma
  | trailingText
  | invalidNumber
  | numberTooLarge
  | invalidEscape
  | controlCharacter
  /-- A unit of 16 bits that is half of a character, without the other half. -/
  | loneUnit
  | unfinishedUnit
  /-- A string with bytes that are no character. -/
  | invalidText
  | tooDeep
  /-- A value of another shape. -/
  | unexpected (found expected : Text)
  /-- An integer that is too small or too large. -/
  | outOfBounds (n : Int) (expected : Text)
  | missingField (name : Text)
  | duplicateField (name : Text)
  | wrongLength (length : Nat) (expected : Text)
  | unknownPermissionBits (bits : Nat)
deriving DecidableEq, Repr

inductive Reason.Kind where
  /-- The document ends too early. -/
  | ended
  /-- It is not JSON. -/
  | malformed
  /-- A part of it has the wrong shape. -/
  | mismatch
deriving DecidableEq, Repr

namespace Reason

def kind : Reason → Kind
  | endOfValue | endOfString | endOfArray | endOfObject => .ended
  | unexpected _ _ | outOfBounds _ _ | missingField _ | duplicateField _ | wrongLength _ _
  | unknownPermissionBits _ => .mismatch
  | _ => .malformed

def graves (t : Text) : Text :=
  '\x60' :: t ++ ['\x60']

def message : Reason → Text
  | endOfValue => "EOF while parsing a value".toList
  | endOfString => "EOF while parsing a string".toList
  | endOfArray => "EOF while parsing a list".toList
  | endOfObject => "EOF while parsing an object".toList
  | valueExpected => "expected value".toList
  | wordExpected => "expected ident".toList
  | colonExpected => "expected ".toList ++ graves [':']
  | itemEndExpected => "expected ".toList ++ graves [','] ++ " or ".toList ++ graves [']']
  | memberEndExpected => "expected ".toList ++ graves [','] ++ " or ".toList ++ graves ['\x7d']
  | nameExpected => "key must be a string".toList
  | trailingComma => "trailing comma".toList
  | trailingText => "trailing characters".toList
  | invalidNumber => "invalid number".toList
  | numberTooLarge => "number out of range".toList
  | invalidEscape => "invalid escape".toList
  | controlCharacter =>
    "control character (\\u0000-\\u001F) found while parsing a string".toList
  | loneUnit => "lone leading surrogate in hex escape".toList
  | unfinishedUnit => "unexpected end of hex escape".toList
  | invalidText => "invalid unicode code point".toList
  | tooDeep => "recursion limit exceeded".toList
  | unexpected found expected =>
    "invalid type: ".toList ++ found ++ ", expected ".toList ++ expected
  | outOfBounds n expected =>
    "invalid value: integer ".toList ++ graves (Text.ofInt n) ++ ", expected ".toList ++ expected
  | missingField name => "missing field ".toList ++ graves name
  | duplicateField name => "duplicate field ".toList ++ graves name
  | wrongLength n expected =>
    "invalid length ".toList ++ Text.ofNat n ++ ", expected ".toList ++ expected
  | unknownPermissionBits bits => "invalid permission bits 0x".toList ++ Text.hex bits

end Reason

/-- Something wrong, and the place up to which the document had been read: a line, counted
from one, and the bytes before the place in this line. -/
structure Fault where
  reason : Reason
  line : Nat
  column : Nat
deriving DecidableEq, Repr

def Fault.message (f : Fault) : Text :=
  f.reason.message ++ " at line ".toList ++ Text.ofNat f.line ++ " column ".toList ++
    Text.ofNat f.column

end Realm.Json
