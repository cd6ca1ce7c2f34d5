import Realm.Table
import Realm.Text

/-! JSON values and how they are written: on one line, or with each entry on a line of its
own. -/
namespace Realm

/-- A JSON value. The members of an object stand in the order in which they are written. -/
inductive Json where
  | null
  | bool (b : Bool)
  | number (n : Int)
  /-- A number that is no integer of 64 bits, by its spelling. -/
  | real (spelling : Text)
  | string (t : Text)
  | array (items : List Json)
  | object (members : List (Text × Json))

namespace Json

/-- How a value is laid out. -/
inductive Layout where
  /-- On one line, without blanks. -/
  | compact
  /-- Each entry on a line of its own, two columns further in than what it belongs to. -/
  | pretty

def Layout.lineBreak : Layout → Nat → Text
  | compact, _ => []
  | pretty, depth => '\n' :: List.replicate (2 * depth) ' '

def Layout.close {α : Type} (layout : Layout) (depth : Nat) (entries : List α) : Text :=
  if entries.isEmpty then [] else layout.lineBreak depth

def Layout.colon : Layout → Text
  | compact => [':']
  | pretty => [':',' ']

def hexDigit (n : Nat) : Char :=
  if n < 10 then Char.ofNat (n + '0'.toNat) else Char.ofNat (n - 10 + 'a'.toNat)

def shortEscapes : List (Char × Char) :=
  [('"','"'),('\\','\\'),('\x08','b'),('\x0c','f'),('\n','n'),('\r','r'),('\t','t')]

/-- One character of a string. Controls, quotes and backslashes are escaped. -/
def escape (c : Char) : Text :=
  match shortEscapes.lookup c with
  | some letter => ['\\',letter]
  | none =>
    if c.toNat < 0x20 then
      ['\\','u','0','0',hexDigit (c.toNat / 16),hexDigit (c.toNat % 16)]
    else [c]

def quote (t : Text) : Text :=
  '"' :: t.flatMap escape ++ ['"']

mutual

def writeAt (layout : Layout) (depth : Nat) : Json → Text
  | .null => "null".toList
  | .bool true => "true".toList
  | .bool false => "false".toList
  | .number n => Text.ofInt n
  | .real spelling => spelling
  | .string t => quote t
  | .array items =>
    '[' :: writeItems layout (depth + 1) items ++ layout.close depth items ++ [']']
  | .object members =>
    '\x7b' :: writeMembers layout (depth + 1) members ++ layout.close depth members ++ ['\x7d']

/-- The items of an array with what stands before and between them. -/
def writeItems (layout : Layout) (depth : Nat) : List Json → Text
  | [] => []
  | [v] => layout.lineBreak depth ++ writeAt layout depth v
  | v :: vs =>
    layout.lineBreak depth ++ writeAt layout depth v ++ ',' :: writeItems layout depth vs

/-- The members of an object with what stands before and between them. -/
def writeMembers (layout : Layout) (depth : Nat) : List (Text × Json) → Text
  | [] => []
  | [(k,v)] => layout.lineBreak depth ++ quote k ++ layout.colon ++ writeAt layout depth v
  | (k,v) :: ms =>
    layout.lineBreak depth ++ quote k ++ layout.colon ++ writeAt layout depth v ++
      ',' :: writeMembers layout depth ms

end

def compact (v : Json) : Text :=
  writeAt .compact 0 v

def pretty (v : Json) : Text :=
  writeAt .pretty 0 v

def get? (name : Text) : Json → Option Json
  | .object members => Table.get? name members
  | _ => none

def string? : Json → Option Text
  | .string t => some t
  | _ => none

def bool? : Json → Option Bool
  | .bool b => some b
  | _ => none

end Json
end Realm
