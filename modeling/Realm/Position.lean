import Realm.Text

/-! Places in a line of input, as shown to the one who typed it. -/
namespace Realm

/-- A place in a text: line and column count characters from one, the offset counts
bytes from zero. -/
structure Position where
  line : Nat
  column : Nat
  offset : Nat
deriving DecidableEq, Repr

namespace Position

def start : Position := ⟨1,1,0⟩

def advance (p : Position) (c : Char) : Position :=
  if c = '\n' then ⟨p.line + 1,1,p.offset + c.utf8Size⟩
  else ⟨p.line,p.column + 1,p.offset + c.utf8Size⟩

/-- Advance over the text until the offset is reached or the text ends. -/
def seek (offset : Nat) : Position → Text → Position
  | p, [] => p
  | p, c :: t => if offset ≤ p.offset then p else seek offset (p.advance c) t

/-- The place of a byte offset; an offset past the end stands for the end. -/
def ofOffset (source : Text) (offset : Nat) : Position :=
  seek offset start source

def display (p : Position) : Text :=
  Text.ofNat p.line ++ ':' :: Text.ofNat p.column

end Position
end Realm
