import Realm.Text.Blank
import Realm.Text.CaseFold
import Realm.Text.Class

/-! Sets of characters as patterns write them. -/
namespace Realm.Pattern

inductive CharClass where
  | digit
  | word
  | space
  | asciiAlnum
  | asciiAlpha
  | ascii
  | asciiBlank
  | asciiCntrl
  | asciiDigit
  | asciiGraph
  | asciiLower
  | asciiPrint
  | asciiPunct
  | asciiSpace
  | asciiUpper
  | asciiWord
  | asciiXdigit
deriving DecidableEq, Repr

def CharClass.holds (k : CharClass) (c : Char) : Bool :=
  let n := c.toNat
  match k with
  | digit => Text.isDecimalDigit c
  | word => Text.isWordChar c
  | space => Text.isBlank c
  | asciiAlnum => c.isAlphanum
  | asciiAlpha => c.isAlpha
  | ascii => n ≤ 0x7f
  | asciiBlank => c = ' ' || c = '\t'
  | asciiCntrl => n < 0x20 || n = 0x7f
  | asciiDigit => c.isDigit
  | asciiGraph => 0x21 ≤ n && n ≤ 0x7e
  | asciiLower => c.isLower
  | asciiPrint => 0x20 ≤ n && n ≤ 0x7e
  | asciiPunct => 0x21 ≤ n && n ≤ 0x7e && !c.isAlphanum
  | asciiSpace => c = ' ' || (9 ≤ n && n ≤ 13)
  | asciiUpper => c.isUpper
  | asciiWord => c.isAlphanum || c = '_'
  | asciiXdigit => c.isDigit || ('a' ≤ c && c ≤ 'f') || ('A' ≤ c && c ≤ 'F')

def CharClass.ofName? (name : Text) : Option CharClass :=
  [("alnum",asciiAlnum),("alpha",asciiAlpha),("ascii",ascii),("blank",asciiBlank),
    ("cntrl",asciiCntrl),("digit",asciiDigit),("graph",asciiGraph),("lower",asciiLower),
    ("print",asciiPrint),("punct",asciiPunct),("space",asciiSpace),("upper",asciiUpper),
    ("word",asciiWord),("xdigit",asciiXdigit)].findSome? fun e =>
      if e.1.toList = name then some e.2 else none

inductive CharSet where
  | none
  | char (c : Char)
  /-- The characters from one to another in the order of their numbers. -/
  | range (first last : Char)
  | named (k : CharClass)
  | compl (s : CharSet)
  | union (s t : CharSet)
  | inter (s t : CharSet)
  | diff (s t : CharSet)
  | symmDiff (s t : CharSet)
  /-- The characters that differ at most in case from one in the set. -/
  | anyCase (s : CharSet)
  /-- Those of ASCII that do, with the set itself. -/
  | anyAsciiCase (s : CharSet)
deriving DecidableEq, Repr

namespace CharSet

def holds : CharSet → Char → Bool
  | none, _ => false
  | char d, c => c = d
  | range a b, c => a ≤ c && c ≤ b
  | named k, c => k.holds c
  | compl s, c => !s.holds c
  | union s t, c => s.holds c || t.holds c
  | inter s t, c => s.holds c && t.holds c
  | diff s t, c => s.holds c && !t.holds c
  | symmDiff s t, c => s.holds c != t.holds c
  | anyCase s, c => (Text.caseVariants c).any s.holds
  | anyAsciiCase s, c => s.holds c || s.holds c.toLower || s.holds c.toUpper

/-- Whether a set is one of ASCII characters, as far as its form shows. -/
def isAscii : CharSet → Bool
  | none => true
  | char c => CharClass.ascii.holds c
  | range _ last => CharClass.ascii.holds last
  | named k => k ∉ [.digit,.word,.space]
  | compl _ => false
  | union s t | inter s t | diff s t | symmDiff s t => s.isAscii && t.isAscii
  | anyCase s | anyAsciiCase s => s.isAscii

def except (c : Char) : CharSet :=
  compl (char c)

def all : CharSet :=
  compl none

end CharSet
end Realm.Pattern
