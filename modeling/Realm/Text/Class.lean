import Realm.Text.Alphabetic
import Realm.Text.Numeral
import Realm.Text.Mark

/-! Classes of characters put together from Unicode properties. -/
namespace Realm.Text

def isAlphanumeric (c : Char) : Bool :=
  isAlphabetic c || isDecimalDigit c || isOtherNumber c

/-- Punctuation that joins the parts of a word, such as the low line. -/
def isConnector (c : Char) : Bool :=
  c == '_' || [0x203f,0x2040,0x2054,0xfe33,0xfe34,0xfe4d,0xfe4e,0xfe4f,0xff3f].contains c.toNat

/-- A character that may stand inside a word: a letter, a mark, a decimal digit, a
connector or a joiner. -/
def isWordChar (c : Char) : Bool :=
  isAlphabetic c || isMark c || isDecimalDigit c || isConnector c ||
    c.toNat == 0x200c || c.toNat == 0x200d

def isNameStart (c : Char) : Bool :=
  c.isAlpha || c == '_'

def isNameChar (c : Char) : Bool :=
  c.isAlphanum || c == '_'

def isControl (c : Char) : Bool :=
  c.toNat < 0x20 || (0x7f ≤ c.toNat && c.toNat < 0xa0)

end Realm.Text
