import Realm.Text

/-! Blank characters (the Unicode property White_Space) and the words between them. -/
namespace Realm.Text

/-- A character with the property White_Space. -/
def isBlank (c : Char) : Bool :=
  let n := c.toNat
  (9 ≤ n && n ≤ 13) || n == 0x20 || n == 0x85 || n == 0xa0 || n == 0x1680 ||
    (0x2000 ≤ n && n ≤ 0x200a) || n == 0x2028 || n == 0x2029 || n == 0x202f ||
    n == 0x205f || n == 0x3000

def isAllBlank (t : Text) : Bool :=
  t.all isBlank

def trimStart (t : Text) : Text :=
  t.dropWhile isBlank

/-- The maximal runs of characters that are not blank, in order. -/
def words (t : Text) : List Text :=
  (splitWhere isBlank t).filter (· ≠ [])

end Realm.Text
