import Realm.Text

/-! Text as bytes. What is read need not be text: a byte that belongs to no character is
kept as such, and what follows it is read on. Main statement: the bytes of a text read
back as the text. -/
namespace Realm

abbrev Bytes := List UInt8

namespace Text

def encodeChar (c : Char) : Bytes :=
  let n := c.toNat
  let tail (k : Nat) : UInt8 := UInt8.ofNat (0x80 + n / k % 64)
  if n < 0x80 then [UInt8.ofNat n]
  else if n < 0x800 then [UInt8.ofNat (0xC0 + n / 64),tail 1]
  else if n < 0x10000 then [UInt8.ofNat (0xE0 + n / 0x1000),tail 64,tail 1]
  else [UInt8.ofNat (0xF0 + n / 0x40000),tail 0x1000,tail 64,tail 1]

def encode (t : Text) : Bytes :=
  t.flatMap encodeChar

/-- The number that the bytes at the front would stand for, were they a character. -/
def leadingNumber (bytes : Bytes) : Nat :=
  let lead := (bytes.headD 0).toNat
  let tail (i : Nat) : Nat := (bytes.getD i 0).toNat - 0x80
  if lead < 0x80 then lead
  else if lead < 0xE0 then (lead - 0xC0) * 64 + tail 1
  else if lead < 0xF0 then (lead - 0xE0) * 0x1000 + tail 1 * 64 + tail 2
  else (lead - 0xF0) * 0x40000 + tail 1 * 0x1000 + tail 2 * 64 + tail 3

/-- The character at the front of some bytes, if they begin with the bytes of one. -/
def leadingChar? (bytes : Bytes) : Option Char :=
  let c := Char.ofNat (leadingNumber bytes)
  if (encodeChar c).isPrefixOf bytes then some c else none

/-- The characters that bytes stand for, after `skip` bytes that are already read; none in
place of a byte of no character. -/
def symbolsFrom : Nat → Bytes → List (Option Char)
  | _, [] => []
  | skip + 1, _ :: bytes => symbolsFrom skip bytes
  | 0, b :: bytes =>
    match leadingChar? (b :: bytes) with
    | some c => some c :: symbolsFrom ((encodeChar c).length - 1) bytes
    | none => none :: symbolsFrom 0 bytes

/-- The characters that bytes stand for, none in place of a byte of no character. -/
def symbols (bytes : Bytes) : List (Option Char) :=
  symbolsFrom 0 bytes

/-- The text that bytes stand for, if all of them belong to characters. -/
def decode? (bytes : Bytes) : Option Text :=
  (symbols bytes).mapM id

theorem encodeChar_ne_nil (c : Char) : encodeChar c ≠ [] := by
  simp only [encodeChar]
  split
  · simp
  · split
    · simp
    · split <;> simp

theorem toNat_lt (c : Char) : c.toNat < 0x110000 := by
  have h := c.valid
  simp only [Char.toNat,UInt32.isValidChar,Nat.isValidChar] at h ⊢
  omega

theorem leadingNumber_encodeChar (c : Char) (bytes : Bytes) :
    leadingNumber (encodeChar c ++ bytes) = c.toNat := by
  have hc := toNat_lt c
  simp only [encodeChar,leadingNumber]
  repeat' split
  all_goals simp at *
  all_goals omega

theorem leadingChar?_encodeChar (c : Char) (bytes : Bytes) :
    leadingChar? (encodeChar c ++ bytes) = some c := by
  simp [leadingChar?,leadingNumber_encodeChar,Char.ofNat_toNat]

theorem symbolsFrom_length_append (skipped bytes : Bytes) :
    symbolsFrom skipped.length (skipped ++ bytes) = symbolsFrom 0 bytes := by
  induction skipped with
  | nil => rfl
  | cons b skipped ih => simpa [symbolsFrom] using ih

theorem symbols_encodeChar_append (c : Char) (bytes : Bytes) :
    symbols (encodeChar c ++ bytes) = some c :: symbols bytes := by
  have hlead := leadingChar?_encodeChar c bytes
  have hskip := symbolsFrom_length_append (encodeChar c).tail bytes
  cases he : encodeChar c with
  | nil => exact absurd he (encodeChar_ne_nil c)
  | cons b tail =>
    rw [he] at hlead hskip
    simp only [List.cons_append] at hlead
    simpa [symbols,symbolsFrom,hlead,he] using hskip

theorem symbols_encode (t : Text) : symbols (encode t) = t.map some := by
  induction t with
  | nil => rfl
  | cons c t ih =>
    have := symbols_encodeChar_append c (encode t)
    rw [List.map_cons,← ih]
    simpa [encode] using this

theorem decode?_encode (t : Text) : decode? (encode t) = some t := by
  have hid : ∀ t : Text, (t.map some).mapM id = some t := by
    intro t
    induction t with
    | nil => rfl
    | cons c t ih => simp [ih]
  rw [decode?,symbols_encode,hid]

end Text
end Realm
