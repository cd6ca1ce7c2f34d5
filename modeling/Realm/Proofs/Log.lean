import Realm.Log
import Realm.Proofs.Json.Numeral
import Realm.Proofs.Text.Bytes

/-! What a log tells of a player's lines. A line that is not written out gives away its length and
nothing else. One that is written out holds no control character: it is the sanitized line or the
longest beginning of it that fits, with the number of bytes behind, and the cut between the two,
which is sought in the bytes, goes through no character. -/
namespace Realm

theorem Text.replaceAll_singleton (d : Char) (new t : Text) :
    replaceAll [d] new t = t.flatMap fun x => if x = d then new else [x] := by
  rw [replaceAll]
  induction t with
  | nil => rfl
  | cons x t ih =>
    have hstarts : startsWith [d] (x :: t) = decide (x = d) := by
      by_cases hx : x = d
      · simp [startsWith,stripPrefix?,hx]
      · simp [startsWith,stripPrefix?,hx,Ne.symm hx]
    rw [replaceFrom,hstarts,List.flatMap_cons]
    by_cases hx : x = d
    · simp [hx,ih]
    · simp [hx,ih]

theorem Text.isControl_ofNat (n : Nat) : ∀ d ∈ ofNat n, isControl d = false := by
  intro d hd
  have hdigit := Json.Draft.isDigit_of_mem_ofNat hd
  simp only [isDigit,Bool.and_eq_true,decide_eq_true_eq,Char.le_def,
    UInt32.le_iff_toNat_le] at hdigit
  simp only [isControl,Char.toNat,Bool.or_eq_false_iff,Bool.and_eq_false_iff,
    decide_eq_false_iff_not]
  have h₀ : '0'.val.toNat = 0x30 := rfl
  have h₉ : '9'.val.toNat = 0x39 := rfl
  omega

namespace Log

variable {c : Config} {limit : Nat} {t shown : Text}

/-- Escape line breaks and tabs one after the other, each in what the one before has made of the
text, then leave out the controls that are still there. -/
def escapeInTurn (t : Text) : Text :=
  let lines := Text.replaceAll ['\n'] ['\\','n'] t
  let returns := Text.replaceAll ['\r'] ['\\','r'] lines
  let tabs := Text.replaceAll ['\t'] ['\\','t'] returns
  tabs.filter fun d => !Text.isControl d || d == ' '

/-- What one escape writes is left alone by those behind it, so a character is escaped by itself. -/
theorem sanitize_eq_escapeInTurn (t : Text) : sanitize t = escapeInTurn t := by
  simp only [sanitize,escapeInTurn,Text.replaceAll_singleton,List.flatMap_assoc,List.filter_flatMap]
  congr 1
  funext x
  rw [sanitizeChar]
  by_cases hline : x = '\n'
  · subst hline
    decide
  by_cases hreturn : x = '\r'
  · subst hreturn
    decide
  by_cases htab : x = '\t'
  · subst htab
    decide
  cases hx : Text.isControl x with
  | true =>
    have hspace : x ≠ ' ' := by
      rintro rfl
      cases hx
    simp [hline,hreturn,htab,hx,hspace]
  | false => simp [hline,hreturn,htab,hx]

theorem isControl_sanitizeChar (x : Char) : ∀ d ∈ sanitizeChar x, Text.isControl d = false := by
  rw [sanitizeChar]
  split
  · simp [Text.isControl]
  split
  · simp [Text.isControl]
  split
  · simp [Text.isControl]
  split
  · exact List.forall_mem_nil _
  · next hx => simpa using hx

theorem isControl_sanitize (t : Text) : ∀ d ∈ sanitize t, Text.isControl d = false := by
  intro d hd
  obtain ⟨x,-,hx⟩ := List.mem_flatMap.1 hd
  exact isControl_sanitizeChar x d hx

theorem sanitizeChar_eq_self {x : Char} (hx : Text.isControl x = false) :
    sanitizeChar x = [x] := by
  have hne {d : Char} (hd : Text.isControl d = true) : x ≠ d := by
    rintro rfl
    rw [hx] at hd
    cases hd
  rw [sanitizeChar,if_neg (hne (by decide)),if_neg (hne (by decide)),if_neg (hne (by decide)),hx]
  rfl

theorem sanitize_eq_self (h : ∀ d ∈ t, Text.isControl d = false) : sanitize t = t := by
  induction t with
  | nil => rfl
  | cons x t ih =>
    obtain ⟨hx,ht⟩ := List.forall_mem_cons.1 h
    rw [sanitize,List.flatMap_cons,sanitizeChar_eq_self hx,← sanitize,ih ht]
    rfl

@[simp] theorem sanitize_sanitize (t : Text) : sanitize (sanitize t) = sanitize t :=
  sanitize_eq_self (isControl_sanitize t)

/-- The longest beginning of a text that takes at most `limit` bytes. -/
structure IsLongest (limit : Nat) (t kept : Text) : Prop where
  begins : kept <+: t
  fits : Text.byteSize kept ≤ limit
  longest : ∀ p, p <+: t → Text.byteSize p ≤ limit → p <+: kept

def note (n : Nat) : Text :=
  "...[truncated ".toList ++ Text.ofNat n ++ " bytes]".toList

/-- What is shown of a text: all of it where it fits, otherwise as much of it as does, and how many
bytes are left out. -/
inductive Shown (limit : Nat) : Text → Text → Prop
  | whole {t : Text} : Text.byteSize t ≤ limit → Shown limit t t
  | cut {kept left : Text} : limit < Text.byteSize (kept ++ left) →
    IsLongest limit (kept ++ left) kept →
    Shown limit (kept ++ left) (kept ++ note (Text.byteSize left))

theorem isLongest_takeBytes (n : Nat) (t : Text) : IsLongest n t (Text.takeBytes n t) where
  begins := Text.takeBytes_prefix n t
  fits := Text.byteSize_takeBytes_le n t
  longest _ hp hfits := Text.prefix_takeBytes_iff.2 ⟨hp,hfits⟩

theorem Config.truncate_eq (c : Config) (t : Text) :
    c.truncate t =
      if Text.byteSize t ≤ c.maxValueLength then t
      else
        Text.takeBytes c.maxValueLength t ++
          note (Text.byteSize (Text.dropBytes c.maxValueLength t)) := by
  rw [truncate]
  split
  · rfl
  · show _ ++ _ ++ _ ++ _ = _ ++ (_ ++ _ ++ _)
    simp [Text.byteSize_dropBytes]

theorem Config.shown_truncate (c : Config) (t : Text) :
    Shown c.maxValueLength t (c.truncate t) := by
  rw [truncate_eq]
  split
  · next h => exact .whole h
  · next h =>
    have hsplit := Text.takeBytes_append_dropBytes c.maxValueLength t
    have hlong : c.maxValueLength < Text.byteSize t := Nat.lt_of_not_le h
    have hlongest := isLongest_takeBytes c.maxValueLength t
    rw [← hsplit] at hlong
    have hcut := Shown.cut hlong (hsplit.symm ▸ hlongest)
    rwa [hsplit] at hcut

/-- Cut a value in its bytes: go back from the limit to where a character begins, and read what is
before it as text. -/
def Config.truncate? (c : Config) (value : Text) : Option Text :=
  let bytes := Text.encode value
  if bytes.length ≤ c.maxValueLength then some value
  else
    let stop := Text.lastBegin bytes c.maxValueLength
    (Text.before? bytes stop).map fun kept => kept ++ note (bytes.length - stop)

/-- However long a value may be, there is a character's beginning or the end where it is cut. -/
@[simp] theorem Config.truncate?_eq (c : Config) (value : Text) :
    c.truncate? value = some (c.truncate value) := by
  simp only [truncate?,truncate_eq,Text.length_encode,Text.lastBegin_encode]
  split
  · rfl
  · rw [Text.before?_takeBytes,Text.byteSize_dropBytes]
    rfl

theorem isControl_note (n : Nat) : ∀ d ∈ note n, Text.isControl d = false := by
  have hbefore : ("...[truncated ".toList.all fun d => !Text.isControl d) = true := rfl
  have hbehind : (" bytes]".toList.all fun d => !Text.isControl d) = true := rfl
  rw [List.all_eq_true] at hbefore hbehind
  intro d hd
  obtain hd | hd := List.mem_append.1 hd
  · obtain hd | hd := List.mem_append.1 hd
    · simpa using hbefore d hd
    · exact Text.isControl_ofNat n d hd
  · simpa using hbehind d hd

theorem Shown.isControl (h : Shown limit t shown) (ht : ∀ d ∈ t, Text.isControl d = false) :
    ∀ d ∈ shown, Text.isControl d = false := by
  cases h with
  | whole => exact ht
  | cut _ _ =>
    exact List.forall_mem_append.2 ⟨(List.forall_mem_append.1 ht).1,isControl_note _⟩

/-- A line that is not written out is told apart from others by its length only. -/
theorem Config.line_hidden (h : c.logCommandLines = false) (s t : Text) :
    c.line s = c.line t ↔ Text.byteSize s = Text.byteSize t := by
  have hcount : Function.Injective Text.ofNat :=
    Function.LeftInverse.injective Json.Draft.digitsValue_ofNat
  simp only [line,h,Bool.false_eq_true,if_false,List.append_cancel_right_eq,
    List.append_cancel_left_eq,hcount.eq_iff]

/-- A line that is written out is what is shown of it when it is sanitized. -/
theorem Config.line_shown (h : c.logCommandLines = true) (t : Text) :
    Shown c.maxValueLength (sanitize t) (c.line t) := by
  rw [line,if_pos h]
  exact c.shown_truncate _

/-- What the log tells of lines. Where they are not written out, two of them are logged alike
exactly if they have the same length in bytes. Where they are, no control character comes into the
log, and what does is the sanitized line if it fits, and otherwise the longest beginning of it that
does, with the number of bytes that are left out. Whatever the limit, the cut that is sought in the
bytes of a value goes through no character. Line breaks and tabs may be escaped one after the other
or each by itself, and what is sanitized once is left alone. -/
theorem Config.line_discloses (c : Config) :
    (c.logCommandLines = false →
      ∀ s t, c.line s = c.line t ↔ Text.byteSize s = Text.byteSize t) ∧
    (c.logCommandLines = true →
      ∀ t, (∀ d ∈ c.line t, Text.isControl d = false) ∧
        Shown c.maxValueLength (sanitize t) (c.line t)) ∧
    (∀ value, c.truncate? value = some (c.truncate value)) ∧
    ∀ t, sanitize t = escapeInTurn t ∧ sanitize (sanitize t) = sanitize t := by
  refine ⟨line_hidden,fun h t => ?_,c.truncate?_eq,fun t => ?_⟩
  · have hshown := line_shown h t
    exact ⟨hshown.isControl (isControl_sanitize t),hshown⟩
  · exact ⟨sanitize_eq_escapeInTurn t,sanitize_sanitize t⟩

/-- Two lines of four bytes that are not written out, and one of which more is sanitized than fits,
with the limit inside of a character. -/
theorem Config.line_discloses_cut :
    let hidden : Config := {}
    let written : Config := { logCommandLines := true, maxValueLength := 5 }
    hidden.logCommandLines = false ∧
      hidden.line ['l','o','o','k'] = hidden.line ['é','é'] ∧
      written.logCommandLines = true ∧
      written.line ['é','\t','é','é'] = ['é','\\','t'] ++ note 4 ∧
      (∀ d ∈ written.line ['é','\t','é','é'], Text.isControl d = false) ∧
      Shown 5 ['é','\\','t','é','é'] (['é','\\','t'] ++ note 4) := by
  intro hidden written
  have hline : written.line ['é','\t','é','é'] = ['é','\\','t'] ++ note 4 := by decide
  obtain ⟨halike,-⟩ := line_discloses hidden
  obtain ⟨-,hwritten,-⟩ := line_discloses written
  obtain ⟨hcontrol,hshown⟩ := hwritten rfl ['é','\t','é','é']
  refine ⟨rfl,(halike rfl _ _).2 (by decide),rfl,hline,hcontrol,?_⟩
  rw [hline] at hshown
  exact hshown

end Log
end Realm
