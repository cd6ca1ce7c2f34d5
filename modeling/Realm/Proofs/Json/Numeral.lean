import Realm.Json.Draft

/-! Numbers in documents. The decimal digits of a number are read as that number, whatever
follows them, as long as nothing that follows could belong to a number. -/
namespace Realm.Json.Draft

abbrev symbolsOf (t : Text) : Symbols :=
  t.map some

/-- Nothing at the front of the symbols could belong to a number before them. -/
def EndsNumber (s : Symbols) : Prop :=
  ∀ c s', s = some c :: s' → Text.isDigit c = false ∧ c ≠ '.' ∧ c ≠ 'e' ∧ c ≠ 'E'

theorem endsNumber_nil : EndsNumber [] := by
  intro c s' h
  cases h

theorem endsNumber_cons {c : Char} (s : Symbols)
    (h : Text.isDigit c = false ∧ c ≠ '.' ∧ c ≠ 'e' ∧ c ≠ 'E') : EndsNumber (some c :: s) := by
  intro c' s' he
  cases he
  exact h

theorem isDigit_of_mem_ofNat {n : Nat} {c : Char} (h : c ∈ Text.ofNat n) :
    Text.isDigit c = true := by
  have hc := Nat.isDigit_of_mem_toDigits (b := 10) (by decide) (by decide) h
  simpa [Text.isDigit,Char.isDigit,Char.le_def] using hc

theorem ofNat_ne_nil (n : Nat) : Text.ofNat n ≠ [] :=
  Nat.toDigits_ne_nil

theorem digits_append {t : Text} {rest : Symbols} (h : ∀ c ∈ t, Text.isDigit c = true)
    (hr : EndsNumber rest) : digits (symbolsOf t ++ rest) = (t,rest) := by
  induction t with
  | nil =>
    rcases rest with _ | ⟨_ | c,rest⟩
    · rfl
    · rfl
    · simp [digits,(hr c rest rfl).1]
  | cons c t ih =>
    have hc := h c (by simp)
    have ht := ih fun d hd => h d (by simp [hd])
    simp only [symbolsOf] at ht
    simp [digits,hc,ht]

@[simp] theorem digitsValue_append_singleton (t : Text) (c : Char) :
    Text.digitsValue (t ++ [c]) = 10 * Text.digitsValue t + (c.toNat - '0'.toNat) := by
  simp [Text.digitsValue,List.foldl_append]

theorem digitChar_value {d : Nat} (h : d < 10) : d.digitChar.toNat - '0'.toNat = d := by
  have hd : ∀ d < 10, d.digitChar.toNat - '0'.toNat = d := by decide
  exact hd d h

@[simp] theorem digitsValue_ofNat (n : Nat) : Text.digitsValue (Text.ofNat n) = n := by
  induction n using Nat.strongRecOn with
  | ind n ih =>
    by_cases hn : n < 10
    · rw [Text.ofNat,Nat.toDigits_of_lt_base hn]
      simpa [Text.digitsValue] using digitChar_value hn
    · have hd := ih (n / 10) (by omega)
      have hm : n % 10 < 10 := Nat.mod_lt _ (by decide)
      rw [Text.ofNat] at hd
      rw [Text.ofNat,Nat.toDigits_of_base_le (by decide) (by omega),
        digitsValue_append_singleton,hd,digitChar_value hm]
      omega

theorem digitChar_ne_zero {d : Nat} (h : d < 10) (h₀ : 0 < d) : d.digitChar ≠ '0' := by
  have hd : ∀ d < 10, 0 < d → d.digitChar ≠ '0' := by decide
  exact hd d h h₀

/-- The digits of a number do not begin with a zero, unless it is their only one. -/
theorem head_ofNat_ne_zero {n : Nat} (h : 0 < n) : (Text.ofNat n).head? ≠ some '0' := by
  induction n using Nat.strongRecOn with
  | ind n ih =>
    by_cases hn : n < 10
    · rw [Text.ofNat,Nat.toDigits_of_lt_base hn]
      simpa using digitChar_ne_zero hn h
    · have hd := ih (n / 10) (by omega) (by omega)
      rw [Text.ofNat] at hd
      rw [Text.ofNat,Nat.toDigits_of_base_le (by decide) (by omega)]
      cases ht : Nat.toDigits 10 (n / 10) with
      | nil => exact absurd ht Nat.toDigits_ne_nil
      | cons c t => simpa [ht] using hd

def InRange (n : Int) : Prop :=
  -0x8000000000000000 ≤ n ∧ n < 0x10000000000000000

theorem magnitude_ofNat (negative : Bool) (n : Nat) {rest : Symbols} (hr : EndsNumber rest) :
    magnitude negative (symbolsOf (Text.ofNat n) ++ rest) =
      (ofDigits negative (Text.ofNat n),rest) := by
  have hd := digits_append (fun c => isDigit_of_mem_ofNat (n := n) (c := c)) hr
  have hz : ∀ c t, Text.ofNat n ≠ '0' :: c :: t := by
    intro c t he
    by_cases hn : n = 0
    · subst hn
      simp [Text.ofNat] at he
    · exact head_ofNat_ne_zero (Nat.pos_of_ne_zero hn) (by simp [he])
  unfold magnitude
  rw [hd]
  split
  · next he => exact absurd (Prod.mk.inj he).1 (ofNat_ne_nil n)
  · next he => exact absurd (Prod.mk.inj he).1 (hz _ _)
  · next whole s _ _ he =>
    obtain ⟨rfl,rfl⟩ := Prod.mk.inj he
    split
    · next s => exact absurd rfl (hr '.' s rfl).2.1
    · next s => exact absurd rfl (hr 'e' s rfl).2.2.1
    · next s => exact absurd rfl (hr 'E' s rfl).2.2.2
    · rfl

theorem ofDigits_ofNat {n : Nat} (h : n < 0x10000000000000000) :
    ofDigits false (Text.ofNat n) = .integer n := by
  simp [ofDigits,h]

theorem ofDigits_negative {n : Nat} (h : 0 < n) (h' : n ≤ 0x8000000000000000) :
    ofDigits true (Text.ofNat n) = .integer (-n) := by
  simp [ofDigits,h,h']

end Realm.Json.Draft
