import Realm.Json
import Realm.Proofs.Json.Numeral

/-! Strings in documents. A string that has been written between its quotes is read as
itself, and its end is found. -/
namespace Realm.Json.Draft

def StandsForItself (c : Char) : Prop :=
  c ≠ '"' ∧ c ≠ '\\' ∧ ¬ c.toNat < 0x20

theorem escape_cases (c : Char) :
    (∃ letter, letter ≠ 'u' ∧ unescape? letter = some c ∧ escape c = ['\\',letter]) ∨
    (c.toNat < 0x20 ∧
      escape c = ['\\','u','0','0',hexDigit (c.toNat / 16),hexDigit (c.toNat % 16)]) ∨
    (StandsForItself c ∧ escape c = [c]) := by
  unfold escape
  cases hl : shortEscapes.lookup c with
  | some letter =>
    left
    have hs : ∀ e ∈ shortEscapes, e.2 ≠ 'u' ∧ unescape? e.2 = some e.1 := by decide
    have hm : (c,letter) ∈ shortEscapes := by
      obtain ⟨l₁,l₂,hl,_⟩ := List.lookup_eq_some_iff.1 hl
      simp [hl]
    exact ⟨letter,(hs _ hm).1,(hs _ hm).2,rfl⟩
  | none =>
    right
    have hn : ∀ e ∈ shortEscapes, c ≠ e.1 := by
      simpa using List.lookup_eq_none_iff.1 hl
    by_cases hc : c.toNat < 0x20
    · exact .inl ⟨hc,by simp [hc]⟩
    · exact .inr ⟨⟨hn ('"','"') (by decide),hn ('\\','\\') (by decide),hc⟩,by simp [hc]⟩

theorem hexValue?_hexDigit {n : Nat} (h : n < 16) : hexValue? (hexDigit n) = some n := by
  have hd : ∀ n < 16, hexValue? (hexDigit n) = some n := by decide
  exact hd n h

theorem hexValues?_control {n : Nat} (h : n < 0x20) :
    hexValues? [some '0',some '0',some (hexDigit (n / 16)),some (hexDigit (n % 16))] =
      some n := by
  have h₀ : hexValue? '0' = some 0 := by decide
  have h₁ := hexValue?_hexDigit (n := n / 16) (by omega)
  have h₂ := hexValue?_hexDigit (n := n % 16) (by omega)
  simp [hexValues?,h₀,h₁,h₂]
  omega

@[simp] theorem pieces_close (s : Symbols) : pieces (some '"' :: s) = ([],none,s) := by
  rw [pieces.eq_def]
  rfl

theorem pieces_letter {c letter : Char} {s rest : Symbols} {ps : List Piece}
    (hu : letter ≠ 'u') (hl : unescape? letter = some c) (h : pieces s = (ps,none,rest)) :
    pieces (some '\\' :: some letter :: s) = (.char c :: ps,none,rest) := by
  rw [pieces.eq_def]
  simp [hu,hl,h]

theorem pieces_unit {n : Nat} {a b c d : Option Char} {s rest : Symbols} {ps : List Piece}
    (hn : hexValues? [a,b,c,d] = some n) (h : pieces s = (ps,none,rest)) :
    pieces (some '\\' :: some 'u' :: a :: b :: c :: d :: s) = (.unit n s :: ps,none,rest) := by
  rw [pieces.eq_def]
  simp [hn,h]

theorem pieces_plain {c : Char} {s rest : Symbols} {ps : List Piece}
    (hc : StandsForItself c) (h : pieces s = (ps,none,rest)) :
    pieces (some c :: s) = (.char c :: ps,none,rest) := by
  rw [pieces.eq_def]
  simp [hc.1,hc.2.1,hc.2.2,h]

theorem assemble_control {c : Char} {tail : Symbols} {ps : List Piece} {stop : Nat} {t : Text}
    (hc : c.toNat < 0x20) (h : assemble none stop ps = .ok t) :
    assemble none stop (.unit c.toNat tail :: ps) = .ok (c :: t) := by
  have hs : c.toNat < 0xD800 := by omega
  rw [assemble.eq_def]
  simp [hs,h,Except.map,Char.ofNat_toNat]

/-- The pieces of a string as it is written are found up to its closing quote, and make the
string. -/
theorem pieces_escape (t : Text) (rest : Symbols) :
    ∃ ps, pieces (symbolsOf (t.flatMap escape) ++ some '"' :: rest) = (ps,none,rest) ∧
      ∀ stop, assemble none stop ps = .ok t := by
  induction t with
  | nil => exact ⟨[],pieces_close rest,fun _ => rfl⟩
  | cons c t ih =>
    obtain ⟨ps,hp,ha⟩ := ih
    rcases escape_cases c with ⟨letter,hu,hl,he⟩ | ⟨hc,he⟩ | ⟨hc,he⟩
    · refine ⟨.char c :: ps,?_,fun stop => by simp [assemble,ha,Except.map]⟩
      simpa [he] using pieces_letter hu hl hp
    · let tail := symbolsOf (t.flatMap escape) ++ some '"' :: rest
      refine ⟨.unit c.toNat tail :: ps,?_,fun stop => ?_⟩
      · simpa [he] using pieces_unit (hexValues?_control hc) hp
      · exact assemble_control hc (ha stop)
    · refine ⟨.char c :: ps,?_,fun stop => by simp [assemble,ha,Except.map]⟩
      simpa [he] using pieces_plain hc hp

/-- A quotation that says a text, and whose end has been found. -/
structure Quotation.Says (q : Quotation) (t : Text) : Prop where
  value : q.value = .ok t
  obstacle : q.obstacle = none

theorem quotation_escape (t : Text) (rest : Symbols) :
    ∃ q, quotation (symbolsOf (t.flatMap escape) ++ some '"' :: rest) = (q,rest) ∧
      q.Says t := by
  obtain ⟨ps,hp,ha⟩ := pieces_escape t rest
  refine ⟨_,by rw [quotation,hp],?_⟩
  exact ⟨ha _,rfl⟩

end Realm.Json.Draft
