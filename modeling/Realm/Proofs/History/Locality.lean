import Realm.Proofs.Command.Covering
import Realm.Proofs.History.Reference

/-! A history reference is contained in what it takes from the text. Each of its parts is read
up to a place between two characters, and nothing behind the last of them decides what the
reference stands for: alone it is resolved to the same. -/
namespace Realm.History

variable {c : Char} {t middle tail : Text}

theorem not_taken {n : Nat} (h : (middle ++ tail).length + n ≤ tail.length) : n = 0 := by
  rw [List.length_append] at h
  omega

section Event

theorem Event.read?_plain (h : c ∉ ['!','$','^','*','-','?']) :
    Event.read? (c :: t) =
      if Text.isDigit c then
        some ⟨.number (Text.digitsValue ((c :: t).takeWhile Text.isDigit)),none,
          (c :: t).dropWhile Text.isDigit⟩
      else if endsEvent c then none
      else
        some ⟨.beginning ((c :: t).takeWhile (!endsEvent ·)),none,
          (c :: t).dropWhile (!endsEvent ·)⟩ := by
  unfold Event.read?
  split
  · next heq => cases heq
  case h_8 heq => cases heq; rfl
  all_goals
    next heq =>
      cases heq
      exact absurd h (by decide)

theorem Event.length_read? {input : Text} {w : Event.Written} (h : Event.read? input = some w) :
    w.rest.length + 1 ≤ input.length := by
  have hdrop (p : Char → Bool) (t : Text) : (t.dropWhile p).length ≤ t.length :=
    (List.dropWhile_suffix p).length_le
  cases input with
  | nil => cases h
  | cons c t =>
    rw [List.length_cons,Nat.add_le_add_iff_right]
    by_cases hc : c ∈ ['!','$','^','*','-','?']
    · simp only [List.mem_cons,List.not_mem_nil,or_false] at hc
      rcases hc with rfl | rfl | rfl | rfl | rfl | rfl
      · cases h; exact Nat.le_refl _
      · cases h; exact Nat.le_refl _
      · cases h; exact Nat.le_refl _
      · cases h; exact Nat.le_refl _
      · cases h; exact hdrop _ _
      · rw [Event.read?] at h
        split at h
        · next text rest hsplit =>
          cases h
          have hlength := congrArg List.length (Text.eq_of_splitFirst? hsplit)
          rw [List.length_append,List.length_cons] at hlength
          show rest.length ≤ t.length
          omega
        · cases h
          exact hdrop _ _
    · rw [Event.read?_plain hc] at h
      split at h
      · next hd =>
        cases h
        rw [List.dropWhile_cons_of_pos hd]
        exact hdrop _ _
      · split at h
        · cases h
        · next he =>
          cases h
          rw [List.dropWhile_cons_of_pos (by simpa using he)]
          exact hdrop _ _

theorem Event.read?_cut {e : Event} {i : Option Char}
    (h : Event.read? (t ++ tail) = some ⟨e,i,middle ++ tail⟩) :
    Event.read? t = some ⟨e,i,middle⟩ := by
  cases t with
  | nil => exact absurd (not_taken (Event.length_read? h)) Nat.one_ne_zero
  | cons c t =>
    have hcancel {x : Text} (hx : x ++ tail = middle ++ tail) : x = middle :=
      List.append_cancel_right hx
    rw [List.cons_append] at h
    by_cases hc : c ∈ ['!','$','^','*','-','?']
    · simp only [List.mem_cons,List.not_mem_nil,or_false] at hc
      rcases hc with rfl | rfl | rfl | rfl | rfl | rfl
      case inr.inr.inr.inr.inl =>
        simp only [Event.read?,Option.some.injEq,Event.Written.mk.injEq] at h ⊢
        obtain ⟨he,hi,hrest⟩ := h
        obtain ⟨hdrop,htake⟩ := Text.dropWhile_cut hrest
        rw [hdrop,htake]
        exact ⟨he,hi,rfl⟩
      case inr.inr.inr.inr.inr =>
        rw [Event.read?] at h ⊢
        split at h
        · next text rest hsplit =>
          cases h
          rw [Text.splitFirst?_cut hsplit]
        · next hnone =>
          simp only [Option.some.injEq,Event.Written.mk.injEq] at h
          obtain ⟨he,hi,hrest⟩ := h
          obtain ⟨hdrop,htake⟩ := Text.dropWhile_cut hrest
          have hnone' : Text.splitFirst? '?' t = none :=
            Text.splitFirst?_eq_none.2 fun hmem =>
              Text.splitFirst?_eq_none.1 hnone (List.mem_append_left tail hmem)
          simp only [hnone',hdrop,htake,he,hi]
      all_goals
        simp only [Event.read?,Option.some.injEq,Event.Written.mk.injEq] at h ⊢
        exact ⟨h.1,h.2.1,hcancel h.2.2⟩
    · rw [Event.read?_plain hc,← List.cons_append] at h
      rw [Event.read?_plain hc]
      split at h
      · next hd =>
        simp only [Option.some.injEq,Event.Written.mk.injEq] at h
        obtain ⟨he,hi,hrest⟩ := h
        obtain ⟨hdrop,htake⟩ := Text.dropWhile_cut hrest
        rw [if_pos hd,hdrop,htake,he,hi]
      · next hd =>
        split at h
        · cases h
        · next hends =>
          simp only [Option.some.injEq,Event.Written.mk.injEq] at h
          obtain ⟨he,hi,hrest⟩ := h
          obtain ⟨hdrop,htake⟩ := Text.dropWhile_cut hrest
          rw [if_neg hd,if_neg hends,hdrop,htake,he,hi]

end Event

section Words

theorem isInner_of_not_sign (hc : (Text.isDigit c || c = '^' || c = '$' || c = '*' ||
      c = '-') = true) (hsign : ¬ (c = '^' || c = '$' || c = '*') = true) :
    Text.isDigit c = true ∨ c = '-' := by
  grind

theorem Designator.span_cut {d : Text} (hc : (Text.isDigit c || c = '^' || c = '$' || c = '*' ||
      c = '-') = true) (h : Designator.span (c :: (t ++ tail)) = (d,middle ++ tail)) :
    Designator.span (c :: t) = (d,middle) := by
  by_cases hsign : (c = '^' || c = '$' || c = '*') = true
  · rw [Designator.span,if_pos hsign] at h ⊢
    obtain ⟨hd,hrest⟩ := Prod.mk.inj h
    rw [hd,List.append_cancel_right hrest]
  · rw [span_cons (isInner_of_not_sign hc hsign)] at h ⊢
    -- A star behind the characters inside of the designator belongs to it.
    split at h
    · next rest hdrop =>
      obtain ⟨hd,hrest⟩ := Prod.mk.inj h
      rw [hrest,← List.cons_append] at hdrop
      obtain ⟨hdrop,htake⟩ := Text.dropWhile_cut hdrop
      rw [hdrop,htake,← hd]
      rfl
    · next hstar =>
      obtain ⟨hd,hrest⟩ := Prod.mk.inj h
      obtain ⟨hdrop,htake⟩ := Text.dropWhile_cut hrest
      rw [hrest] at hstar
      rw [hdrop,htake,hd]
      split
      · exact absurd rfl (hstar _)
      · rfl

theorem length_writtenDesignator? {d rest : Text} (h : writtenDesignator? t = some (d,rest)) :
    rest.length + 2 ≤ t.length := by
  unfold writtenDesignator? at h
  split at h
  · next c t =>
    split at h
    · next hc =>
      have hspan := Option.some.inj h
      have hdrop := (List.dropWhile_suffix isInside (l := t)).length_le
      rw [List.length_cons,List.length_cons,Nat.add_le_add_iff_right]
      by_cases hsign : (c = '^' || c = '$' || c = '*') = true
      · rw [Designator.span,if_pos hsign] at hspan
        exact Nat.le_of_eq (congrArg List.length (Prod.mk.inj hspan).2.symm)
      · rw [span_cons (isInner_of_not_sign hc hsign)] at hspan
        split at hspan
        · next hstar =>
          rw [hstar,List.length_cons] at hdrop
          rw [← (Prod.mk.inj hspan).2]
          omega
        · rw [← (Prod.mk.inj hspan).2]
          exact hdrop
    · cases h
  · cases h

theorem writtenDesignator?_cut {d : Text}
    (h : writtenDesignator? (t ++ tail) = some (d,middle ++ tail)) :
    writtenDesignator? t = some (d,middle) := by
  have hlength := length_writtenDesignator? h
  match t with
  | [] => exact absurd (not_taken hlength) (by decide)
  | [_] =>
    rw [List.length_append,List.length_append,List.length_singleton] at hlength
    omega
  | colon :: c :: t =>
    by_cases hcolon : colon = ':'
    · subst hcolon
      simp only [List.cons_append,writtenDesignator?] at h ⊢
      split at h
      · next hc => rw [if_pos hc,Designator.span_cut hc (Option.some.inj h)]
      · cases h
    · unfold writtenDesignator? at h
      split at h
      · next heq => exact absurd (List.cons.inj heq).1 hcolon
      · cases h

theorem writtenDesignator?_none_cut (h : writtenDesignator? (t ++ tail) = none) :
    writtenDesignator? t = none := by
  unfold writtenDesignator?
  split
  · simp only [List.cons_append,writtenDesignator?] at h
    split at h
    · cases h
    · next hc => rw [if_neg hc]
  · rfl

/-- The reference to which an error would point does not change the words that are picked. -/
theorem selectWords_map {reference line designator text left left' : Text}
    (h : (selectWords reference line designator).map (·,left) = .ok (text,left')) :
    left = left' ∧ ∀ reference', selectWords reference' line designator = .ok text := by
  unfold selectWords at h ⊢
  split at h
  · obtain ⟨rfl,rfl⟩ := Prod.mk.inj (Except.ok.inj h)
    exact ⟨rfl,fun _ => rfl⟩
  · cases h

theorem designatedWords_cut {input line text rest : Text} {e : Event} {i : Option Char}
    (h : designatedWords input line ⟨e,i,rest ++ tail⟩ = .ok (text,middle ++ tail))
    (input' : Text) : designatedWords input' line ⟨e,i,rest⟩ = .ok (text,middle) := by
  rw [designatedWords] at h ⊢
  cases i with
  | some c =>
    obtain ⟨hleft,hselect⟩ := selectWords_map h
    obtain rfl := List.append_cancel_right hleft
    dsimp only
    rw [hselect]
    rfl
  | none =>
    cases hwritten : writtenDesignator? (rest ++ tail) with
    | none =>
      rw [hwritten] at h
      obtain ⟨rfl,hleft⟩ := Prod.mk.inj (Except.ok.inj h)
      rw [writtenDesignator?_none_cut hwritten,List.append_cancel_right hleft]
    | some r =>
      rw [hwritten] at h
      obtain ⟨hleft,hselect⟩ := selectWords_map h
      rw [← Prod.eta r,hleft] at hwritten
      rw [writtenDesignator?_cut hwritten]
      dsimp only
      rw [hselect]
      rfl

end Words

section Changes

variable {delimiter : Char} {stopAtBlank : Bool} {field : Text} {closed : Bool}

@[simp] theorem readField_protected (d : Char) :
    readField delimiter stopAtBlank ('\\' :: d :: t) =
      (if d ≠ delimiter ∧ d ≠ '\\' then
          '\\' :: d :: (readField delimiter stopAtBlank t).1
        else d :: (readField delimiter stopAtBlank t).1,
        (readField delimiter stopAtBlank t).2) :=
  rfl

theorem readField_all (h : t.length ≤ (readField delimiter stopAtBlank t).2.1.length) :
    readField delimiter stopAtBlank t = ([],t,false) := by
  match t with
  | [] => rfl
  | c :: t =>
    have hlength := readField_length_le delimiter stopAtBlank t
    by_cases hc : c = '\\'
    · subst hc
      match t with
      | [] => exact absurd h (by simp [readField])
      | d :: t =>
        have hlength := readField_length_le delimiter stopAtBlank t
        rw [readField_protected,List.length_cons,List.length_cons] at h
        dsimp only at h
        omega
    · rw [readField_cons hc] at h ⊢
      split
      · next hd =>
        rw [if_pos hd,List.length_cons] at h
        dsimp only at h
        omega
      · next hd =>
        rw [if_neg hd] at h
        split
        · rfl
        · next hb =>
          rw [if_neg hb,List.length_cons] at h
          dsimp only at h
          omega

theorem ne_backslash (h₁ : c = '\\' → t = [] → False)
    (h₂ : ∀ d t', c = '\\' → t = d :: t' → False) : c ≠ '\\' := by
  intro hc
  cases t with
  | nil => exact h₁ hc rfl
  | cons d t => exact h₂ d t hc rfl

theorem readField_cut
    (h : readField delimiter stopAtBlank (t ++ tail) = (field,middle ++ tail,closed)) :
    readField delimiter stopAtBlank t = (field,middle,closed) := by
  fun_induction readField delimiter stopAtBlank t generalizing field closed with
  | case1 =>
    rw [List.nil_append] at h
    have hlength : tail.length ≤ (readField delimiter stopAtBlank tail).2.1.length := by
      rw [h,List.length_append]
      exact Nat.le_add_left _ _
    rw [readField_all hlength,Prod.mk.injEq,Prod.mk.injEq] at h
    obtain ⟨rfl,hrest,rfl⟩ := h
    rw [List.self_eq_append_left.1 hrest]
  | case2 =>
    cases tail with
    | nil =>
      rw [List.append_nil,List.append_nil] at h
      exact h
    | cons d tail =>
      have hlength := readField_length_le delimiter stopAtBlank tail
      have hrest := congrArg (fun r => r.2.1.length) h
      simp only [List.cons_append,List.nil_append,readField_protected,List.length_append,
        List.length_cons] at hrest
      omega
  | case3 c t field' rest closed' heq ih =>
    rw [List.cons_append,List.cons_append,readField_protected,Prod.mk.injEq] at h
    obtain ⟨rfl,hrest⟩ := h
    rw [heq] at ih
    obtain ⟨hfield,hrest⟩ := Prod.mk.inj (ih (Prod.ext rfl hrest))
    rw [hfield,hrest]
  | case4 t h₁ h₂ =>
    rw [List.cons_append,readField_cons (ne_backslash h₁ h₂),if_pos rfl,Prod.mk.injEq,
      Prod.mk.injEq] at h
    obtain ⟨rfl,hrest,rfl⟩ := h
    rw [List.append_cancel_right hrest]
  | case5 c t h₁ h₂ hc hb =>
    rw [List.cons_append,readField_cons (ne_backslash h₁ h₂),if_neg hc,if_pos hb,Prod.mk.injEq,
      Prod.mk.injEq,← List.cons_append] at h
    obtain ⟨rfl,hrest,rfl⟩ := h
    rw [List.append_cancel_right hrest]
  | case6 c t h₁ h₂ hc hb field' rest closed' heq ih =>
    rw [List.cons_append,readField_cons (ne_backslash h₁ h₂),if_neg hc,if_neg hb,
      Prod.mk.injEq] at h
    obtain ⟨rfl,hrest⟩ := h
    rw [heq] at ih
    obtain ⟨hfield,hrest⟩ := Prod.mk.inj (ih (Prod.ext rfl hrest))
    rw [hfield,hrest]

/-- What follows the rest of a substitution does not change the substitution. -/
theorem Modifier.readSubstitution_cut {everywhere : Bool} {m : Modifier}
    (h : readSubstitution everywhere (t ++ tail) = .ok (m,middle ++ tail)) :
    readSubstitution everywhere t = .ok (m,middle) := by
  unfold readSubstitution at h
  split at h
  · cases h
  · next delimiter t' heq =>
    have hsuffix := readField_suffix delimiter false t'
    rcases hpattern : readField delimiter false t' with ⟨pattern,left,closed⟩
    rw [hpattern] at h hsuffix
    obtain ⟨front,rfl⟩ := hsuffix
    dsimp only at h
    split at h
    · next hclosed =>
      obtain rfl : closed = true := hclosed
      have hsuffix := readField_suffix delimiter true left
      rcases hreplacement : readField delimiter true left with ⟨replacement,right,closed⟩
      rw [hreplacement] at h hsuffix
      simp only [Except.ok.injEq,Prod.mk.injEq] at h
      obtain ⟨rfl,rfl⟩ := h
      obtain ⟨inner,rfl⟩ := hsuffix
      rw [← List.append_assoc inner] at hpattern hreplacement heq
      rw [← List.append_assoc front] at hpattern heq
      have ht : t = delimiter :: (front ++ (inner ++ middle)) := List.append_cancel_right heq
      rw [ht,readSubstitution,readField_cut hpattern,readField_cut hreplacement]
      rfl
    · next hclosed =>
      simp only [Except.ok.injEq,Prod.mk.injEq] at h
      obtain ⟨rfl,rfl⟩ := h
      rw [← List.append_assoc] at hpattern heq
      have ht : t = delimiter :: (front ++ middle) := List.append_cancel_right heq
      rw [ht,readSubstitution,readField_cut hpattern]
      exact if_neg hclosed

theorem Modifier.read_cut {m : Modifier} (h : read (t ++ tail) = .ok (m,middle ++ tail)) :
    read t = .ok (m,middle) := by
  unfold read at h
  split at h
  case h_1 | h_11 => cases h
  case h_8 t' heq =>
    cases h
    have ht : t = 'g' :: '&' :: middle := List.append_cancel_right heq
    rw [ht]
    rfl
  case h_9 t' heq =>
    obtain ⟨front,rfl⟩ := readSubstitution_suffix h
    rw [← List.append_assoc] at h heq
    have ht : t = 'g' :: 's' :: (front ++ middle) := List.append_cancel_right heq
    rw [ht]
    exact readSubstitution_cut h
  case h_10 t' heq =>
    obtain ⟨front,rfl⟩ := readSubstitution_suffix h
    rw [← List.append_assoc] at h heq
    have ht : t = 's' :: (front ++ middle) := List.append_cancel_right heq
    rw [ht]
    exact readSubstitution_cut h
  all_goals
    next heq =>
    cases h
    rw [← List.cons_append] at heq
    obtain rfl := List.append_cancel_right heq
    rfl

/-- The reference to which an error would point does not change what a modifier makes. -/
theorem makes_eq_ok {r : Option Text} {made : Text → Progress} {p : Progress} {e : HistoryError}
    (h : (match r with
      | some text => .ok (made text)
      | none => .error e) = Except.ok p) (e' : HistoryError) :
    (match r with
      | some text => .ok (made text)
      | none => .error e') = Except.ok p := by
  cases r with
  | none => cases h
  | some text => exact h

theorem Modifier.apply_eq_ok {m : Modifier} {p p' : Progress} {reference : Text}
    (h : m.apply reference p = .ok p') (reference' : Text) : m.apply reference' p = .ok p' := by
  cases m with
  | again everywhere =>
    rw [apply] at h ⊢
    split at h
    · cases h
    · exact makes_eq_ok h _
  | substitute everywhere pattern replacement =>
    rw [apply] at h ⊢
    split at h
    · cases h
    · exact makes_eq_ok h _
  | _ => exact h

/-- What follows the rest of the modifiers does not change what they make. -/
theorem applyModifiers_cut {input : Text} {p p' : Progress}
    (h : applyModifiers input p (t ++ tail) = .ok (p',tail)) (input' : Text) :
    applyModifiers input' p t = .ok (p',[]) := by
  generalize hs : t ++ tail = s at h
  fun_induction applyModifiers input p s generalizing t with
  | case1 | case2 | case3 | case4 => cases h
  | case5 p u m left hread p₁ happly ih =>
    obtain ⟨front,hfront⟩ := Modifier.read_suffix hread
    obtain ⟨inner,rfl⟩ := applyModifiers_suffix h
    rw [← hfront,← List.append_assoc] at hs
    have ht : t = ':' :: (front ++ inner) := List.append_cancel_right hs
    rw [← hfront,← List.append_assoc] at hread
    rw [ht,applyModifiers_read p (Modifier.read_cut hread),Modifier.apply_eq_ok happly]
    exact ih rfl h
  | case6 p s hcolon =>
    cases h
    rw [List.append_left_eq_self.1 hs,applyModifiers]
    intro _ heq
    cases heq

end Changes

section Places

variable {input : Text}

/-- What may be left of the text behind the mark, `input`, where a part of the reference ends or
is found to make no sense. -/
inductive Leaves (input : Text) : Text → Prop
  | all : Leaves input input
  | event {w : Event.Written} : Event.read? input = some w → Leaves input w.rest
  | words {w : Event.Written} {designator rest : Text} : Event.read? input = some w →
    writtenDesignator? w.rest = some (designator,rest) → Leaves input rest
  | modifier {m : Modifier} {t rest : Text} : Leaves input (':' :: t) →
    Modifier.read t = .ok (m,rest) → Leaves input rest
  | missing {t : Text} : Leaves input (':' :: t) → Modifier.read t = .error .missing →
    Leaves input t
  | unrecognized {t rest : Text} : Leaves input (':' :: t) →
    Modifier.read t = .error (.unrecognized rest) → Leaves input rest

theorem Modifier.unrecognized_suffix {t rest : Text}
    (h : read t = .error (.unrecognized rest)) : rest <:+ t := by
  have hsubstitution {everywhere : Bool} {t : Text}
      (h : readSubstitution everywhere t = .error (.unrecognized rest)) : rest <:+ t := by
    unfold readSubstitution at h
    split at h
    · cases h
    · dsimp only at h
      split at h <;> cases h
  unfold read at h
  split at h
  case h_9 => exact (hsubstitution h).trans ⟨['g','s'],rfl⟩
  case h_10 => exact (hsubstitution h).trans (List.suffix_cons _ _)
  case h_11 =>
    cases h
    exact List.suffix_cons _ _
  all_goals cases h

theorem Leaves.suffix {rest : Text} (h : Leaves input rest) : rest <:+ input := by
  induction h with
  | all => exact List.suffix_refl _
  | event hread => exact Event.read?_suffix hread
  | words hread hwritten =>
    exact (writtenDesignator?_suffix hwritten).trans (Event.read?_suffix hread)
  | modifier _ hread ih =>
    exact (Modifier.read_suffix hread).trans ((List.suffix_cons _ _).trans ih)
  | missing _ _ ih => exact (List.suffix_cons _ _).trans ih
  | unrecognized _ hread ih =>
    exact (Modifier.unrecognized_suffix hread).trans ((List.suffix_cons _ _).trans ih)

/-- The part of a text that an error of a reference names. -/
def namedReference? : HistoryError → Option Text
  | .eventNotFound reference => some reference
  | .missingModifier reference => some reference
  | .unrecognizedModifier reference => some reference
  | .badWordSpecifier reference => some reference
  | .substitutionFailed reference => some reference
  | .noPreviousSubstitution _ => none
  | .missingDelimiter => none

/-- An error names nothing but what has been read up to a place where a part ends. -/
def NamesRead (input : Text) (e : HistoryError) : Prop :=
  ∀ reference, namedReference? e = some reference →
    ∃ rest, Leaves input rest ∧ reference = readPart input rest

theorem selectWords_error {reference line designator : Text} {e : HistoryError}
    (h : selectWords reference line designator = .error e) : e = .badWordSpecifier reference := by
  unfold selectWords at h
  split at h <;> cases h
  rfl

theorem Modifier.apply_error {m : Modifier} {p : Progress} {reference : Text} {e : HistoryError}
    (h : m.apply reference p = .error e) :
    namedReference? e = none ∨ e = .substitutionFailed reference := by
  cases m with
  | again everywhere =>
    rw [apply] at h
    split at h
    · cases h; exact .inl rfl
    · split at h <;> cases h
      exact .inr rfl
  | substitute everywhere pattern replacement =>
    rw [apply] at h
    split at h
    · cases h; exact .inl rfl
    · dsimp only at h
      split at h <;> cases h
      exact .inr rfl
  | _ => cases h

theorem designatedWords_leaves {line : Text} {w : Event.Written}
    (hread : Event.read? input = some w) :
    match designatedWords input line w with
    | .ok (_,rest) => Leaves input rest
    | .error e => NamesRead input e := by
  have hselect {rest designator : Text} (hleaves : Leaves input rest) :
      match (selectWords (readPart input rest) line designator).map fun text => (text,rest) with
      | .ok (_,rest) => Leaves input rest
      | .error e => NamesRead input e := by
    cases h : selectWords (readPart input rest) line designator with
    | ok text => exact hleaves
    | error e =>
      rw [selectWords_error h]
      rintro _ ⟨⟩
      exact ⟨rest,hleaves,rfl⟩
  rw [designatedWords]
  cases w.implied with
  | some c => exact hselect (.event hread)
  | none =>
    cases hwritten : writtenDesignator? w.rest with
    | none => exact .event hread
    | some r => exact hselect (.words hread hwritten)

theorem applyModifiers_leaves {t : Text} (p : Progress) (h : Leaves input t) :
    match applyModifiers input p t with
    | .ok (_,rest) => Leaves input rest
    | .error e => NamesRead input e := by
  fun_induction applyModifiers input p t with
  | case1 p t hread =>
    rintro _ ⟨⟩
    exact ⟨t,.missing h hread,rfl⟩
  | case2 p t rest hread =>
    rintro _ ⟨⟩
    exact ⟨rest,.unrecognized h hread,rfl⟩
  | case3 => rintro _ ⟨⟩
  | case4 p t m rest hread e happly =>
    rcases Modifier.apply_error happly with hnone | rfl
    · intro reference hreference
      rw [hnone] at hreference
      cases hreference
    · rintro _ ⟨⟩
      exact ⟨rest,.modifier h hread,rfl⟩
  | case5 p t m rest hread p' happly ih => exact ih (.modifier h hread)
  | case6 => exact h

/-- A reference, and each reference that an error names, ends where a part of it ends. -/
theorem resolveAfterMark_leaves (history : List Text) (last : Option Substitution)
    (input : Text) :
    match resolveAfterMark history last input with
    | .ok r => ∃ rest, Leaves input rest ∧ r.reference = readPart input rest
    | .error e => NamesRead input e := by
  rw [resolveAfterMark]
  cases hread : Event.read? input with
  | none =>
    rintro _ ⟨⟩
    exact ⟨input,.all,by simp [readPart]⟩
  | some w =>
    dsimp only
    cases w.event.find? history with
    | none =>
      rintro _ ⟨⟩
      exact ⟨w.rest,.event hread,rfl⟩
    | some line =>
      have hwords := @designatedWords_leaves input line w hread
      dsimp only
      cases hd : designatedWords input line w with
      | error e =>
        rw [hd] at hwords
        exact hwords
      | ok r =>
        rw [hd] at hwords
        have happly := applyModifiers_leaves ⟨r.1,false,none,last⟩ hwords
        dsimp only
        cases ha : applyModifiers input ⟨r.1,false,none,last⟩ r.2 with
        | error e =>
          rw [ha] at happly
          exact happly
        | ok r' =>
          rw [ha] at happly
          exact ⟨r'.2,happly,rfl⟩

end Places

theorem resolve_mark {history : List Text} {last : Option Substitution} {input : Text} :
    resolve history last ('!' :: input) =
      match resolveAfterMark history last input with
      | .error e => .error (.history e)
      | .ok r => .ok r :=
  rfl

/-- A reference is resolved without what follows it, and takes a character at least behind its
mark. -/
theorem resolve_alone {history : List Text} {last : Option Substitution} {input : Text}
    {r : Resolved} (h : resolve history last ('!' :: input) = .ok r) :
    ∃ body rest, body ≠ [] ∧ input = body ++ rest ∧ r.reference = '!' :: body ∧
      resolve history last r.reference = .ok r := by
  obtain ⟨⟨e,i,left⟩,line,text,after,p,rest,hread,hfind,hwords,happly,rfl⟩ := resolve_eq_ok.1 h
  have hlength := Event.length_read? hread
  -- From the end of the text to its beginning: each part leaves an end of what the one before it
  -- has left.
  obtain ⟨changes,rfl⟩ := applyModifiers_suffix happly
  obtain ⟨words,hleft⟩ := designatedWords_suffix hwords
  rw [← List.append_assoc] at hleft
  obtain rfl : words ++ changes ++ rest = left := hleft
  obtain ⟨event,rfl⟩ := Event.read?_suffix hread
  rw [← List.append_assoc] at hread happly hwords hlength h ⊢
  have hbody : readPart (event ++ (words ++ changes) ++ rest) rest =
      '!' :: (event ++ (words ++ changes)) := readPart_written _ _
  have hall := readPart_written (event ++ (words ++ changes)) []
  rw [List.append_nil] at hall
  rw [hbody]
  refine ⟨event ++ (words ++ changes),rest,?_,rfl,rfl,?_⟩
  · intro hnil
    rw [hnil] at hlength
    simp only [List.length_append,List.length_nil] at hlength
    omega
  · exact resolve_eq_ok.2 ⟨_,line,text,changes,p,[],Event.read?_cut hread,hfind,
      designatedWords_cut hwords _,applyModifiers_cut happly _,by rw [hall]⟩

theorem kept_at_end (t : Text) :
    headOf t <+: t ∧ tailOf t <:+ t ∧ rootOf t <+: t ∧ extensionOf t <:+ t := by
  have hhead : headOf t <+: t := by
    generalize hhead : headOf t = head
    cases headOf_iff.1 hhead with
    | whole => exact List.prefix_refl _
    | top => exact ⟨_,rfl⟩
    | before => exact List.prefix_append _ _
  have htail : tailOf t <:+ t := by
    generalize htail : tailOf t = base
    cases tailOf_iff.1 htail with
    | whole => exact List.suffix_refl _
    | after => exact (List.suffix_cons _ _).trans (List.suffix_append _ _)
  refine ⟨hhead,htail,?_⟩
  rw [rootOf,extensionOf]
  cases hsplit : splitExtension? t with
  | none => exact ⟨List.prefix_refl _,List.nil_suffix⟩
  | some r =>
    obtain ⟨root,ext⟩ := r
    cases splitExtension?_iff.1 hsplit with
    | intro =>
      exact ⟨⟨_,(List.append_cons ..).symm⟩,(List.suffix_cons _ _).trans (List.suffix_append _ _)⟩

/-- A history reference is contained in the text that it takes. Whatever the text behind its
mark, wherever a part of it ends is between two characters of the text, and what its changes keep
of a line is cut off at an end of the line. A reference that is resolved takes its mark and more,
up to such a place, and alone it is resolved to the same. Otherwise, what the error says of the
text is what has been read up to such a place. -/
theorem resolve_selfContained (history : List Text) (last : Option Substitution) (input : Text) :
    (∀ rest, Leaves input rest → readPart input rest ++ rest = '!' :: input ∧
      Text.byteSize (readPart input rest) ≤ Text.byteSize ('!' :: input) ∧
      Text.IsBoundary (Text.byteSize (readPart input rest)) ('!' :: input)) ∧
    (∀ line, headOf line <+: line ∧ tailOf line <:+ line ∧ rootOf line <+: line ∧
      extensionOf line <:+ line) ∧
    match resolve history last ('!' :: input) with
    | .ok r => (∃ rest, Leaves input rest ∧ r.reference = readPart input rest) ∧
      2 ≤ Text.byteSize r.reference ∧
      Text.byteSize r.reference ≤ Text.byteSize ('!' :: input) ∧
      Text.IsBoundary (Text.byteSize r.reference) ('!' :: input) ∧
      resolve history last (Text.takeBytes (Text.byteSize r.reference) ('!' :: input)) = .ok r
    | .error e => ∃ cause, e = .history cause ∧ ∀ reference,
      namedReference? cause = some reference →
        (∃ rest, Leaves input rest ∧ reference = readPart input rest) ∧
        reference.head? = some '!' ∧ reference <+: '!' :: input := by
  have hplaces (rest : Text) (h : Leaves input rest) :
      readPart input rest ++ rest = '!' :: input ∧
        Text.byteSize (readPart input rest) ≤ Text.byteSize ('!' :: input) ∧
        Text.IsBoundary (Text.byteSize (readPart input rest)) ('!' :: input) := by
    have hwhole := readPart_append h.suffix
    refine ⟨hwhole,?_⟩
    rw [← hwhole,Text.byteSize_append]
    exact ⟨Nat.le_add_right _ _,Text.isBoundary_append _ _⟩
  refine ⟨hplaces,kept_at_end,?_⟩
  have hleaves := resolveAfterMark_leaves history last input
  cases hafter : resolveAfterMark history last input with
  | ok r =>
    have hresolve : resolve history last ('!' :: input) = .ok r := by rw [resolve_mark,hafter]
    rw [hafter] at hleaves
    obtain ⟨body,rest,hbody,rfl,hreference,halone⟩ := resolve_alone hresolve
    have hsplit : r.reference ++ rest = '!' :: (body ++ rest) := by
      rw [hreference]
      rfl
    have hpos := Token.byteSize_pos hbody
    have hmark : Char.utf8Size '!' = 1 := rfl
    rw [hresolve]
    refine ⟨hleaves,?_,?_⟩
    · rw [hreference,Text.byteSize_cons,hmark]
      omega
    · rw [← hsplit,Text.takeBytes_append,Text.byteSize_append]
      exact ⟨Nat.le_add_right _ _,Text.isBoundary_append _ _,halone⟩
  | error cause =>
    rw [hafter] at hleaves
    rw [resolve_mark,hafter]
    refine ⟨cause,rfl,fun reference hreference => ?_⟩
    obtain ⟨rest,hrest,rfl⟩ := hleaves reference hreference
    exact ⟨⟨rest,hrest,rfl⟩,rfl,⟨rest,(hplaces rest hrest).1⟩⟩

end Realm.History
