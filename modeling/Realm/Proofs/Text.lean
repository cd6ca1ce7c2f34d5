import Realm.Text

/-! Texts that are cut at a character: at the first one of a kind, and after the characters that
have a property. Text behind the cut does not move it. -/
namespace Realm.Text

variable {separator : Char} {p : Char → Bool} {t a b tail : Text}

theorem splitFirst?_append (h : separator ∉ a) (b : Text) :
    splitFirst? separator (a ++ separator :: b) = some (a,b) := by
  induction a with
  | nil => simp [splitFirst?]
  | cons c a ih =>
    rw [List.mem_cons,not_or] at h
    simp [splitFirst?,Ne.symm h.1,ih h.2]

@[simp] theorem splitFirst?_eq_none : splitFirst? separator t = none ↔ separator ∉ t := by
  induction t with
  | nil => simp [splitFirst?]
  | cons c t ih =>
    rw [List.mem_cons,not_or,← ih]
    by_cases hc : c = separator
    · simp [splitFirst?,hc]
    · simp [splitFirst?,hc,Ne.symm hc]

@[simp] theorem splitFirst?_eq_some :
    splitFirst? separator t = some (a,b) ↔ t = a ++ separator :: b ∧ separator ∉ a := by
  constructor
  · intro h
    refine ⟨eq_of_splitFirst? h,?_⟩
    induction t generalizing a with
    | nil => cases h
    | cons c t ih =>
      rw [splitFirst?] at h
      split at h
      · cases h
        exact List.not_mem_nil
      · next hc =>
        obtain ⟨⟨x,y⟩,hx,he⟩ := Option.map_eq_some_iff.1 h
        cases he
        rw [List.mem_cons,not_or]
        exact ⟨Ne.symm hc,ih hx⟩
  · rintro ⟨rfl,h⟩
    exact splitFirst?_append h b

theorem splitFirst?_cut (h : splitFirst? separator (t ++ tail) = some (a,b ++ tail)) :
    splitFirst? separator t = some (a,b) := by
  obtain ⟨heq,hnot⟩ := splitFirst?_eq_some.1 h
  rw [← List.cons_append,← List.append_assoc] at heq
  exact splitFirst?_eq_some.2 ⟨List.append_cancel_right heq,hnot⟩

theorem dropWhile_cut (h : (t ++ tail).dropWhile p = a ++ tail) :
    t.dropWhile p = a ∧ t.takeWhile p = (t ++ tail).takeWhile p := by
  induction t with
  | nil =>
    have hlength := congrArg List.length (List.takeWhile_append_dropWhile (p := p) (l := tail))
    rw [List.nil_append] at h
    rw [h,List.length_append,List.length_append] at hlength
    have hnil : a = [] := List.length_eq_zero_iff.1 (by omega)
    have htaken : tail.takeWhile p = [] := List.length_eq_zero_iff.1 (by omega)
    simp [hnil,htaken]
  | cons c t ih =>
    cases hc : p c with
    | true => simpa [hc] using ih (by simpa [hc] using h)
    | false =>
      have hcut : c :: t = a := List.append_cancel_right (by simpa [hc] using h)
      simp [hc,← hcut]

theorem span_append (ha : ∀ c ∈ a, p c = true) (hb : ∀ c ∈ b.head?, p c = false) :
    (a ++ b).takeWhile p = a ∧ (a ++ b).dropWhile p = b := by
  rw [List.takeWhile_append_of_pos ha,List.dropWhile_append_of_pos ha]
  cases b with
  | nil => simp
  | cons c b => simp [hb c rfl]

theorem drop_takeWhile (p : Char → Bool) (t : Text) :
    t.drop (t.takeWhile p).length = t.dropWhile p := by
  have h := @List.drop_left _ (t.takeWhile p) (t.dropWhile p)
  rwa [List.takeWhile_append_dropWhile] at h

end Realm.Text
