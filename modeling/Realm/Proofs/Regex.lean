import Realm.Regex

/-! What is documented of a library of regular expressions, and what follows for a text that is
put into a group between the two ends of a text. -/
namespace Realm.Regex

variable {R : Type} [Regex R]

def grouped (t : Text) : Text :=
  "(?:".toList ++ t ++ [')']

/-- What is documented of a library, its limits of size apart. `Matches r before middle after`
says that `r` matches `middle` where it stands behind `before` and in front of `after`. -/
structure Documented (Matches : R → Text → Text → Text → Prop) : Prop where
  /-- A search finds a match if there is one anywhere. -/
  search (r : R) (t : Text) : (captures? r t).isSome = true ↔
    ∃ before middle after, t = before ++ middle ++ after ∧ Matches r before middle after
  /-- A group is closed by a parenthesis, and what it holds is an expression by itself. -/
  closes (t : Text) : (compile ("^(?:".toList ++ t) : Option R).isSome = true →
    ∃ inside behind, t = inside ++ ')' :: behind ∧ (compile inside : Option R).isSome = true
  /-- An expression that is a group between the two ends of a text is made of expressions. -/
  parts (t : Text) : (compile t : Option R).isSome = true →
    (compile ('^' :: grouped t ++ ['$']) : Option R).isSome = true →
    (compile (grouped t) : Option R).isSome = true ∧
      (compile ('^' :: grouped t) : Option R).isSome = true
  /-- A group matches what is inside of it. -/
  group (t : Text) {q r : R} : compile t = some q → compile (grouped t) = some r →
    ∀ before middle after, Matches r before middle after ↔ Matches q before middle after
  /-- A caret holds at the start of the text. -/
  start (t : Text) {q r : R} : (compile t : Option R).isSome = true → compile (grouped t) = some q →
    compile ('^' :: grouped t) = some r →
    ∀ before middle after,
      Matches r before middle after ↔ before = [] ∧ Matches q before middle after
  /-- A dollar sign holds at the end of the text. -/
  stop (t : Text) {q r : R} : (compile t : Option R).isSome = true →
    compile ('^' :: grouped t) = some q → compile ('^' :: grouped t ++ ['$']) = some r →
    ∀ before middle after,
      Matches r before middle after ↔ after = [] ∧ Matches q before middle after

/-- No expression, but an expression up to a parenthesis that ends a group around it. -/
def EndsGroup (R : Type) [Regex R] (t : Text) : Prop :=
  (compile t : Option R) = none ∧
    ∃ inside behind, t = inside ++ ')' :: behind ∧ (compile inside : Option R).isSome = true

namespace Documented

variable {Matches : R → Text → Text → Text → Prop} (doc : Documented Matches) {t : Text} {q r : R}

include doc

/-- What can be put into a group between the two ends of a text is an expression, unless it ends
the group. -/
theorem compiled (h : compile ('^' :: grouped t ++ ['$']) = some r) :
    EndsGroup R t ∨ ∃ q : R, compile t = some q := by
  have hwhole : '^' :: grouped t ++ ['$'] = "^(?:".toList ++ (t ++ [')','$']) := by
    simp [grouped]
  rw [hwhole] at h
  obtain ⟨inside,behind,heq,hinside⟩ := doc.closes _ (Option.isSome_of_eq_some h)
  cases ht : (compile t : Option R) with
  | some q => exact .inr ⟨q,rfl⟩
  | none =>
    refine .inl ⟨ht,inside,?_⟩
    -- The group does not end at the parenthesis behind the text: what is before it is refused.
    have hne : inside ≠ t := by
      rintro rfl
      rw [ht] at hinside
      cases hinside
    rcases List.append_eq_append_iff.1 heq with ⟨front,rfl,hfront⟩ | ⟨back,rfl,hback⟩
    · rcases front with _ | ⟨c,_ | ⟨d,front⟩⟩ <;> simp_all
    · cases back with
      | nil => simp at hne
      | cons c back =>
        obtain ⟨rfl,-⟩ := List.cons.inj hback
        exact ⟨back,rfl,hinside⟩

/-- An expression in a group between the two ends of a text is found in a text exactly if it
matches all of it. -/
theorem isSome_captures? (ht : compile t = some q) (h : compile ('^' :: grouped t ++ ['$']) = some r)
    (s : Text) : (captures? r s).isSome = true ↔ Matches q [] s [] := by
  have hsome := Option.isSome_of_eq_some ht
  obtain ⟨hgroup,hstart⟩ := doc.parts t hsome (Option.isSome_of_eq_some h)
  obtain ⟨g,hg⟩ := Option.isSome_iff_exists.1 hgroup
  obtain ⟨f,hf⟩ := Option.isSome_iff_exists.1 hstart
  have hmatches (before middle after : Text) : Matches r before middle after ↔
      after = [] ∧ before = [] ∧ Matches q before middle after := by
    rw [doc.stop t hsome hf h,doc.start t hsome hg hf,doc.group t ht hg]
  rw [doc.search]
  constructor
  · rintro ⟨before,middle,after,rfl,hm⟩
    obtain ⟨rfl,rfl,hm⟩ := (hmatches before middle after).1 hm
    simpa using hm
  · exact fun hm => ⟨[],s,[],by simp,(hmatches [] s []).2 ⟨rfl,rfl,hm⟩⟩

end Documented

end Realm.Regex
