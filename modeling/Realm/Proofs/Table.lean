import Realm.Table
import Realm.Text

/-! Tables in order. Storing keeps the order of the keys, and a table in order is what its
own entries make. -/
namespace Realm.Table

variable {α : Type}

instance instDecidableSorted {κ : Type} [LT κ] [DecidableLT κ] (t : Table κ α) :
    Decidable t.Sorted :=
  inferInstanceAs (Decidable (List.Pairwise (fun a b => a.1 < b.1) t))

theorem sorted_nil : Sorted ([] : Table Text α) :=
  .nil

section Lookup

variable {κ : Type} [DecidableEq κ] {k : κ} {v : α} {t : Table κ α}

theorem mem_of_get? (h : get? k t = some v) : (k,v) ∈ t := by
  induction t with
  | nil => simp [get?] at h
  | cons e t ih =>
    obtain ⟨k',v'⟩ := e
    simp only [get?] at h
    split at h
    · next hk =>
      cases h
      simp [hk]
    · simp [ih h]

theorem contains_of_mem {e : κ × α} (h : e ∈ t) : contains e.1 t = true := by
  induction t with
  | nil => simp at h
  | cons f t ih =>
    obtain ⟨k',v'⟩ := f
    rw [contains,get?]
    split
    · rfl
    · next hk =>
      rcases List.mem_cons.1 h with rfl | h
      · exact absurd rfl hk
      · exact ih h

theorem get?_eq_none (h : ∀ e ∈ t, k ≠ e.1) : get? k t = none := by
  cases hget : get? k t with
  | none => rfl
  | some v => exact absurd rfl (h _ (mem_of_get? hget))

theorem get?_filter (keep : κ → Bool) (k : κ) (t : Table κ α) :
    get? k (t.filter fun e => keep e.1) = if keep k then get? k t else none := by
  induction t with
  | nil => simp [get?]
  | cons e t ih =>
    obtain ⟨k',v'⟩ := e
    rw [List.filter_cons]
    by_cases hk : k = k'
    · subst hk
      cases hkeep : keep k with
      | true => simp [get?]
      | false => simpa [hkeep] using ih
    · by_cases hkeep : keep k' = true
      · simpa [hkeep,get?,hk] using ih
      · simpa [hkeep,get?,hk] using ih

@[simp] theorem get?_mapValues {β : Type} (f : α → β) (k : κ) (t : Table κ α) :
    get? k (mapValues f t) = (get? k t).map f := by
  induction t with
  | nil => rfl
  | cons e t ih =>
    rw [mapValues,List.map_cons,get?,get?]
    split
    · rfl
    · exact ih

theorem get?_insert [LT κ] [DecidableLT κ] (j k : κ) (v : α) (t : Table κ α) :
    get? j (insert k v t) = if j = k then some v else get? j t := by
  by_cases h : j = k
  · subst h
    rw [if_pos rfl,get?_insert_self]
  · rw [if_neg h,get?_insert_of_ne h]

end Lookup

section Order

variable {κ : Type} [LT κ]

theorem Sorted.filter {t : Table κ α} (h : t.Sorted) (P : κ × α → Bool) : Sorted (t.filter P) :=
  List.Pairwise.filter P h

theorem Sorted.mapValues {β : Type} {t : Table κ α} (h : t.Sorted) (f : α → β) :
    Sorted (mapValues f t) :=
  List.pairwise_map.2 h

theorem Sorted.erase [DecidableEq κ] {t : Table κ α} (h : t.Sorted) (k : κ) : (t.erase k).Sorted :=
  h.filter _

theorem Sorted.get?_tail [DecidableEq κ] [@Std.Asymm κ (· < ·)] {k : κ} {v : α} {t : Table κ α}
    (h : Sorted ((k,v) :: t)) : get? k t = none := by
  refine get?_eq_none fun e he hk => ?_
  have hlt : k < e.1 := (List.pairwise_cons.1 h).1 e he
  rw [hk] at hlt
  exact Std.Asymm.asymm _ _ hlt hlt

theorem Sorted.ext [DecidableEq κ] [@Std.Asymm κ (· < ·)] {t t' : Table κ α}
    (h : t.Sorted) (h' : t'.Sorted) (hget : ∀ k, get? k t = get? k t') : t = t' := by
  induction t generalizing t' with
  | nil =>
    cases t' with
    | nil => rfl
    | cons e t' =>
      have hfirst := hget e.1
      simp [get?] at hfirst
  | cons e t ih =>
    obtain ⟨k,v⟩ := e
    cases t' with
    | nil =>
      have hfirst := hget k
      simp [get?] at hfirst
    | cons e' t' =>
      obtain ⟨k',v'⟩ := e'
      -- Each of the two first keys is one of the other table's, so neither comes before the other.
      have hk : k = k' := by
        refine Classical.byContradiction fun hne => ?_
        have hmem : (k,v) ∈ (k',v') :: t' := mem_of_get? (by rw [← hget k]; simp [get?])
        have hmem' : (k',v') ∈ (k,v) :: t := mem_of_get? (by rw [hget k']; simp [get?])
        have hin : (k,v) ∈ t' := by simpa [hne] using hmem
        have hin' : (k',v') ∈ t := by simpa [Ne.symm hne] using hmem'
        have hlt : k' < k := (List.pairwise_cons.1 h').1 _ hin
        have hlt' : k < k' := (List.pairwise_cons.1 h).1 _ hin'
        exact Std.Asymm.asymm _ _ hlt hlt'
      subst hk
      have hv : v = v' := by simpa [get?] using hget k
      subst hv
      refine congrArg _ (ih (List.pairwise_cons.1 h).2 (List.pairwise_cons.1 h').2 fun j => ?_)
      by_cases hj : j = k
      · rw [hj,h.get?_tail,h'.get?_tail]
      · simpa [get?,hj] using hget j

variable [DecidableEq κ] [DecidableLT κ]

/-- The entries of a table with one more are the new one and some of the old ones. -/
theorem mem_insert {k : κ} {v : α} {t : Table κ α} {e : κ × α} (h : e ∈ insert k v t) :
    e = (k,v) ∨ e ∈ t := by
  induction t with
  | nil => simpa [insert] using h
  | cons f t ih =>
    simp only [insert] at h
    split at h
    · rcases List.mem_cons.1 h with rfl | h
      · exact .inl rfl
      · exact .inr (by simp [h])
    · split at h
      · simpa using h
      · rcases List.mem_cons.1 h with rfl | h
        · exact .inr (by simp)
        · rcases ih h with rfl | h
          · exact .inl rfl
          · exact .inr (by simp [h])

theorem Sorted.insert [@Trans κ κ κ (· < ·) (· < ·) (· < ·)] [@Std.Trichotomous κ (· < ·)]
    {t : Table κ α} (h : t.Sorted) (k : κ) (v : α) : (t.insert k v).Sorted := by
  induction t with
  | nil => simp [Table.insert,Sorted]
  | cons f t ih =>
    obtain ⟨hf,ht⟩ := List.pairwise_cons.1 h
    simp only [Table.insert]
    split
    · next hk =>
      subst hk
      exact List.pairwise_cons.2 ⟨hf,ht⟩
    · next hk =>
      split
      · next hlt =>
        refine List.pairwise_cons.2 ⟨fun e he => ?_,h⟩
        rcases List.mem_cons.1 he with rfl | he
        · exact hlt
        · exact Trans.trans hlt (hf e he)
      · next hlt =>
        refine List.pairwise_cons.2 ⟨fun e he => ?_,ih ht⟩
        rcases mem_insert he with rfl | he
        · exact Classical.byContradiction fun hge =>
            hk (Std.Trichotomous.trichotomous _ _ hlt hge)
        · exact hf e he

theorem insert_of_forall_lt [@Std.Asymm κ (· < ·)] {t : Table κ α} {k : κ} (v : α)
    (h : ∀ e ∈ t, e.1 < k) : t.insert k v = t ++ [(k,v)] := by
  induction t with
  | nil => rfl
  | cons f t ih =>
    have hlt : f.1 < k := h f List.mem_cons_self
    have hnot : ¬ k < f.1 := Std.Asymm.asymm _ _ hlt
    have hne : k ≠ f.1 := by
      intro hk
      rw [← hk] at hlt hnot
      exact hnot hlt
    rw [Table.insert,if_neg hne,if_neg hnot,ih fun e he => h e (List.mem_cons_of_mem f he)]
    rfl

end Order

theorem mem_insertAll {es : List (Text × α)} {t : Table Text α} {e : Text × α}
    (h : e ∈ insertAll es t) : e ∈ es ∨ e ∈ t := by
  induction es generalizing t with
  | nil => exact .inr h
  | cons f es ih =>
    rcases ih (t := insert f.1 f.2 t) h with h | h
    · exact .inl (by simp [h])
    · rcases mem_insert h with rfl | h
      · exact .inl (by simp)
      · exact .inr h

theorem mem_ofList {es : List (Text × α)} {e : Text × α} (h : e ∈ ofList es) : e ∈ es := by
  simpa using mem_insertAll h

/-- What is stored under a key does not show where entries of the key are left out. -/
theorem filter_insert {P : Text × α → Bool} {k : Text} (h : ∀ v, P (k,v) = false) (v : α)
    (t : Table Text α) : (insert k v t).filter P = t.filter P := by
  induction t with
  | nil => simp [insert,h]
  | cons e t ih =>
    obtain ⟨k',v'⟩ := e
    simp only [insert]
    split
    · next he =>
      subst he
      simp [h]
    · split
      · simp [h]
      · rw [List.filter_cons,List.filter_cons,ih]

theorem filter_erase {P : Text × α → Bool} {k : Text} (h : ∀ v, P (k,v) = false)
    (t : Table Text α) : (erase k t).filter P = t.filter P := by
  rw [erase,List.filter_filter]
  refine List.filter_congr fun e _ => ?_
  obtain ⟨k',v⟩ := e
  by_cases hk : k' = k
  · subst hk
    simp [h]
  · simp [hk]

theorem Sorted.insertAll {t : Table Text α} (h : t.Sorted) (es : List (Text × α)) :
    (insertAll es t).Sorted := by
  induction es generalizing t with
  | nil => exact h
  | cons e es ih => exact ih (h.insert e.1 e.2)

theorem sorted_ofList (es : List (Text × α)) : (ofList es).Sorted :=
  sorted_nil.insertAll es

theorem insertAll_of_sorted {es t : Table Text α} (h : (t ++ es).Sorted) :
    insertAll es t = t ++ es := by
  induction es generalizing t with
  | nil => simp [insertAll]
  | cons e es ih =>
    have hk : ∀ f ∈ t, f.1 < e.1 := by
      intro f hf
      exact (List.pairwise_append.1 h).2.2 f hf e (by simp)
    have hi := ih (t := t ++ [e]) (by simpa using h)
    simp only [insertAll,List.foldl_cons] at hi ⊢
    rw [insert_of_forall_lt e.2 hk]
    simpa using hi

theorem ofList_of_sorted {t : Table Text α} (h : t.Sorted) : ofList t = t :=
  insertAll_of_sorted (t := []) (by simpa using h)

/-! Tables with the same keys, entry by entry. -/

/-- Tables with the same keys in the same order, under each of which the values correspond. -/
inductive Rel {κ α β : Type} (Q : α → β → Prop) : Table κ α → Table κ β → Prop
  | nil : Rel Q [] []
  | cons {k : κ} {a : α} {b : β} {t : Table κ α} {u : Table κ β} (h : Q a b) (ht : Rel Q t u) :
    Rel Q ((k,a) :: t) ((k,b) :: u)

namespace Rel

variable {κ β : Type} {Q : α → β → Prop} {t : Table κ α} {u : Table κ β}

theorem refl {P : α → α → Prop} (h : ∀ e ∈ t, P e.2 e.2) : Rel P t t := by
  induction t with
  | nil => exact .nil
  | cons e t ih => exact .cons (h e (by simp)) (ih fun e he => h e (by simp [he]))

theorem isEmpty_eq (h : Rel Q t u) : t.isEmpty = u.isEmpty := by
  cases h <;> rfl

variable [DecidableEq κ]

theorem get? (h : Rel Q t u) (k : κ) : Option.Rel Q (Table.get? k t) (Table.get? k u) := by
  induction h with
  | nil => exact .none
  | cons h _ ih =>
    rw [Table.get?,Table.get?]
    split
    · exact .some h
    · exact ih

theorem insert [LT κ] [DecidableLT κ] (h : Rel Q t u) (k : κ) {a : α} {b : β} (hab : Q a b) :
    Rel Q (Table.insert k a t) (Table.insert k b u) := by
  induction h with
  | nil => exact .cons hab .nil
  | cons h ht ih =>
    rw [Table.insert,Table.insert]
    split
    · exact .cons hab ht
    · split
      · exact .cons hab (.cons h ht)
      · exact .cons h ih

end Rel

end Realm.Table
