import Realm.Pattern.ClassReader
import Realm.Proofs.Text

/-! Readers of patterns look no further than they read. What they find in a text they find also
where the text ends with what they have read. -/
namespace Realm.Pattern

/-- A reader that leaves an end of what it reads, and what it leaves has no part in what it
finds. -/
structure Local {α : Type} (f : Text → Option (α × Text)) : Prop where
  suffix : ∀ {t : Text} {x : α} {rest : Text}, f t = some (x,rest) → rest <:+ t
  cut : ∀ {t tail middle : Text} {x : α}, f (t ++ tail) = some (x,middle ++ tail) →
    f t = some (x,middle)

variable {α β : Type} {f g : Text → Option (α × Text)} {t tail middle rest : Text}

section Combinators

/-- An end of two texts that is not shorter than the second is an end of the first, with the
second behind it. -/
theorem exists_front (h : rest <:+ t ++ tail) (hlength : tail.length ≤ rest.length) :
    ∃ front, rest = front ++ tail ∧ front <:+ t := by
  obtain ⟨front,rfl⟩ := List.suffix_of_suffix_length_le (List.suffix_append t tail) h hlength
  obtain ⟨before,hbefore⟩ := h
  rw [← List.append_assoc] at hbefore
  exact ⟨front,rfl,before,List.append_cancel_right hbefore⟩

theorem eq_nil_of_append_suffix (h : middle ++ tail <:+ tail) : middle = [] := by
  have hlength := h.length_le
  rw [List.length_append] at hlength
  exact List.length_eq_zero_iff.1 (by omega)

theorem drop_of_suffix (h : rest <:+ t) : t.drop (t.length - rest.length) = rest :=
  (List.suffix_iff_eq_drop.1 h).symm

theorem length_tail_le (h : middle ++ tail <:+ rest) : tail.length ≤ rest.length :=
  ((List.suffix_append middle tail).trans h).length_le

theorem Local.pure (x : α) : Local fun t => some (x,t) where
  suffix h := by
    cases h
    exact List.suffix_refl _
  cut h := by
    obtain ⟨rfl,hrest⟩ := Prod.mk.inj (Option.some.inj h)
    rw [List.append_cancel_right hrest]

theorem Local.none : Local fun _ => (none : Option (α × Text)) where
  suffix := nofun
  cut := nofun

theorem Local.bind {g : α → Text → Option (β × Text)} (hf : Local f) (hg : ∀ x, Local (g x)) :
    Local fun t => (f t).bind fun r => g r.1 r.2 where
  suffix h := by
    obtain ⟨⟨x,rest⟩,hx,hy⟩ := Option.bind_eq_some_iff.1 h
    exact ((hg x).suffix hy).trans (hf.suffix hx)
  cut h := by
    obtain ⟨⟨x,rest⟩,hx,hy⟩ := Option.bind_eq_some_iff.1 h
    obtain ⟨front,rfl,-⟩ := exists_front (hf.suffix hx) (length_tail_le ((hg x).suffix hy))
    rw [hf.cut hx]
    exact (hg x).cut hy

theorem Local.filterMap {g : α → Option β} (hf : Local f) :
    Local fun t => (f t).bind fun r => (g r.1).map (·,r.2) := by
  refine Local.bind (g := fun x t => (g x).map (·,t)) hf fun x => ?_
  cases g x with
  | none => exact Local.none
  | some y => exact Local.pure y

theorem Local.map {g : α → β} (hf : Local f) : Local fun t => (f t).map fun r => (g r.1,r.2) where
  suffix h := by
    obtain ⟨⟨x,rest⟩,hx,hy⟩ := Option.map_eq_some_iff.1 h
    cases hy
    exact hf.suffix hx
  cut h := by
    obtain ⟨⟨x,rest⟩,hx,hy⟩ := Option.map_eq_some_iff.1 h
    obtain ⟨rfl,rfl⟩ := Prod.mk.inj hy
    rw [hf.cut hx]
    rfl

theorem Local.ite {b : Prop} [Decidable b] (hf : Local f) (hg : Local g) :
    Local fun t => if b then f t else g t := by
  by_cases hb : b
  · simp only [hb,if_true]
    exact hf
  · simp only [hb,if_false]
    exact hg

theorem Local.of_cons (hnil : f [] = .none) (hcons : ∀ c, Local fun t => f (c :: t)) : Local f where
  suffix {t x rest} h := by
    cases t with
    | nil => rw [hnil] at h; cases h
    | cons c t => exact ((hcons c).suffix h).trans (List.suffix_cons c t)
  cut {t tail middle x} h := by
    cases t with
    | nil =>
      cases tail with
      | nil => rw [List.append_nil,hnil] at h; cases h
      | cons c tail =>
        have hlength := ((hcons c).suffix h).length_le
        rw [List.length_append,List.length_cons] at hlength
        omega
    | cons c t => exact (hcons c).cut h

/-- A reader that looks at a character, and leaves it in the text if it does not take it. -/
theorem Local.of_peek {x : α} (hnil : f [] = some (x,[]))
    (hcons : ∀ c, (Local fun t => f (c :: t)) ∨ ∀ t, f (c :: t) = some (x,c :: t)) : Local f where
  suffix {t y rest} h := by
    cases t with
    | nil =>
      rw [hnil] at h
      cases h
      exact List.suffix_refl _
    | cons c t =>
      rcases hcons c with hlocal | hleft
      · exact (hlocal.suffix h).trans (List.suffix_cons c t)
      · rw [hleft] at h
        cases h
        exact List.suffix_refl _
  cut {t tail middle y} h := by
    cases t with
    | nil =>
      cases tail with
      | nil =>
        rw [List.append_nil,List.append_nil] at h
        exact h
      | cons c tail =>
        rcases hcons c with hlocal | hleft
        · have hlength := (hlocal.suffix h).length_le
          rw [List.length_append,List.length_cons] at hlength
          omega
        · rw [List.nil_append,hleft] at h
          obtain ⟨rfl,hrest⟩ := Prod.mk.inj (Option.some.inj h)
          rw [hnil,List.self_eq_append_left.1 hrest]
    | cons c t =>
      rcases hcons c with hlocal | hleft
      · exact hlocal.cut h
      · rw [List.cons_append,hleft,← List.cons_append] at h
        obtain ⟨rfl,hrest⟩ := Prod.mk.inj (Option.some.inj h)
        rw [hleft,List.append_cancel_right hrest]

theorem Local.behind {c : Char} (hf : Local f) (h : ∀ t x, f (c :: t) ≠ some (x,c :: t)) :
    Local fun t => f (c :: t) where
  suffix {t x rest} h' := by
    rcases List.suffix_cons_iff.1 (hf.suffix h') with rfl | hsuffix
    · exact absurd h' (h t x)
    · exact hsuffix
  cut {t tail middle x} h' := hf.cut h'

end Combinators

section Texts

theorem local_span (p : Char → Bool) : Local fun t => some (t.takeWhile p,t.dropWhile p) where
  suffix h := by
    cases h
    exact List.dropWhile_suffix p
  cut h := by
    obtain ⟨hfound,hrest⟩ := Prod.mk.inj (Option.some.inj h)
    obtain ⟨hdrop,htake⟩ := Text.dropWhile_cut hrest
    rw [hdrop,htake,hfound]

theorem local_trimStart : Local fun t => some ((),Text.trimStart t) :=
  (local_span Text.isBlank).map (g := fun _ => ())

theorem local_splitFirst? (separator : Char) : Local (Text.splitFirst? separator) where
  suffix h := by
    rw [Text.eq_of_splitFirst? h]
    exact (List.suffix_cons _ _).trans (List.suffix_append _ _)
  cut h := Text.splitFirst?_cut h

theorem local_take (n : Nat) :
    Local fun t => if t.length < n then .none else some (t.take n,t.drop n) where
  suffix h := by
    split at h <;> cases h
    exact List.drop_suffix _ _
  cut {t tail middle x} h := by
    split at h
    · cases h
    · next hlength =>
      obtain ⟨rfl,hrest⟩ := Prod.mk.inj (Option.some.inj h)
      have hdrop := congrArg List.length hrest
      rw [List.length_drop,List.length_append,List.length_append] at hdrop
      rw [List.length_append] at hlength
      have hle : n ≤ t.length := by omega
      rw [List.drop_append_of_le_length hle] at hrest
      rw [if_neg (Nat.not_lt.2 hle),List.append_cancel_right hrest,
        List.take_append_of_le_length hle]

theorem skipBlanks_go_suffix (inComment : Bool) (t : Text) : skipBlanks.go inComment t <:+ t := by
  induction t generalizing inComment with
  | nil => exact List.suffix_refl _
  | cons c t ih =>
    rw [skipBlanks.go]
    split
    · exact (ih _).trans (List.suffix_cons c t)
    · split
      · exact (ih _).trans (List.suffix_cons c t)
      · split
        · exact (ih _).trans (List.suffix_cons c t)
        · exact List.suffix_refl _

theorem skipBlanks_go_cut {inComment : Bool}
    (h : skipBlanks.go inComment (t ++ tail) = middle ++ tail) :
    skipBlanks.go inComment t = middle := by
  induction t generalizing inComment with
  | nil =>
    have hsuffix := skipBlanks_go_suffix inComment tail
    rw [← List.nil_append tail,h] at hsuffix
    exact (eq_nil_of_append_suffix hsuffix).symm
  | cons c t ih =>
    rw [List.cons_append,skipBlanks.go] at h
    rw [skipBlanks.go]
    split at h
    · next hc => rw [if_pos hc]; exact ih h
    · next hc =>
      rw [if_neg hc]
      split at h
      · next hb => rw [if_pos hb]; exact ih h
      · next hb =>
        rw [if_neg hb]
        split at h
        · next hs => rw [if_pos hs]; exact ih h
        · next hs =>
          rw [if_neg hs]
          exact List.append_cancel_right h

theorem local_skipBlanks (flags : Flags) : Local fun t => some ((),skipBlanks flags t) := by
  have hgo (inComment : Bool) : Local fun t => some ((),skipBlanks.go inComment t) := by
    refine ⟨fun h => ?_,fun h => ?_⟩
    · cases h
      exact skipBlanks_go_suffix inComment _
    · rw [skipBlanks_go_cut (Prod.mk.inj (Option.some.inj h)).2]
  unfold skipBlanks
  cases flags.ignoreBlanks
  · exact Local.pure ()
  · exact hgo false

theorem local_cut? (needle : Text) : Local (Text.cut? needle) where
  suffix h := by
    rw [Text.eq_of_cut? h]
    exact List.suffix_append _ _
  cut {t tail middle found} h := by
    induction t generalizing found with
    | nil =>
      have hlength := congrArg List.length (Text.eq_of_cut? h)
      simp only [List.nil_append,List.length_append] at hlength
      obtain rfl : needle = [] := List.length_eq_zero_iff.1 (by omega)
      obtain rfl : middle = [] := List.length_eq_zero_iff.1 (by omega)
      obtain rfl : found = [] := List.length_eq_zero_iff.1 (by omega)
      rfl
    | cons c t ih =>
      rw [List.cons_append,Text.cut?,← List.cons_append] at h
      rw [Text.cut?]
      split at h
      · next rest hrest =>
        cases h
        rw [Text.stripPrefix?_eq_some_iff,← List.append_assoc] at hrest
        rw [Text.stripPrefix?_eq_some_iff.2 (List.append_cancel_right hrest)]
      · next hnone =>
        obtain ⟨⟨found,rest⟩,hfound,heq⟩ := Option.map_eq_some_iff.1 h
        cases heq
        cases hstrip : Text.stripPrefix? needle (c :: t) with
        | none => rw [ih hfound]; rfl
        | some rest =>
          have hmore : Text.stripPrefix? needle (c :: t ++ tail) = some (rest ++ tail) := by
            rw [Text.stripPrefix?_eq_some_iff] at hstrip ⊢
            rw [hstrip,List.append_assoc]
          rw [hnone] at hmore
          cases hmore

theorem cut?_append {needle found : Text} (h : Text.cut? needle t = some (found,rest))
    (tail : Text) : Text.cut? needle (t ++ tail) = some (found,rest ++ tail) := by
  induction t generalizing found with
  | nil =>
    rw [Text.cut?] at h
    split at h
    · next hneedle =>
      cases h
      rw [hneedle]
      cases tail <;> rfl
    · cases h
  | cons c t ih =>
    rw [Text.cut?] at h
    rw [List.cons_append,Text.cut?]
    split at h
    · next left hstrip =>
      cases h
      rw [Text.stripPrefix?_eq_some_iff] at hstrip
      rw [← List.cons_append,hstrip,List.append_assoc,Text.stripPrefix?_eq_some_iff.2 rfl]
    · next hnone =>
      obtain ⟨⟨found,left⟩,hfound,heq⟩ := Option.map_eq_some_iff.1 h
      cases heq
      cases hstrip : Text.stripPrefix? needle (c :: (t ++ tail)) with
      | none => rw [ih hfound]; rfl
      | some left =>
        -- The needle is no longer than what is known to hold it.
        rw [Text.stripPrefix?_eq_some_iff,← List.cons_append] at hstrip
        have hlength := congrArg List.length (Text.eq_of_cut? hfound)
        rw [List.length_append,List.length_append] at hlength
        obtain ⟨more,hmore⟩ := List.prefix_of_prefix_length_le ⟨left,hstrip.symm⟩
          (List.prefix_append (c :: t) tail) (by rw [List.length_cons]; omega)
        rw [Text.stripPrefix?_eq_some_iff.2 hmore.symm] at hnone
        cases hnone

end Texts

section Escapes

theorem local_readHex (bytes : Bool) {count : Nat} (hcount : 0 < count) :
    Local (readHex bytes count) := by
  obtain ⟨n,rfl⟩ := Nat.exists_eq_succ_of_ne_zero (Nat.ne_of_gt hcount)
  refine Local.of_cons rfl fun c => ?_
  by_cases hc : c = '\x7b'
  · have hbraces : (fun t => readHex bytes (n + 1) (c :: t)) = fun t =>
        (Text.splitFirst? '\x7d' t).bind fun r => (charOfHex? r.1).map (·,r.2) := by
      funext t
      rw [hc,readHex]
      cases Text.splitFirst? '\x7d' t <;> rfl
    rw [hbraces]
    exact (local_splitFirst? _).filterMap
  · have hdigits : (fun t => readHex bytes (n + 1) (c :: t)) = fun t =>
        (if t.length < n then none else some (t.take n,t.drop n)).bind fun r =>
          ((charOfHex? (c :: r.1)).filter fun c => !bytes || c.toNat < 0x80).map (·,r.2) := by
      funext t
      rw [readHex.eq_def]
      split
      · next heq => exact absurd (List.cons.inj heq).1 hc
      · rw [List.length_cons,List.take_succ_cons,List.drop_succ_cons]
        by_cases hlength : t.length < n
        · rw [if_pos hlength,if_pos (Nat.succ_lt_succ hlength)]
          rfl
        · rw [if_neg hlength,if_neg (fun h => hlength (Nat.lt_of_succ_lt_succ h))]
          rfl
    rw [hdigits]
    exact (local_take n).filterMap (g := fun digits =>
      (charOfHex? (c :: digits)).filter fun c => !bytes || c.toNat < 0x80)

theorem local_readEscape (flags : Flags) : Local (readEscape flags) := by
  refine Local.of_cons rfl fun c => ?_
  simp only [readEscape]
  have hhex (bytes : Bool) {n : Nat} (hn : 0 < n) :=
    (local_readHex bytes hn).map (g := Escape.char)
  refine .ite (hhex _ (by decide)) (.ite (hhex _ (by decide)) (.ite (hhex _ (by decide)) ?_))
  repeat refine .ite (.pure _) ?_
  exact .none

end Escapes

end Realm.Pattern
