import Realm.Proofs.Pattern.Local

/-! Sets of characters are read no further than to their closing bracket. A hyphen before the
bracket is the one sign that is told by what comes behind it, and what comes there is still part
of the set. -/
namespace Realm.Pattern

variable {α β : Type} {t tail middle rest : Text}

section Sets

variable {flags : Flags}

theorem local_readItem (c : Char) : Local (readItem flags c) :=
  .ite (local_readEscape flags) (.pure _)

theorem leadingHyphens_span (hflags : flags.ignoreBlanks = false) (o : OpenSet) (t : Text) :
    leadingHyphens flags o t =
      ((t.takeWhile (· = '-')).foldl (fun o _ => o.add (.char '-')) o,t.dropWhile (· = '-')) := by
  induction t generalizing o with
  | nil => rfl
  | cons c t ih =>
    by_cases hc : c = '-'
    · rw [hc,leadingHyphens,hflags,if_neg Bool.false_ne_true,ih,
        List.takeWhile_cons_of_pos rfl,List.dropWhile_cons_of_pos rfl,List.foldl_cons]
    · rw [List.takeWhile_cons_of_neg (by simpa using hc),
        List.dropWhile_cons_of_neg (by simpa using hc),leadingHyphens]
      · rfl
      · rintro t' heq
        exact hc (List.cons.inj heq).1

theorem leadingHyphens_other {c : Char} (hc : c ≠ '-') (o : OpenSet) (t : Text) :
    leadingHyphens flags o (c :: t) = (o,c :: t) := by
  rw [leadingHyphens]
  rintro t' heq
  exact hc (List.cons.inj heq).1

theorem local_leadingHyphens (o : OpenSet) : Local fun t => some (leadingHyphens flags o t) := by
  cases hflags : flags.ignoreBlanks with
  | true =>
    refine Local.of_peek rfl fun c => ?_
    by_cases hc : c = '-'
    · left
      simp only [hc,leadingHyphens,hflags,if_true]
      exact (local_skipBlanks flags).map (g := fun _ => o.add (.char '-'))
    · exact .inr fun t => congrArg some (leadingHyphens_other hc o t)
  | false =>
    have hspan : (fun t => some (leadingHyphens flags o t)) = fun t =>
        (some (t.takeWhile (· = '-'),t.dropWhile (· = '-'))).map fun r =>
          (r.1.foldl (fun o _ => o.add (.char '-')) o,r.2) := by
      funext t
      rw [leadingHyphens_span hflags]
      rfl
    rw [hspan]
    exact (local_span _).map (g := fun hyphens => hyphens.foldl (fun o _ => o.add (.char '-')) o)

def negation (flags : Flags) (t : Text) : Bool × Text :=
  match t with
  | '^' :: t => (true,skipBlanks flags t)
  | t => (false,t)

theorem negation_other {c : Char} (hc : c ≠ '^') (t : Text) :
    negation flags (c :: t) = (false,c :: t) := by
  unfold negation
  split
  · next heq => exact absurd (List.cons.inj heq).1 hc
  · rfl

theorem local_negation : Local fun t => some (negation flags t) := by
  refine Local.of_peek rfl fun c => ?_
  by_cases hc : c = '^'
  · subst hc
    exact .inl ((local_skipBlanks flags).map (g := fun _ => true))
  · exact .inr fun t => congrArg some (negation_other hc t)

def firstBracket (flags : Flags) : OpenSet × Text → OpenSet × Text
  | (⟨negated,left,.none⟩,']' :: t) => (⟨negated,left,.char ']'⟩,skipBlanks flags t)
  | r => r

theorem firstBracket_other {o : OpenSet} {t : Text}
    (h : ∀ t', o.items = .none → t = ']' :: t' → False) : firstBracket flags (o,t) = (o,t) := by
  unfold firstBracket
  split
  · next heq =>
    cases heq
    exact (h _ rfl rfl).elim
  · rfl

theorem local_firstBracket (o : OpenSet) : Local fun t => some (firstBracket flags (o,t)) := by
  refine Local.of_peek (congrArg some (firstBracket_other (by simp))) fun c => ?_
  by_cases h : o.items = .none ∧ c = ']'
  · obtain ⟨hitems,rfl⟩ := h
    obtain ⟨negated,left,items⟩ := o
    cases hitems
    exact .inl ((local_skipBlanks flags).map
      (g := fun _ => (⟨negated,left,.char ']'⟩ : OpenSet)))
  · refine .inr fun t => congrArg some (firstBracket_other fun t' hitems heq => ?_)
    exact h ⟨hitems,(List.cons.inj heq).1⟩

theorem local_beginSet : Local fun t => some (beginSet flags t) :=
  (local_skipBlanks flags).bind fun _ => local_negation.bind fun negated =>
    (@local_leadingHyphens flags ⟨negated,none,.none⟩).bind local_firstBracket

theorem beginSet_suffix (t : Text) : (beginSet flags t).2 <:+ t :=
  local_beginSet.suffix (congrArg some (Prod.eta (beginSet flags t)).symm)

theorem namedClass_eq (negated : Bool) (t : Text) :
    (match Text.cut? [':',']'] t with
      | some (name,rest) => (CharClass.ofName? name).map fun k =>
          (if negated then CharSet.compl (flags.fold (.named k)) else .named k,rest)
      | none => none) =
    (Text.cut? [':',']'] t).bind fun r => ((CharClass.ofName? r.1).map fun k =>
      if negated then CharSet.compl (flags.fold (.named k)) else .named k).map (·,r.2) := by
  cases Text.cut? [':',']'] t with
  | none => rfl
  | some r => cases h : CharClass.ofName? r.1 <;> simp [h]

theorem readNamedClass_colon (t : Text) :
    readNamedClass flags (':' :: t) = (some (negation {} t)).bind fun r =>
      (Text.cut? [':',']'] r.2).bind fun r' =>
        ((CharClass.ofName? r'.1).map fun k =>
          if r.1 then CharSet.compl (flags.fold (.named k)) else .named k).map (·,r'.2) :=
  namedClass_eq (negation {} t).1 (negation {} t).2

theorem local_readNamedClass : Local (readNamedClass flags) := by
  refine Local.of_cons rfl fun c => ?_
  by_cases hc : c = ':'
  · subst hc
    simp only [readNamedClass_colon]
    exact local_negation.bind fun negated => (local_cut? _).filterMap
      (g := fun name => (CharClass.ofName? name).map fun k =>
        if negated then CharSet.compl (flags.fold (.named k)) else .named k)
  · have hnone (t : Text) : readNamedClass flags (c :: t) = none := by
      unfold readNamedClass
      split
      · next heq => exact absurd (List.cons.inj heq).1 hc
      · rfl
    simp only [hnone]
    exact .none

theorem readNamedClass_isSome (h : (readNamedClass flags t).isSome = true) (tail : Text) :
    (readNamedClass flags (t ++ tail)).isSome = true := by
  obtain ⟨r,hr⟩ := Option.isSome_iff_exists.1 h
  cases t with
  | nil => cases hr
  | cons c t =>
    by_cases hc : c = ':'
    · subst hc
      rw [readNamedClass_colon,Option.bind_some] at hr
      rw [List.cons_append,readNamedClass_colon,Option.bind_some]
      obtain ⟨⟨name,rest⟩,hname,hclass⟩ := Option.bind_eq_some_iff.1 hr
      have hnegation : negation {} (t ++ tail) =
          ((negation {} t).1,(negation {} t).2 ++ tail) := by
        cases t with
        | nil => cases hname
        | cons c t =>
          by_cases hc : c = '^'
          · rw [hc]
            rfl
          · simp [negation_other hc]
      rw [hnegation]
      dsimp only
      rw [cut?_append hname,Option.bind_some]
      obtain ⟨s,hs,-⟩ := Option.map_eq_some_iff.1 hclass
      dsimp only at hs ⊢
      rw [hs]
      rfl
    · unfold readNamedClass at hr
      split at hr
      · next heq => exact absurd (List.cons.inj heq).1 hc
      · cases hr

/-- The set of an item that is not the beginning of a range. -/
def Escape.set? : Escape → Option CharSet
  | .char c => some (.char c)
  | .set s => some s
  | .boundary _ => none

def rangeStop (flags : Flags) (item : Escape) (d : Char) (t : Text) : Option (CharSet × Text) :=
  (readItem flags d t).bind fun r =>
    match item,r.1 with
    | .char a,.char b => if a ≤ b then some (.range a b,r.2) else none
    | _,_ => none

/-- The set that an item comes to: a hyphen behind it makes it the beginning of a range, unless
another hyphen or the end of the set comes next. -/
def rangeFrom (flags : Flags) (item : Escape) (single : CharSet) (rest : Text) :
    Option (CharSet × Text) :=
  match rest with
  | '-' :: after =>
    match skipBlanks flags after with
    | [] => none
    | d :: t => if d = ']' ∨ d = '-' then some (single,rest) else rangeStop flags item d t
  | _ => some (single,rest)

theorem readRange_eq (c : Char) (t : Text) :
    readRange flags c t = (readItem flags c t).bind fun r =>
      (r.1.set?).bind fun single => rangeFrom flags r.1 single (skipBlanks flags r.2) := by
  unfold readRange
  cases readItem flags c t with
  | none => rfl
  | some r =>
    obtain ⟨item,rest⟩ := r
    cases item <;> rfl

theorem local_rangeStop (item : Escape) (d : Char) : Local (rangeStop flags item d) := by
  refine Local.bind (g := fun stop rest => match item,stop with
    | .char a,.char b => if a ≤ b then some (CharSet.range a b,rest) else none
    | _,_ => none) (local_readItem d) fun stop => ?_
  split
  · exact .ite (.pure _) .none
  · exact .none

variable {item : Escape} {single found : CharSet}

theorem rangeFrom_hyphen (after : Text) :
    rangeFrom flags item single ('-' :: after) =
      match skipBlanks flags after with
      | [] => none
      | d :: t =>
        if d = ']' ∨ d = '-' then some (single,'-' :: after) else rangeStop flags item d t :=
  rfl

theorem rangeFrom_other {c : Char} (hc : c ≠ '-') :
    rangeFrom flags item single (c :: t) = some (single,c :: t) := by
  unfold rangeFrom
  split
  · next heq => exact absurd (List.cons.inj heq).1 hc
  · rfl

theorem skipBlanks_suffix (flags : Flags) (t : Text) : skipBlanks flags t <:+ t :=
  (local_skipBlanks flags).suffix rfl

theorem skipBlanks_cut (h : skipBlanks flags (t ++ tail) = middle ++ tail) :
    skipBlanks flags t = middle :=
  (Prod.mk.inj (Option.some.inj ((local_skipBlanks flags).cut
    (congrArg (fun rest => some ((),rest)) h)))).2

theorem rangeFrom_suffix (h : rangeFrom flags item single t = some (found,rest)) :
    rest <:+ t := by
  unfold rangeFrom at h
  split at h
  · next after =>
    split at h
    · cases h
    · next d t' hskip =>
      have hsuffix := skipBlanks_suffix flags after
      rw [hskip] at hsuffix
      split at h
      · cases h
        exact List.suffix_refl _
      · exact ((local_rangeStop item d).suffix h).trans
          (((List.suffix_cons d t').trans hsuffix).trans (List.suffix_cons '-' after))
  · cases h
    exact List.suffix_refl _

theorem rangeFrom_stays (h : rangeFrom flags item single t = some (found,t)) : found = single := by
  unfold rangeFrom at h
  split at h
  · next after =>
    split at h
    · cases h
    · next d t' hskip =>
      split at h
      · cases h
        rfl
      · have hlength := ((local_rangeStop item d).suffix h).length_le
        have hskipped := (skipBlanks_suffix flags after).length_le
        rw [hskip,List.length_cons] at hskipped
        rw [List.length_cons] at hlength
        omega
  · cases h
    rfl

theorem rangeFrom_hyphen_cut
    (h : rangeFrom flags item single ('-' :: (t ++ tail)) = some (found,middle ++ tail))
    (hsees : ∀ m, middle = '-' :: m → tail.length < (skipBlanks flags (m ++ tail)).length) :
    rangeFrom flags item single ('-' :: t) = some (found,middle) := by
  have hsuffix := skipBlanks_suffix flags (t ++ tail)
  rw [rangeFrom_hyphen] at h
  rw [rangeFrom_hyphen]
  cases hskip : skipBlanks flags (t ++ tail) with
  | nil => rw [hskip] at h; cases h
  | cons d t' =>
    rw [hskip] at h hsuffix
    dsimp only at h
    split at h
    · next hd =>
      obtain ⟨rfl,hrest⟩ := Prod.mk.inj (Option.some.inj h)
      rw [← List.cons_append] at hrest
      obtain rfl : '-' :: t = middle := List.append_cancel_right hrest
      have hlength := hsees t rfl
      rw [hskip] at hlength
      obtain ⟨front,hfront,-⟩ := exists_front hsuffix (Nat.le_of_lt hlength)
      cases front with
      | nil =>
        rw [hfront] at hlength
        exact absurd hlength (Nat.lt_irrefl _)
      | cons e front =>
        obtain ⟨rfl,rfl⟩ := List.cons.inj hfront
        have hskip : skipBlanks flags t = d :: front := skipBlanks_cut hskip
        rw [hskip]
        exact if_pos hd
    · next hd =>
      obtain ⟨front,rfl,-⟩ := exists_front ((List.suffix_cons d t').trans hsuffix)
        (length_tail_le ((local_rangeStop item d).suffix h))
      have hskip : skipBlanks flags t = d :: front := skipBlanks_cut hskip
      rw [hskip]
      dsimp only
      rw [if_neg hd]
      exact (local_rangeStop item d).cut h

/-- What is behind a range has no part in it, if it is not needed to tell what follows a hyphen at
the end. -/
theorem rangeFrom_cut (h : rangeFrom flags item single (t ++ tail) = some (found,middle ++ tail))
    (hsees : ∀ m, middle = '-' :: m → tail.length < (skipBlanks flags (m ++ tail)).length) :
    rangeFrom flags item single t = some (found,middle) := by
  cases t with
  | nil =>
    obtain rfl : middle = [] := eq_nil_of_append_suffix (rangeFrom_suffix h)
    rw [rangeFrom_stays h]
    rfl
  | cons c t =>
    by_cases hc : c = '-'
    · subst hc
      exact rangeFrom_hyphen_cut h hsees
    · rw [List.cons_append,rangeFrom_other hc,← List.cons_append] at h
      obtain ⟨rfl,hrest⟩ := Prod.mk.inj (Option.some.inj h)
      rw [rangeFrom_other hc,List.append_cancel_right hrest]

theorem readRange_suffix {c : Char} (h : readRange flags c t = some (found,rest)) :
    rest <:+ t := by
  rw [readRange_eq] at h
  obtain ⟨⟨item,left⟩,hitem,h⟩ := Option.bind_eq_some_iff.1 h
  obtain ⟨single,-,h⟩ := Option.bind_eq_some_iff.1 h
  exact (rangeFrom_suffix h).trans
    ((skipBlanks_suffix flags left).trans ((local_readItem c).suffix hitem))

theorem readRange_cut {c : Char} (h : readRange flags c (t ++ tail) = some (found,middle ++ tail))
    (hsees : ∀ m, middle = '-' :: m → tail.length < (skipBlanks flags (m ++ tail)).length) :
    readRange flags c t = some (found,middle) := by
  rw [readRange_eq] at h ⊢
  obtain ⟨⟨item,left⟩,hitem,h⟩ := Option.bind_eq_some_iff.1 h
  obtain ⟨single,hsingle,h⟩ := Option.bind_eq_some_iff.1 h
  dsimp only at h hsingle
  have hskipped := length_tail_le (rangeFrom_suffix h)
  obtain ⟨front,rfl,-⟩ := exists_front ((local_readItem c).suffix hitem)
    (Nat.le_trans hskipped (skipBlanks_suffix flags left).length_le)
  obtain ⟨inner,hinner,-⟩ := exists_front (skipBlanks_suffix flags (front ++ tail)) hskipped
  rw [hinner] at h
  rw [(local_readItem c).cut hitem,Option.bind_some,hsingle,Option.bind_some,skipBlanks_cut hinner]
  exact rangeFrom_cut h hsees

/-- What a character of a set comes to, with what follows it: the whole set, or sets of which more
is to be read. -/
def setTurn? (flags : Flags) (current : OpenSet) (outer : List OpenSet) (c : Char) (t : Text) :
    Option ((CharSet ⊕ OpenSet × List OpenSet) × Text) :=
  if flags.ignoreBlanks && Text.isBlank c then some (.inr (current,outer),t)
  else if c = '[' then
    match readNamedClass flags t with
    | some (s,rest) => some (.inr (current.add s,outer),rest)
    | none => some (.inr ((beginSet flags t).1,current :: outer),(beginSet flags t).2)
  else if c = ']' then
    match outer with
    | [] => some (.inl (current.close flags),t)
    | parent :: outer => some (.inr (parent.add (current.close flags),outer),t)
  else if c = '&' && t.head? = some '&' then
    some (.inr (current.operate flags .inter,outer),t.drop 1)
  else if c = '-' && t.head? = some '-' then
    some (.inr (current.operate flags .diff,outer),t.drop 1)
  else if c = '~' && t.head? = some '~' then
    some (.inr (current.operate flags .symmDiff,outer),t.drop 1)
  else (readRange flags c t).map fun r => (.inr (current.add r.1,outer),r.2)

variable {current : OpenSet} {outer : List OpenSet} {c : Char}
  {turn : CharSet ⊕ OpenSet × List OpenSet}

theorem setTurn?_suffix (h : setTurn? flags current outer c t = some (turn,rest)) :
    rest <:+ t := by
  unfold setTurn? at h
  split at h
  · cases h
    exact List.suffix_refl _
  · split at h
    · split at h
      · next hclass =>
        cases h
        exact local_readNamedClass.suffix hclass
      · cases h
        exact beginSet_suffix t
    · split at h
      · split at h <;> cases h <;> exact List.suffix_refl _
      · split at h
        · cases h
          exact List.drop_suffix _ _
        · split at h
          · cases h
            exact List.drop_suffix _ _
          · split at h
            · cases h
              exact List.drop_suffix _ _
            · obtain ⟨r,hr,heq⟩ := Option.map_eq_some_iff.1 h
              cases heq
              exact readRange_suffix hr

theorem readSets_cons (current : OpenSet) (outer : List OpenSet) (c : Char) (t : Text) :
    readSets flags current outer (c :: t) =
      match setTurn? flags current outer c t with
      | none => none
      | some (.inl s,rest) => some (s,rest)
      | some (.inr (current,outer),rest) => readSets flags current outer rest := by
  have hself := drop_of_suffix (List.suffix_refl t)
  have hsecond := drop_of_suffix (List.drop_suffix 1 t)
  rw [readSets.eq_def]
  unfold setTurn?
  dsimp only
  split
  · rw [hself]
  · split
    · cases hclass : readNamedClass flags t with
      | none =>
        dsimp only
        rw [drop_of_suffix (beginSet_suffix t)]
      | some r =>
        dsimp only
        rw [drop_of_suffix (local_readNamedClass.suffix hclass)]
    · split
      · split
        · rfl
        · rw [hself]
      · split
        · rw [hsecond]
        · split
          · rw [hsecond]
          · split
            · rw [hsecond]
            · cases hrange : readRange flags c t with
              | none => rfl
              | some r =>
                dsimp only [Option.map_some]
                rw [drop_of_suffix (readRange_suffix hrange)]

@[simp] theorem readSets_nil : readSets flags current outer [] = none := by
  rw [readSets]

theorem readSets_suffix {s : CharSet} (h : readSets flags current outer t = some (s,rest)) :
    rest <:+ t ∧ rest.length < t.length := by
  induction hn : t.length using Nat.strongRecOn generalizing current outer t with
  | _ n ih =>
    cases t with
    | nil => rw [readSets_nil] at h; cases h
    | cons c t =>
      rw [readSets_cons] at h
      rw [List.length_cons] at hn
      split at h
      · cases h
      · next hturn =>
        cases h
        have hsuffix := setTurn?_suffix hturn
        have hlength := hsuffix.length_le
        exact ⟨hsuffix.trans (List.suffix_cons c t),by omega⟩
      · next left hturn =>
        have hsuffix := setTurn?_suffix hturn
        have hlength := hsuffix.length_le
        obtain ⟨hrest,hless⟩ := ih _ (by omega) h rfl
        exact ⟨hrest.trans (hsuffix.trans (List.suffix_cons c t)),by omega⟩

theorem readSets_hyphen {s : CharSet}
    (h : readSets flags current outer ('-' :: t) = some (s,rest)) :
    rest.length < (skipBlanks flags t).length := by
  have hblank : (flags.ignoreBlanks && Text.isBlank '-') = false := Bool.and_false _
  rw [readSets_cons] at h
  unfold setTurn? at h
  simp only [hblank,Bool.false_eq_true,if_false,Char.reduceEq,decide_false,Bool.false_and,
    decide_true,Bool.true_and,decide_eq_true_eq] at h
  by_cases hhead : t.head? = some '-'
  · obtain ⟨t,rfl⟩ := List.head?_eq_some_iff.1 hhead
    rw [if_pos hhead] at h
    have hskip : skipBlanks flags ('-' :: t) = '-' :: t := by
      unfold skipBlanks
      split <;> rfl
    rw [hskip]
    exact Nat.lt_succ_of_lt (readSets_suffix h).2
  · rw [if_neg hhead] at h
    cases hrange : readRange flags '-' t with
    | none => rw [hrange] at h; cases h
    | some r =>
      rw [hrange] at h
      have hlength := (readSets_suffix h).2
      rw [readRange_eq] at hrange
      obtain ⟨found,left⟩ := r
      have hsuffix : left <:+ skipBlanks flags t := rangeFrom_suffix hrange
      exact Nat.lt_of_lt_of_le hlength hsuffix.length_le

theorem doubled_cut {x : Char} {found s : α} {f g : Option (α × Text)}
    (h : (if c = x && (t ++ tail).head? = some x then some (found,(t ++ tail).drop 1) else f) =
      some (s,middle ++ tail))
    (hother : f = some (s,middle ++ tail) → g = some (s,middle)) :
    (if c = x && t.head? = some x then some (found,t.drop 1) else g) = some (s,middle) := by
  simp only [Bool.and_eq_true,decide_eq_true_eq] at h ⊢
  split at h
  · next hdouble =>
    obtain ⟨hc,hhead⟩ := hdouble
    obtain ⟨rfl,hrest⟩ := Prod.mk.inj (Option.some.inj h)
    cases t with
    | nil =>
      obtain ⟨tail,rfl⟩ := List.head?_eq_some_iff.1 hhead
      have hlength := congrArg List.length hrest
      rw [List.nil_append,List.length_drop,List.length_append,List.length_cons] at hlength
      omega
    | cons d t =>
      rw [if_pos ⟨hc,hhead⟩,List.append_cancel_right hrest]
      rfl
  · next hdouble =>
    rw [if_neg,hother h]
    rintro ⟨hc,hhead⟩
    exact hdouble ⟨hc,by rw [List.head?_append,hhead]; rfl⟩

/-- What is behind a turn has no part in it, if it is not needed to tell what follows a hyphen at
the end. -/
theorem setTurn?_cut (h : setTurn? flags current outer c (t ++ tail) = some (turn,middle ++ tail))
    (hsees : ∀ r m, turn = .inr r → middle = '-' :: m →
      tail.length < (skipBlanks flags (m ++ tail)).length) :
    setTurn? flags current outer c t = some (turn,middle) := by
  have hpure {x : CharSet ⊕ OpenSet × List OpenSet}
      (h : some (x,t ++ tail) = some (turn,middle ++ tail)) : some (x,t) = some (turn,middle) := by
    obtain ⟨rfl,hrest⟩ := Prod.mk.inj (Option.some.inj h)
    rw [List.append_cancel_right hrest]
  unfold setTurn? at h ⊢
  split at h
  · next hblank =>
    rw [if_pos hblank]
    exact hpure h
  next hblank =>
  rw [if_neg hblank]
  split at h
  · next hopen =>
    rw [if_pos hopen]
    cases hclass : readNamedClass flags (t ++ tail) with
    | none =>
      have hnone : readNamedClass flags t = none := by
        cases hsome : readNamedClass flags t with
        | none => rfl
        | some r =>
          have hmore := readNamedClass_isSome (by rw [hsome]; rfl) tail
          rw [hclass] at hmore
          cases hmore
      rw [hclass] at h
      rw [hnone]
      obtain ⟨rfl,hrest⟩ := Prod.mk.inj (Option.some.inj h)
      have hcut := local_beginSet.cut (congrArg some (Prod.ext rfl hrest :
        beginSet flags (t ++ tail) = ((beginSet flags (t ++ tail)).1,middle ++ tail)))
      rw [Option.some.inj hcut]
    | some r =>
      obtain ⟨s,left⟩ := r
      rw [hclass] at h
      obtain ⟨rfl,rfl⟩ := Prod.mk.inj (Option.some.inj h)
      rw [local_readNamedClass.cut hclass]
  next hopen =>
  rw [if_neg hopen]
  split at h
  · next hclose =>
    rw [if_pos hclose]
    split at h
    · exact hpure h
    · exact hpure h
  next hclose =>
  rw [if_neg hclose]
  refine doubled_cut h fun h => doubled_cut h fun h => doubled_cut h fun h => ?_
  obtain ⟨⟨s,left⟩,hrange,heq⟩ := Option.map_eq_some_iff.1 h
  obtain ⟨rfl,rfl⟩ := Prod.mk.inj heq
  rw [readRange_cut hrange fun m => hsees _ m rfl]
  rfl

theorem readSets_cut {s : CharSet}
    (h : readSets flags current outer (t ++ tail) = some (s,middle ++ tail)) :
    readSets flags current outer t = some (s,middle) := by
  induction hn : t.length using Nat.strongRecOn generalizing current outer t with
  | _ n ih =>
    cases t with
    | nil =>
      have hlength := (readSets_suffix h).2
      rw [List.nil_append,List.length_append] at hlength
      omega
    | cons c t =>
      rw [List.cons_append,readSets_cons] at h
      rw [readSets_cons]
      cases hturn : setTurn? flags current outer c (t ++ tail) with
      | none => rw [hturn] at h; cases h
      | some r =>
        obtain ⟨turn,left⟩ := r
        rw [hturn] at h
        cases turn with
        | inl s' =>
          cases h
          rw [setTurn?_cut hturn fun _ _ heq => by cases heq]
        | inr sets =>
          obtain ⟨hsuffix,hless⟩ := readSets_suffix h
          obtain ⟨front,rfl,hfront⟩ := exists_front (setTurn?_suffix hturn) (length_tail_le hsuffix)
          have hsees (m : Text) (hm : front = '-' :: m) :
              tail.length < (skipBlanks flags (m ++ tail)).length := by
            subst hm
            exact Nat.lt_of_le_of_lt (List.suffix_append middle tail).length_le
              (readSets_hyphen h)
          rw [setTurn?_cut hturn fun _ m _ hm => hsees m hm]
          have hlength := hfront.length_le
          rw [List.length_cons] at hn
          exact ih _ (by omega) h rfl

theorem local_readSet : Local (readSet flags) := by
  have hsets (o : OpenSet) : Local (readSets flags o []) :=
    ⟨fun h => (readSets_suffix h).1,readSets_cut⟩
  exact local_beginSet.bind hsets

end Sets

end Realm.Pattern
