import Realm.Pattern.Reader
import Realm.Proofs.Pattern.Sets

/-! The parts of a pattern are read without a look at what follows them: repetitions, the begin
of a group, escapes. Only a boundary asks whether a brace behind it is the last character. -/
namespace Realm.Pattern

variable {flags : Flags} {t tail middle rest : Text}

theorem local_readLaziness : Local fun t => some (readLaziness flags t) := by
  refine Local.of_peek (x := !flags.swapGreed) rfl fun c => ?_
  by_cases hc : c = '?'
  · subst hc
    exact .inl (.pure _)
  · right
    intro t
    unfold readLaziness
    split
    · next heq => exact absurd (List.cons.inj heq).1 hc
    · rfl

theorem local_readNumber : Local readNumber := by
  have hnumber : readNumber = fun t =>
      (some ((),Text.trimStart t)).bind fun r =>
        (some (r.2.takeWhile Text.isDigit,r.2.dropWhile Text.isDigit)).bind fun r =>
          if r.1 = [] || Text.digitsValue r.1 ≥ 0x100000000 then none
          else some (Text.digitsValue r.1,Text.trimStart r.2) := rfl
  have hvalue (digits : Text) : Local fun t =>
      if digits = [] || Text.digitsValue digits ≥ 0x100000000 then none
      else some (Text.digitsValue digits,Text.trimStart t) :=
    .ite .none (local_trimStart.map (g := fun _ => Text.digitsValue digits))
  rw [hnumber]
  exact local_trimStart.bind fun _ => (local_span Text.isDigit).bind hvalue

def boundsStop (min : Nat) (max : Option Nat) : Text → Option ((Nat × Option Nat) × Text)
  | '\x7d' :: t => if max.all (min ≤ ·) then some ((min,max),t) else none
  | _ => none

def boundsMax (min : Nat) (t : Text) : Option ((Nat × Option Nat) × Text) :=
  match t with
  | '\x7d' :: t => some ((min,none),t)
  | t => (readNumber t).bind fun r => boundsStop min (some r.1) r.2

def boundsRest (flags : Flags) (min : Nat) (t : Text) : Option ((Nat × Option Nat) × Text) :=
  match t with
  | ',' :: t => boundsMax min (skipBlanks flags t)
  | t => boundsStop min (some min) t

theorem readBounds_eq (t : Text) :
    readBounds flags t = (readNumber t).bind fun r => boundsRest flags r.1 r.2 := by
  unfold readBounds
  cases readNumber t with
  | none => rfl
  | some r =>
    obtain ⟨min,rest⟩ := r
    simp only [Option.bind_eq_bind,Option.bind_some]
    split
    · next t =>
      change _ = boundsMax min (skipBlanks flags t)
      generalize skipBlanks flags t = t
      split
      · rfl
      · next hbrace =>
        rw [boundsMax.eq_2 _ _ hbrace]
        cases readNumber t <;> rfl
    · next hcomma =>
      rw [boundsRest.eq_2 _ _ _ hcomma]
      rfl

theorem boundsStop_other {c : Char} (hc : c ≠ '\x7d') (min : Nat) (max : Option Nat) (t : Text) :
    boundsStop min max (c :: t) = none := by
  unfold boundsStop
  split
  · next heq => exact absurd (List.cons.inj heq).1 hc
  · rfl

theorem local_boundsStop (min : Nat) (max : Option Nat) : Local (boundsStop min max) := by
  refine Local.of_cons rfl fun c => ?_
  by_cases hc : c = '\x7d'
  · subst hc
    exact .ite (.pure _) .none
  · simp only [boundsStop_other hc]
    exact .none

theorem boundsStop_length {min : Nat} {max : Option Nat} {x : Nat × Option Nat}
    (h : boundsStop min max t = some (x,rest)) : rest.length < t.length := by
  unfold boundsStop at h
  split at h
  · split at h <;> cases h
    exact Nat.lt_succ_self _
  · cases h

theorem local_boundsMax (min : Nat) : Local (boundsMax min) := by
  refine Local.of_cons rfl fun c => ?_
  by_cases hc : c = '\x7d'
  · subst hc
    exact .pure _
  · have hnumber (t : Text) : boundsMax min (c :: t) =
        (readNumber (c :: t)).bind fun r => boundsStop min (some r.1) r.2 :=
      boundsMax.eq_2 _ _ fun _ heq => hc (List.cons.inj heq).1
    simp only [hnumber]
    refine (local_readNumber.bind fun n => local_boundsStop min (some n)).behind fun t x h => ?_
    obtain ⟨⟨n,left⟩,hnumber,hstop⟩ := Option.bind_eq_some_iff.1 h
    have hlength := (local_readNumber.suffix hnumber).length_le
    exact Nat.lt_irrefl _ (Nat.lt_of_lt_of_le (boundsStop_length hstop) hlength)

theorem local_boundsRest (min : Nat) : Local (boundsRest flags min) := by
  refine Local.of_cons rfl fun c => ?_
  by_cases hc : c = ','
  · subst hc
    exact (local_skipBlanks flags).bind fun _ => local_boundsMax min
  · have hstop (t : Text) : boundsRest flags min (c :: t) = boundsStop min (some min) (c :: t) :=
      boundsRest.eq_2 _ _ _ fun _ heq => hc (List.cons.inj heq).1
    simp only [hstop]
    exact (local_boundsStop min (some min)).behind fun t x h =>
      Nat.lt_irrefl _ (boundsStop_length h)

theorem local_readBounds : Local (readBounds flags) := by
  simp only [funext readBounds_eq]
  exact local_readNumber.bind local_boundsRest

def groupName? : Text → Option Text
  | c :: name => if isNameFirst c && name.all isNameRest then some (c :: name) else none
  | [] => none

theorem readGroupName_eq (t : Text) :
    readGroupName t = (Text.splitFirst? '>' t).bind fun r => (groupName? r.1).map (·,r.2) := by
  unfold readGroupName
  rcases Text.splitFirst? '>' t with _ | ⟨_ | ⟨c,name⟩,rest⟩
  · rfl
  · rfl
  · dsimp only [Option.bind_some,groupName?]
    split <;> rfl

theorem local_readGroupName : Local readGroupName := by
  simp only [funext readGroupName_eq]
  exact (local_splitFirst? '>').filterMap (g := groupName?)

theorem readFlags_suffix {used : List Char} {on : Bool} {found : Flags}
    (h : readFlags flags used on t = some (found,rest)) : rest <:+ t := by
  induction t generalizing flags used on with
  | nil => cases h
  | cons c t ih =>
    rw [readFlags] at h
    split at h
    · split at h <;> cases h
      exact List.suffix_refl _
    · split at h
      · cases h
      · split at h
        · exact (ih h).trans (List.suffix_cons c t)
        · split at h
          · exact (ih h).trans (List.suffix_cons c t)
          · cases h

theorem readFlags_cut {used : List Char} {on : Bool} {found : Flags} {c : Char}
    (h : readFlags flags used on (t ++ tail) = some (found,c :: middle ++ tail)) :
    readFlags flags used on t = some (found,c :: middle) := by
  induction t generalizing flags used on with
  | nil => cases eq_nil_of_append_suffix (readFlags_suffix h)
  | cons d t ih =>
    rw [List.cons_append,readFlags] at h
    rw [readFlags]
    split at h
    · next hd =>
      rw [if_pos hd]
      split at h
      · cases h
      · next hused =>
        rw [if_neg hused]
        rw [← List.cons_append] at h
        obtain ⟨rfl,hrest⟩ := Prod.mk.inj (Option.some.inj h)
        rw [List.append_cancel_right hrest]
    · next hd =>
      rw [if_neg hd]
      split at h
      · cases h
      · next hused =>
        rw [if_neg hused]
        split at h
        · next hhyphen =>
          rw [if_pos hhyphen]
          exact ih h
        · next hhyphen =>
          rw [if_neg hhyphen]
          split at h
          · exact ih h
          · cases h

def readFlagsEnd (flags : Flags) (t : Text) : Option (GroupStart × Text) :=
  match readFlags flags [] true t with
  | some (flags,':' :: rest) => some (.group .plain flags,rest)
  | some (flags,')' :: rest) => some (.directive flags,rest)
  | _ => none

theorem local_readFlagsEnd : Local (readFlagsEnd flags) where
  suffix h := by
    unfold readFlagsEnd at h
    split at h
    · next hflags => cases h; exact (List.suffix_cons _ _).trans (readFlags_suffix hflags)
    · next hflags => cases h; exact (List.suffix_cons _ _).trans (readFlags_suffix hflags)
    · cases h
  cut h := by
    unfold readFlagsEnd at h ⊢
    split at h
    · next hflags =>
      obtain ⟨rfl,rfl⟩ := Prod.mk.inj (Option.some.inj h)
      rw [readFlags_cut hflags]
      rfl
    · next hflags =>
      obtain ⟨rfl,rfl⟩ := Prod.mk.inj (Option.some.inj h)
      rw [readFlags_cut hflags]
      rfl
    · cases h

theorem readFlagsEnd_ne (t : Text) (x : GroupStart) : readFlagsEnd flags t ≠ some (x,t) := by
  have hne {found : Flags} {c : Char} (hflags : readFlags flags [] true t = some (found,c :: t)) :
      False := by
    have hlength := (readFlags_suffix hflags).length_le
    rw [List.length_cons] at hlength
    omega
  intro h
  unfold readFlagsEnd at h
  split at h
  · next hflags => cases h; exact hne hflags
  · next hflags => cases h; exact hne hflags
  · cases h

theorem readGroupStart_counted {c : Char} (hc : c ≠ '?') (t : Text) :
    readGroupStart flags (c :: t) = some (.group .counted flags,c :: t) := by
  unfold readGroupStart
  split
  · next heq => exact absurd (List.cons.inj heq).1 hc
  · next heq => exact absurd (List.cons.inj heq).1 hc
  · next heq => exact absurd (List.cons.inj heq).1 hc
  · next heq => exact absurd (List.cons.inj heq).1 hc
  · rfl

theorem readGroupStart_letter {e : Char} (he : e ≠ '<') (t : Text) :
    readGroupStart flags ('?' :: 'P' :: e :: t) = none := by
  unfold readGroupStart
  split
  · next heq => cases heq; exact absurd rfl he
  · next heq => cases heq
  · next heq => cases heq
  · next heq => cases heq; rfl
  · next hother => exact absurd rfl (hother _)

theorem readGroupStart_flags {d : Char} (hd : d ≠ '<') (hp : d ≠ 'P') (t : Text) :
    readGroupStart flags ('?' :: d :: t) =
      if d = ')' then none else readFlagsEnd flags (d :: t) := by
  unfold readGroupStart
  split
  · next heq => cases heq; exact absurd rfl hp
  · next heq => cases heq; exact absurd rfl hd
  · next heq => cases heq; rfl
  · next hclose heq =>
    cases heq
    rw [if_neg fun hd => hclose _ (by rw [hd])]
    rfl
  · next hother => exact absurd rfl (hother _)

theorem local_readGroupStart : Local (readGroupStart flags) := by
  have hnamed : Local fun t =>
      (readGroupName t).map fun r => (GroupStart.group (.named r.1) flags,r.2) :=
    local_readGroupName.map (g := fun name => GroupStart.group (.named name) flags)
  refine Local.of_peek (x := .group .counted flags) rfl fun c => ?_
  by_cases hc : c = '?'
  · subst hc
    refine .inl (Local.of_cons rfl fun d => ?_)
    by_cases hangle : d = '<'
    · subst hangle
      exact hnamed
    by_cases hp : d = 'P'
    · subst hp
      refine Local.of_cons rfl fun e => ?_
      by_cases he : e = '<'
      · subst he
        exact hnamed
      · simp only [readGroupStart_letter he]
        exact .none
    · simp only [readGroupStart_flags hangle hp]
      exact .ite .none (local_readFlagsEnd.behind fun t x => readFlagsEnd_ne (d :: t) x)
  · exact .inr (readGroupStart_counted hc)

def isKindLetter (c : Char) : Bool :=
  c.isAlpha || c = '-'

def readKind (unicode : Bool) (t : Text) : Option (Look × Text) :=
  match t.drop (t.takeWhile isKindLetter).length with
  | '\x7d' :: rest =>
    [("start",Look.wordStart unicode),("end",.wordEnd unicode),
      ("start-half",.wordStartHalf unicode),("end-half",.wordEndHalf unicode)].findSome? fun e =>
        if e.1.toList = t.takeWhile isKindLetter then some (e.2,rest) else none
  | _ => none

theorem findSome?_behind (kinds : List (String × Look)) (letters t : Text) :
    (kinds.findSome? fun e => if e.1.toList = letters then some (e.2,t) else none) =
      (kinds.findSome? fun e => if e.1.toList = letters then some e.2 else none).map (·,t) := by
  induction kinds with
  | nil => rfl
  | cons e kinds ih =>
    rw [List.findSome?_cons,List.findSome?_cons]
    by_cases he : e.1.toList = letters
    · rw [if_pos he,if_pos he]
      rfl
    · rw [if_neg he,if_neg he]
      exact ih

theorem readKind_eq_some {l : Look} (h : readKind unicode t = some (l,rest)) :
    t.dropWhile isKindLetter = '\x7d' :: rest ∧
      ([("start",Look.wordStart unicode),("end",.wordEnd unicode),
        ("start-half",.wordStartHalf unicode),("end-half",.wordEndHalf unicode)].findSome? fun e =>
          if e.1.toList = t.takeWhile isKindLetter then some e.2 else none) = some l := by
  rw [readKind,Text.drop_takeWhile] at h
  split at h
  · next hdrop =>
    rw [findSome?_behind] at h
    obtain ⟨_,hkind,heq⟩ := Option.map_eq_some_iff.1 h
    cases heq
    exact ⟨hdrop,hkind⟩
  · cases h

theorem local_readKind : Local (readKind unicode) where
  suffix {t l rest} h := by
    have hsuffix := List.dropWhile_suffix (l := t) isKindLetter
    rw [(readKind_eq_some h).1] at hsuffix
    exact (List.suffix_cons _ _).trans hsuffix
  cut h := by
    obtain ⟨hdrop,hkind⟩ := readKind_eq_some h
    rw [← List.cons_append] at hdrop
    obtain ⟨hdrop,htake⟩ := Text.dropWhile_cut hdrop
    rw [← htake] at hkind
    rw [readKind,Text.drop_takeWhile,hdrop]
    exact (findSome?_behind _ _ _).trans (by rw [hkind]; rfl)

variable {unicode : Bool} {c : Char} {l : Look}

theorem local_readBoundary (hc : c ∈ ['A','z','B','<','>']) : Local (readBoundary unicode c) := by
  simp only [List.mem_cons,List.not_mem_nil,or_false] at hc
  rcases hc with rfl | rfl | rfl | rfl | rfl
  all_goals exact .pure _

theorem readBoundary_brace (hc : c ∉ ['A','z','B','<','>']) (t : Text) :
    readBoundary unicode c ('\x7b' :: t) =
      if t.takeWhile isKindLetter = [] then
        if t = [] then none else some (.wordBoundary unicode,'\x7b' :: t)
      else readKind unicode t := by
  simp only [List.mem_cons,List.not_mem_nil,or_false,not_or] at hc
  exact readBoundary.eq_6 unicode c t hc.1 hc.2.1 hc.2.2.1 hc.2.2.2.1 hc.2.2.2.2

theorem readBoundary_other (hc : c ∉ ['A','z','B','<','>']) (ht : t.head? ≠ some '\x7b') :
    readBoundary unicode c t = some (.wordBoundary unicode,t) := by
  simp only [List.mem_cons,List.not_mem_nil,or_false,not_or] at hc
  exact readBoundary.eq_7 unicode c t hc.1 hc.2.1 hc.2.2.1 hc.2.2.2.1 hc.2.2.2.2 fun _ heq =>
    ht (by rw [heq]; rfl)

theorem readBoundary_suffix (h : readBoundary unicode c t = some (l,rest)) : rest <:+ t := by
  by_cases hc : c ∈ ['A','z','B','<','>']
  · exact (local_readBoundary hc).suffix h
  by_cases ht : t.head? = some '\x7b'
  · obtain ⟨t,rfl⟩ := List.head?_eq_some_iff.1 ht
    rw [readBoundary_brace hc] at h
    split at h
    · split at h <;> cases h
      exact List.suffix_refl _
    · exact (local_readKind.suffix h).trans (List.suffix_cons _ t)
  · rw [readBoundary_other hc ht] at h
    cases h
    exact List.suffix_refl _

theorem readBoundary_stays (hc : c ∉ ['A','z','B','<','>']) (h : readBoundary unicode c t = some (l,t)) :
    l = .wordBoundary unicode := by
  by_cases ht : t.head? = some '\x7b'
  · obtain ⟨t,rfl⟩ := List.head?_eq_some_iff.1 ht
    rw [readBoundary_brace hc] at h
    split at h
    · split at h <;> cases h
      rfl
    · have hlength := (local_readKind.suffix h).length_le
      rw [List.length_cons] at hlength
      omega
  · rw [readBoundary_other hc ht] at h
    cases h
    rfl

/-- What is behind a boundary has no part in it, unless that is all that follows a brace. -/
theorem readBoundary_cut (h : readBoundary unicode c (t ++ tail) = some (l,middle ++ tail))
    (hmiddle : middle ≠ ['\x7b']) : readBoundary unicode c t = some (l,middle) := by
  by_cases hc : c ∈ ['A','z','B','<','>']
  · exact (local_readBoundary hc).cut h
  have hleft (hl : some (Look.wordBoundary unicode,t ++ tail) = some (l,middle ++ tail)) :
      l = .wordBoundary unicode ∧ middle = t := by
    obtain ⟨rfl,hrest⟩ := Prod.mk.inj (Option.some.inj hl)
    exact ⟨rfl,(List.append_cancel_right hrest).symm⟩
  cases t with
  | nil =>
    obtain rfl : middle = [] := eq_nil_of_append_suffix (readBoundary_suffix h)
    rw [readBoundary_stays hc h]
    exact readBoundary_other hc (by simp)
  | cons d t =>
    by_cases hd : d = '\x7b'
    · subst hd
      rw [List.cons_append,readBoundary_brace hc] at h
      rw [readBoundary_brace hc]
      split at h
      · next hletters =>
        have hdrop := List.takeWhile_append_dropWhile (p := isKindLetter) (l := t ++ tail)
        rw [hletters,List.nil_append] at hdrop
        rw [if_pos ((Text.dropWhile_cut hdrop).2.trans hletters)]
        split at h
        · cases h
        · obtain ⟨rfl,rfl⟩ := hleft h
          rw [if_neg fun ht => hmiddle (by rw [ht])]
      · next hletters =>
        obtain ⟨hdrop,-⟩ := readKind_eq_some h
        rw [← List.cons_append] at hdrop
        rw [← (Text.dropWhile_cut hdrop).2] at hletters
        rw [if_neg hletters]
        exact local_readKind.cut h
    · have hother {t : Text} : (d :: t).head? ≠ some '\x7b' := fun heq => hd (Option.some.inj heq)
      rw [List.cons_append,readBoundary_other hc hother] at h
      obtain ⟨rfl,rfl⟩ := hleft h
      exact readBoundary_other hc hother

theorem readEscaped_suffix {p : Pattern} (h : readEscaped flags t = some (p,rest)) :
    rest <:+ t := by
  unfold readEscaped at h
  split at h
  · next hescape => cases h; exact (local_readEscape flags).suffix hescape
  · next hescape =>
    obtain ⟨p,-,heq⟩ := Option.map_eq_some_iff.1 h
    cases heq
    exact (local_readEscape flags).suffix hescape
  · next hescape =>
    obtain ⟨r,hr,heq⟩ := Option.map_eq_some_iff.1 h
    cases heq
    exact (readBoundary_suffix hr).trans ((local_readEscape flags).suffix hescape)
  · cases h

theorem readEscaped_cut {p : Pattern}
    (h : readEscaped flags (t ++ tail) = some (p,middle ++ tail)) (hmiddle : middle ≠ ['\x7b']) :
    readEscaped flags t = some (p,middle) := by
  unfold readEscaped at h ⊢
  split at h
  · next hescape =>
    obtain ⟨rfl,rfl⟩ := Prod.mk.inj (Option.some.inj h)
    rw [(local_readEscape flags).cut hescape]
  · next hescape =>
    obtain ⟨p,hp,heq⟩ := Option.map_eq_some_iff.1 h
    cases heq
    rw [(local_readEscape flags).cut hescape]
    dsimp only
    rw [hp]
    rfl
  · next hescape =>
    obtain ⟨⟨l,left⟩,hr,heq⟩ := Option.map_eq_some_iff.1 h
    obtain ⟨rfl,rfl⟩ := Prod.mk.inj heq
    obtain ⟨front,hfront,-⟩ := exists_front ((local_readEscape flags).suffix hescape)
      (length_tail_le (readBoundary_suffix hr))
    rw [hfront] at hescape hr
    rw [(local_readEscape flags).cut hescape]
    dsimp only
    rw [readBoundary_cut hr hmiddle]
    rfl
  · cases h

end Realm.Pattern
