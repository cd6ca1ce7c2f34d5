import Realm.Proofs.Glob.Writing
import Realm.Proofs.Pattern.Meaning

/-! Which names a segment matches. A class holds what its ranges hold, read from left to right;
but two hyphens inside of it take what is behind them away from what is before them. -/
namespace Realm.Glob

open Pattern (CharSet Spans Place)

section Classes

/-- The ranges of a class, from left to right. A character that no hyphen joins to another one is
a range by itself. -/
def ranges : Text → List (Char × Char)
  | a :: '-' :: b :: t => (a,b) :: ranges t
  | a :: t => (a,a) :: ranges t
  | [] => []

def InClass (body : Text) (c : Char) : Prop :=
  ∃ r ∈ ranges body, r.1 ≤ c ∧ c ≤ r.2

def Reversed (body : Text) : Prop :=
  ∃ r ∈ ranges body, r.2 < r.1

instance (body : Text) (c : Char) : Decidable (InClass body c) :=
  inferInstanceAs (Decidable (∃ r ∈ ranges body, _))

instance (body : Text) : Decidable (Reversed body) :=
  inferInstanceAs (Decidable (∃ r ∈ ranges body, _))

/-- A body behind its first character, cut at two hyphens unless they end it. -/
def cutLater : Text → Text × List Text
  | '-' :: '-' :: c :: t => ([],(cutLater (c :: t)).1 :: (cutLater (c :: t)).2)
  | c :: t => (c :: (cutLater t).1,(cutLater t).2)
  | [] => ([],[])

/-- A body cut at each two hyphens inside of it: what is before them, and the pieces behind. -/
def cut : Text → Text × List Text
  | [] => ([],[])
  | c :: t => (c :: (cutLater t).1,(cutLater t).2)

/-- A character is in what the first piece of a body holds and the others do not. -/
def InDifference (body : Text) (c : Char) : Prop :=
  InClass (cut body).1 c ∧ ∀ piece ∈ (cut body).2, ¬InClass piece c

/-- A range in a piece of a body ends before it begins. -/
def PieceReversed (body : Text) : Prop :=
  ∃ piece ∈ (cut body).1 :: (cut body).2, Reversed piece

instance (body : Text) (c : Char) : Decidable (InDifference body c) :=
  inferInstanceAs (Decidable (_ ∧ _))

instance (body : Text) : Decidable (PieceReversed body) :=
  inferInstanceAs (Decidable (∃ piece ∈ (cut body).1 :: (cut body).2,_))

variable {a b c : Char} {t body : Text} {ms : List Mark}

theorem ranges_char (ht : ∀ b t', t ≠ '-' :: b :: t') : ranges (a :: t) = (a,a) :: ranges t := by
  rw [ranges.eq_2]
  exact ht

theorem not_inClass_nil (c : Char) : ¬InClass [] c := by
  simp [InClass,ranges]

theorem not_reversed_nil : ¬Reversed [] := by
  simp [Reversed,ranges]

@[simp] theorem inClass_range : InClass (a :: '-' :: b :: t) c ↔ (a ≤ c ∧ c ≤ b) ∨ InClass t c := by
  simp [InClass,ranges]

@[simp] theorem reversed_range : Reversed (a :: '-' :: b :: t) ↔ b < a ∨ Reversed t := by
  simp [Reversed,ranges]

theorem inClass_char (ht : ∀ b t', t ≠ '-' :: b :: t') :
    InClass (a :: t) c ↔ c = a ∨ InClass t c := by
  have hself : (a ≤ c ∧ c ≤ a) ↔ c = a :=
    ⟨fun h => Char.le_antisymm h.2 h.1,fun h => h ▸ ⟨Char.le_refl c,Char.le_refl c⟩⟩
  simp [InClass,ranges_char ht,← hself]

theorem reversed_char (ht : ∀ b t', t ≠ '-' :: b :: t') : Reversed (a :: t) ↔ Reversed t := by
  simp [Reversed,ranges_char ht]

end Classes

section Sets

def Held (minuend : Option CharSet) (c : Char) (taken : Prop) : Prop :=
  match minuend with
  | none => taken
  | some s => s.holds c = true ∧ ¬taken

/-- Marks are read as the pieces of a body, whatever has been read before them: they make a set
unless a range is reversed, and the set holds what it should. -/
def ReadsAs (ms : List Mark) (first : Text) (later : List Text) : Prop :=
  ∀ minuend items,
    (charSet? minuend items ms = none ↔ ∃ piece ∈ first :: later, Reversed piece) ∧
    ∀ s, charSet? minuend items ms = some s → ∀ c, s.holds c = true ↔
      Held minuend c (items.holds c = true ∨ InClass first c) ∧
        ∀ piece ∈ later, ¬InClass piece c

variable {minuend : Option CharSet} {items s : CharSet} {a b c : Char} {t first body : Text}
  {ms : List Mark} {later : List Text}

@[simp] theorem holds_close : (charSet?.close minuend items).holds c = true ↔
    Held minuend c (items.holds c = true) := by
  cases minuend <;> simp [charSet?.close,Held,CharSet.holds]

@[simp] theorem holds_add : (charSet?.add items s).holds c = true ↔
    items.holds c = true ∨ s.holds c = true := by
  cases items <;> simp [charSet?.add,CharSet.holds]

theorem readsAs_nil : ReadsAs [] [] [] := by
  intro minuend items
  refine ⟨by simp [charSet?,not_reversed_nil],fun s h c => ?_⟩
  rw [charSet?,Option.some.injEq] at h
  simp [← h,not_inClass_nil]

theorem ReadsAs.hyphens (h : ReadsAs ms first later) :
    ReadsAs (.hyphen :: .hyphen :: ms) [] (first :: later) := by
  intro minuend items
  obtain ⟨hnone,hsome⟩ := h (some (charSet?.close minuend items)) .none
  rw [charSet?]
  refine ⟨by simp [hnone,not_reversed_nil],fun s hs c => ?_⟩
  rw [hsome s hs c]
  simp [Held,CharSet.holds,not_inClass_nil,and_assoc]

theorem ReadsAs.hyphen (h : ReadsAs ms first later) (hms : ∀ ms', ms ≠ .hyphen :: ms')
    (hfirst : ∀ b t, first ≠ '-' :: b :: t) :
    ReadsAs (.hyphen :: ms) ('-' :: first) later := by
  intro minuend items
  obtain ⟨hnone,hsome⟩ := h minuend (charSet?.add items (.char '-'))
  rw [charSet?.eq_3 _ _ _ hms]
  refine ⟨by simpa [reversed_char hfirst] using hnone,fun s hs c => ?_⟩
  rw [hsome s hs c]
  simp [CharSet.holds,inClass_char hfirst,or_assoc]

theorem ReadsAs.range (h : ReadsAs ms first later) :
    ReadsAs (.char a :: .hyphen :: .char b :: ms) (a :: '-' :: b :: first) later := by
  intro minuend items
  obtain ⟨hnone,hsome⟩ := h minuend (charSet?.add items (.range a b))
  rw [charSet?]
  split
  · next hab =>
    refine ⟨by simpa [Char.not_lt.2 hab] using hnone,fun s hs c => ?_⟩
    rw [hsome s hs c]
    simp [CharSet.holds,or_assoc]
  · next hab =>
    simp [Char.not_le.1 hab]

theorem ReadsAs.char (h : ReadsAs ms first later)
    (hms : ∀ b ms', ms ≠ .hyphen :: .char b :: ms') (hfirst : ∀ b t, first ≠ '-' :: b :: t) :
    ReadsAs (.char a :: ms) (a :: first) later := by
  intro minuend items
  obtain ⟨hnone,hsome⟩ := h minuend (charSet?.add items (.char a))
  rw [charSet?.eq_5 _ _ _ _ hms]
  refine ⟨by simpa [reversed_char hfirst] using hnone,fun s hs c => ?_⟩
  rw [hsome s hs c]
  simp [CharSet.holds,inClass_char hfirst,or_assoc]

/-- A hyphen can join an item to another one, unless it is the last character. -/
theorem hyphen_cases (c : Char) (t : Text) :
    (c ≠ '-' ∨ t = []) ∨ ∃ d t', c :: t = '-' :: d :: t' := by
  by_cases hc : c = '-'
  · cases t with
    | nil => exact .inl (.inr rfl)
    | cons d t => exact .inr ⟨d,t,by rw [hc]⟩
  · exact .inl (.inl hc)

theorem ne_hyphen (hc : c ≠ '-' ∨ t = []) (d : Char) (t' : Text) : c :: t ≠ '-' :: d :: t' := by
  rintro ⟨⟩
  simp at hc

theorem laterMarks_cons (hc : c ≠ '-' ∨ t = []) :
    laterMarks (c :: t) = .char c :: laterMarks t := by
  cases t with
  | nil => rfl
  | cons d t =>
    rw [laterMarks,if_neg (by simpa using hc)]
    simp

@[simp] theorem laterMarks_hyphen (c : Char) (t : Text) :
    laterMarks ('-' :: c :: t) = .hyphen :: laterMarks (c :: t) := by
  rw [laterMarks,if_pos rfl]
  simp

theorem cutLater_cons (h : ∀ d t', c :: t ≠ '-' :: '-' :: d :: t') :
    cutLater (c :: t) = (c :: (cutLater t).1,(cutLater t).2) := by
  rw [cutLater]
  rintro d t' rfl rfl
  exact h d t' rfl

theorem cutLater_char (hc : c ≠ '-' ∨ t = []) :
    cutLater (c :: t) = (c :: (cutLater t).1,(cutLater t).2) :=
  cutLater_cons fun d t' => ne_hyphen hc '-' (d :: t')

/-- A hyphen before a character that is no hyphen, or is the last, does not cut. -/
theorem cutLater_hyphen (hc : c ≠ '-' ∨ t = []) :
    cutLater ('-' :: c :: t) = ('-' :: (cutLater (c :: t)).1,(cutLater (c :: t)).2) :=
  cutLater_cons fun d t' heq => ne_hyphen hc d t' (List.cons.inj heq).2

theorem cutLater_ne_hyphen (hc : c ≠ '-' ∨ t = []) (d : Char) (t' : Text) :
    (cutLater (c :: t)).1 ≠ '-' :: d :: t' := by
  rw [cutLater_char hc]
  refine ne_hyphen (hc.imp_right ?_) d t'
  rintro rfl
  rfl

/-- What is behind an item begins with a hyphen and the end of a range, or the item stands for
itself. -/
theorem range_or_char (t : Text) :
    (∃ b t', t = '-' :: b :: t' ∧ (b ≠ '-' ∨ t' = [])) ∨
      (∀ b ms', laterMarks t ≠ .hyphen :: .char b :: ms') ∧
        ∀ b t', (cutLater t).1 ≠ '-' :: b :: t' := by
  cases t with
  | nil => exact .inr ⟨by simp [laterMarks],by simp [cutLater]⟩
  | cons c t =>
    rcases hyphen_cases c t with hc | ⟨d,t,heq⟩
    · exact .inr ⟨by simp [laterMarks_cons hc],cutLater_ne_hyphen hc⟩
    · rw [heq]
      rcases hyphen_cases d t with hd | ⟨e,t,heq⟩
      · exact .inl ⟨d,t,rfl,hd⟩
      · rw [heq,laterMarks_hyphen,laterMarks_hyphen]
        exact .inr ⟨by simp,by simp [cutLater]⟩

theorem readsAs_char (a : Char) (ih : ∀ t' : Text, t'.length ≤ t.length →
      ReadsAs (laterMarks t') (cutLater t').1 (cutLater t').2) :
    ReadsAs (.char a :: laterMarks t) (a :: (cutLater t).1) (cutLater t).2 := by
  rcases range_or_char t with ⟨b,t,rfl,hb⟩ | ⟨hms,hfirst⟩
  · rw [laterMarks_hyphen,laterMarks_cons hb,cutLater_hyphen hb,cutLater_char hb]
    exact (ih t (by simp; omega)).range
  · exact (ih t (Nat.le_refl _)).char hms hfirst

theorem readsAs_later (t : Text) : ReadsAs (laterMarks t) (cutLater t).1 (cutLater t).2 := by
  induction hn : t.length using Nat.strongRecOn generalizing t with
  | _ n ih =>
    subst hn
    cases t with
    | nil => exact readsAs_nil
    | cons c t =>
      rcases hyphen_cases c t with hc | ⟨d,t,heq⟩
      · rw [laterMarks_cons hc,cutLater_char hc]
        exact readsAs_char c fun t' h => ih _ (Nat.lt_succ_of_le h) t' rfl
      · rw [heq] at ih ⊢
        rw [laterMarks_hyphen]
        rcases hyphen_cases d t with hd | ⟨e,t,heq⟩
        · have hrest := ih _ (by simp) (d :: t) rfl
          rw [cutLater_hyphen hd]
          exact hrest.hyphen (by simp [laterMarks_cons hd]) (cutLater_ne_hyphen hd)
        · rw [heq] at ih ⊢
          rw [laterMarks_hyphen]
          exact (ih _ (by simp) (e :: t) rfl).hyphens

theorem readsAs_marks (body : Text) : ReadsAs (marks body) (cut body).1 (cut body).2 := by
  cases body with
  | nil => exact readsAs_nil
  | cons c t => exact readsAs_char c fun t' _ => readsAs_later t'

end Sets

section Names

variable {In In' : Text → Char → Prop} {segment name rest : Text} {p : Part} {ps : List Part}
  {q : Pattern} {qs : List Pattern} {previous : Option Char}

/-- A text is taken by a part, when what classes hold is known by their bodies. -/
inductive Part.Takes (In : Text → Char → Prop) : Part → Text → Prop
  | run {t : Text} : Takes In .run t
  | one {c : Char} : Takes In .one [c]
  | char {c : Char} : Takes In (.char c) [c]
  | oneOf {negated : Bool} {body : Text} {c : Char} : (In body c ↔ negated = false) →
    Takes In (.oneOf negated body) [c]

inductive TakesAll (In : Text → Char → Prop) : List Part → Text → Prop
  | nil : TakesAll In [] []
  | cons {p : Part} {ps : List Part} {t t' : Text} : p.Takes In t → TakesAll In ps t' →
    TakesAll In (p :: ps) (t ++ t')

def Matches (In : Text → Char → Prop) (segment name : Text) : Prop :=
  ∃ ps, Splits segment ps ∧ TakesAll In ps name

/-- A class with a body is among the parts of a segment. -/
def HasClass (segment body : Text) : Prop :=
  ∃ ps negated, Splits segment ps ∧ .oneOf negated body ∈ ps

theorem matches_iff : Matches In segment name ↔ TakesAll In (parts segment) name := by
  simp [Matches,splits_iff]

theorem hasClass_iff {body : Text} :
    HasClass segment body ↔ ∃ negated, .oneOf negated body ∈ parts segment := by
  simp [HasClass,splits_iff]

theorem Part.Takes.congr {t : Text}
    (hin : ∀ negated body, p = .oneOf negated body → ∀ c, In body c ↔ In' body c)
    (h : p.Takes In t) : p.Takes In' t := by
  cases h with
  | run => exact .run
  | one => exact .one
  | char => exact .char
  | oneOf h => exact .oneOf (by rw [← hin _ _ rfl,h])

theorem TakesAll.congr
    (hin : ∀ negated body, .oneOf negated body ∈ ps → ∀ c, In body c ↔ In' body c)
    (h : TakesAll In ps name) : TakesAll In' ps name := by
  induction h with
  | nil => exact .nil
  | cons hp _ ih =>
    exact .cons (hp.congr fun negated body h => hin negated body (h ▸ .head _))
      (ih fun negated body h => hin negated body (.tail _ h))

theorem matches_congr (hin : ∀ body, HasClass segment body → ∀ c, In body c ↔ In' body c) :
    Matches In segment name ↔ Matches In' segment name := by
  rw [matches_iff,matches_iff]
  have hin (negated : Bool) (body : Text) (h : .oneOf negated body ∈ parts segment) :=
    hin body (hasClass_iff.2 ⟨negated,h⟩)
  exact ⟨TakesAll.congr hin,TakesAll.congr fun negated body h c => (hin negated body h c).symm⟩

theorem takesAll_cons : TakesAll In (p :: ps) name ↔
    ∃ t rest, name = t ++ rest ∧ p.Takes In t ∧ TakesAll In ps rest := by
  constructor
  · intro h
    cases h with
    | cons hp hps => exact ⟨_,_,rfl,hp,hps⟩
  · rintro ⟨t,rest,rfl,hp,hps⟩
    exact .cons hp hps

theorem takes_one {t : Text} : Part.one.Takes In t ↔ ∃ c, t = [c] := by
  constructor
  · rintro ⟨⟩
    exact ⟨_,rfl⟩
  · rintro ⟨c,rfl⟩
    exact .one

@[simp] theorem takes_char {c : Char} {t : Text} : (Part.char c).Takes In t ↔ t = [c] := by
  constructor
  · rintro ⟨⟩
    rfl
  · rintro rfl
    exact .char

theorem takes_oneOf {negated : Bool} {body t : Text} : (Part.oneOf negated body).Takes In t ↔
    ∃ c, t = [c] ∧ (In body c ↔ negated = false) := by
  constructor
  · rintro ⟨⟩
    exact ⟨_,rfl,by assumption⟩
  · rintro ⟨c,rfl,h⟩
    exact .oneOf h

theorem spans_chars {set : CharSet} :
    (∃ previous', Spans (.chars set) ⟨previous,name⟩ ⟨previous',rest⟩) ↔
      ∃ c, name = c :: rest ∧ set.holds c = true := by
  constructor
  · rintro ⟨previous',h⟩
    cases h with
    | chars hc => exact ⟨_,rfl,hc⟩
  · rintro ⟨c,rfl,hc⟩
    exact ⟨_,.chars hc⟩

theorem holds_anyChar {c : Char} (hc : c ≠ '/') : (CharSet.except '/').holds c = true := by
  simp [CharSet.except,CharSet.holds,hc]

theorem spans_run (t : Text) (ht : '/' ∉ t) (previous : Option Char) (rest : Text) :
    ∃ previous', Spans (.repeated anyChar 0 none true) ⟨previous,t ++ rest⟩ ⟨previous',rest⟩ := by
  induction t generalizing previous with
  | nil => exact ⟨previous,.noTurn⟩
  | cons c t ih =>
    obtain ⟨hc,ht⟩ := List.ne_and_not_mem_of_not_mem_cons ht
    obtain ⟨previous',h⟩ := ih ht (some c)
    exact ⟨previous',.turn nofun (.chars (holds_anyChar hc.symm)) h⟩

theorem holds_class {body : Text} {negated : Bool} {s : CharSet} {c : Char}
    (hs : charSet? none .none (marks body) = some s) :
    (if negated then CharSet.compl s else s).holds c = true ↔
      (InDifference body c ↔ negated = false) := by
  have hholds : s.holds c = true ↔ InDifference body c := by
    rw [(readsAs_marks body none .none).2 s hs c]
    simp [Held,CharSet.holds,InDifference]
  cases negated <;> simp [CharSet.holds,← hholds]

theorem spans_suffix {a b : Place} (h : Spans q a b) : b.rest <:+ a.rest := by
  induction h with
  | chars => exact List.suffix_cons _ _
  | seq _ _ ihp ihq => exact ihq.trans ihp
  | turn _ _ _ ihp ihq => exact ihq.trans ihp
  | left _ ih => exact ih
  | right _ ih => exact ih
  | group _ ih => exact ih
  | _ => exact List.suffix_refl _

theorem spans_part (hq : p.pattern? = some q) (hname : '/' ∉ name) (previous : Option Char) :
    (∃ previous', Spans q ⟨previous,name⟩ ⟨previous',rest⟩) ↔
      ∃ t, name = t ++ rest ∧ p.Takes InDifference t := by
  cases p with
  | run =>
    cases hq
    constructor
    · rintro ⟨previous',h⟩
      obtain ⟨t,ht⟩ := spans_suffix h
      exact ⟨t,ht.symm,.run⟩
    · rintro ⟨t,rfl,-⟩
      exact spans_run t (fun h => hname (List.mem_append_left _ h)) previous rest
  | one =>
    cases hq
    have hholds (c : Char) (h : name = c :: rest) : (CharSet.except '/').holds c = true :=
      holds_anyChar fun hc => hname (h ▸ hc ▸ .head _)
    simp only [anyChar,spans_chars,takes_one]
    constructor
    · rintro ⟨c,rfl,-⟩
      exact ⟨[c],rfl,c,rfl⟩
    · rintro ⟨_,rfl,c,rfl⟩
      exact ⟨c,rfl,hholds c rfl⟩
  | char c =>
    cases hq
    simp [spans_chars,CharSet.holds]
  | oneOf negated body =>
    obtain ⟨s,hs,rfl⟩ := Option.map_eq_some_iff.1 hq
    simp only [spans_chars,takes_oneOf,holds_class hs]
    constructor
    · rintro ⟨c,rfl,hc⟩
      exact ⟨[c],rfl,c,rfl,hc⟩
    · rintro ⟨_,rfl,c,rfl,hc⟩
      exact ⟨c,rfl,hc⟩

theorem spans_textEnd : (∃ b, Spans (.look .textEnd) ⟨previous,name⟩ b) ↔ name = [] := by
  constructor
  · rintro ⟨b,h⟩
    cases h with
    | look hend => exact List.head?_eq_none_iff.1 (of_decide_eq_true hend)
  · rintro rfl
    exact ⟨_,.look rfl⟩

/-- The patterns of parts, up to the end of a text, match what the parts take. -/
theorem spans_parts (hqs : ps.mapM Part.pattern? = some qs) (hname : '/' ∉ name)
    (previous : Option Char) :
    (∃ b, Spans (qs.foldr .seq (.look .textEnd)) ⟨previous,name⟩ b) ↔
      TakesAll InDifference ps name := by
  induction ps generalizing qs previous name with
  | nil =>
    cases hqs
    refine spans_textEnd.trans ⟨?_,fun h => by cases h; rfl⟩
    rintro rfl
    exact .nil
  | cons p ps ih =>
    rw [List.mapM_cons] at hqs
    obtain ⟨q,hq,hmore⟩ := Option.bind_eq_some_iff.1 hqs
    obtain ⟨qs',hqs',heq⟩ := Option.bind_eq_some_iff.1 hmore
    cases heq
    rw [takesAll_cons]
    constructor
    · rintro ⟨b,h⟩
      cases h with
      | @seq _ _ _ middle _ hp hps =>
        obtain ⟨t,rfl,ht⟩ := (spans_part hq hname _).1 ⟨middle.previous,hp⟩
        have hrest : '/' ∉ middle.rest := fun h => hname (List.mem_append_right _ h)
        exact ⟨t,middle.rest,rfl,ht,(ih hqs' hrest _).1 ⟨b,hps⟩⟩
    · rintro ⟨t,rest,rfl,ht,hps⟩
      have hrest : '/' ∉ rest := fun h => hname (List.mem_append_right _ h)
      obtain ⟨previous',hp⟩ := (spans_part hq hname previous).2 ⟨t,rfl,ht⟩
      obtain ⟨b,hps⟩ := (ih hqs' hrest previous').2 hps
      exact ⟨b,.seq hp hps⟩

/-- A segment matches a name if its parts take the name. -/
theorem isMatch_iff {p : Pattern} (hp : pattern? segment = some p) (hname : '/' ∉ name) :
    p.isMatch name = true ↔ Matches InDifference segment name := by
  obtain ⟨qs,hqs,heq⟩ := Option.bind_eq_some_iff.1 hp
  cases heq
  rw [matches_iff,← spans_parts hqs hname none,Pattern.isMatch,Pattern.isSome_captures?]
  constructor
  · rintro ⟨a,b,hplace,h⟩
    cases h with
    | seq hstart h =>
      cases hstart with
      | look hstart =>
        rw [hplace.start (of_decide_eq_true hstart)] at h
        exact ⟨b,h⟩
  · rintro ⟨b,h⟩
    exact ⟨_,b,Pattern.isPlace_start name,.seq (.look rfl) h⟩

theorem mapM_eq_none {α β : Type} {f : α → Option β} {xs : List α} :
    xs.mapM f = none ↔ ∃ x ∈ xs, f x = none := by
  induction xs with
  | nil => simp
  | cons x xs ih =>
    rw [List.mapM_cons]
    cases hx : f x with
    | none => simp [hx]
    | some y => cases hxs : xs.mapM f <;> simp_all

theorem partPattern?_eq_none :
    p.pattern? = none ↔ ∃ negated body, p = .oneOf negated body ∧ PieceReversed body := by
  cases p with
  | oneOf negated body =>
    have hnone : (Part.oneOf negated body).pattern? = none ↔ PieceReversed body :=
      Option.map_eq_none_iff.trans (readsAs_marks body none .none).1
    rw [hnone]
    refine ⟨fun h => ⟨negated,body,rfl,h⟩,?_⟩
    rintro ⟨_,_,⟨⟩,h⟩
    exact h
  | _ => simp [Part.pattern?]

/-- A segment has no pattern only if a range in a class of it ends before it begins. -/
theorem pattern?_eq_none :
    pattern? segment = none ↔ ∃ body, HasClass segment body ∧ PieceReversed body := by
  have hparts : pattern? segment = none ↔ (parts segment).mapM Part.pattern? = none := by
    unfold pattern?
    cases (parts segment).mapM Part.pattern? <;> simp
  rw [hparts,mapM_eq_none]
  simp only [partPattern?_eq_none,hasClass_iff]
  constructor
  · rintro ⟨_,hmem,negated,body,rfl,h⟩
    exact ⟨body,⟨negated,hmem⟩,h⟩
  · rintro ⟨body,⟨negated,hmem⟩,h⟩
    exact ⟨_,hmem,negated,body,rfl,h⟩

end Names

section Segments

variable {segment name : Text} {p : Pattern} {e : Error}

@[simp] theorem compile_eq_ok : compile segment = .ok p ↔ pattern? segment = some p := by
  unfold compile
  cases pattern? segment <;> simp

theorem compile_eq_error : compile segment = .error e ↔
    e = .parse (.badFileExpression segment) ∧
      ∃ body, HasClass segment body ∧ PieceReversed body := by
  rw [← pattern?_eq_none]
  unfold compile
  cases pattern? segment <;> simp [eq_comm]

theorem cutLater_eq {t : Text} (h : ¬['-','-'] <:+: t.dropLast) : cutLater t = (t,[]) := by
  induction t with
  | nil => rfl
  | cons c t ih =>
    have ht : ¬['-','-'] <:+: t.dropLast := by
      refine fun hin => h (hin.trans ?_)
      cases t with
      | nil => exact List.nil_infix
      | cons d t => exact (List.suffix_cons c _).isInfix
    rw [cutLater_cons,ih ht]
    rintro d t' ⟨⟩
    exact h ⟨[],(d :: t').dropLast,rfl⟩

theorem cut_eq {body : Text} (h : ¬['-','-'] <:+: body.tail.dropLast) : cut body = (body,[]) := by
  cases body with
  | nil => rfl
  | cons c t =>
    rw [List.tail_cons] at h
    rw [cut,cutLater_eq h]

theorem inDifference_iff {body : Text} {c : Char} (h : ¬['-','-'] <:+: body.tail.dropLast) :
    InDifference body c ↔ InClass body c := by
  simp [InDifference,cut_eq h]

theorem pieceReversed_iff {body : Text} (h : ¬['-','-'] <:+: body.tail.dropLast) :
    PieceReversed body ↔ Reversed body := by
  simp [PieceReversed,cut_eq h]

/-- The pattern of a segment is what its regular expression is read as, and it matches a name if
the parts of the segment take the name, where two hyphens inside of a class take the characters
behind them away from those before. There is no pattern exactly if a range between two such hyphens
ends before it begins. A segment without such hyphens matches as the classes are written. -/
theorem compile_matches (segment : Text) :
    Pattern.read? (regularExpression segment) = pattern? segment ∧
    (∀ p, compile segment = .ok p → ∀ name, '/' ∉ name →
      (p.isMatch name = true ↔ Matches InDifference segment name)) ∧
    (∀ e, compile segment = .error e ↔ e = .parse (.badFileExpression segment) ∧
      ∃ body, HasClass segment body ∧ PieceReversed body) ∧
    ((∀ body, HasClass segment body → ¬['-','-'] <:+: body.tail.dropLast) →
      (∀ p, compile segment = .ok p → ∀ name, '/' ∉ name →
        (p.isMatch name = true ↔ Matches InClass segment name)) ∧
      ∀ e, compile segment = .error e ↔ e = .parse (.badFileExpression segment) ∧
        ∃ body, HasClass segment body ∧ Reversed body) := by
  refine ⟨read?_regularExpression segment,fun p hp name hname => ?_,fun e => compile_eq_error,
    fun hbodies => ⟨fun p hp name hname => ?_,fun e => ?_⟩⟩
  · exact isMatch_iff (compile_eq_ok.1 hp) hname
  · rw [isMatch_iff (compile_eq_ok.1 hp) hname]
    exact matches_congr fun body hbody c => inDifference_iff (hbodies body hbody)
  · rw [compile_eq_error]
    refine and_congr_right fun _ => exists_congr fun body => and_congr_right fun hbody => ?_
    exact pieceReversed_iff (hbodies body hbody)

theorem parts_range : parts "[a-c]*".toList = [.oneOf false "a-c".toList,.run] := by
  have hclass : Bracketed ("a-c".toList ++ ']' :: ['*']) false "a-c".toList ['*'] :=
    .plain (by decide) (by decide) (by decide)
  exact splits_iff.1 (.oneOf hclass (.run .nil))

/-- A range of letters and a run behind it. -/
theorem compile_matches_range : ∃ p, compile "[a-c]*".toList = .ok p ∧
    p.isMatch "bob".toList = true ∧ p.isMatch "-".toList = false := by
  have hbody (body : Text) (h : HasClass "[a-c]*".toList body) : body = "a-c".toList := by
    rw [hasClass_iff,parts_range] at h
    simpa using h
  obtain ⟨-,-,-,hplain⟩ := compile_matches "[a-c]*".toList
  obtain ⟨hmatch,herror⟩ := hplain fun body h => by rw [hbody body h]; decide
  cases hp : compile "[a-c]*".toList with
  | error e =>
    obtain ⟨-,body,h,hreversed⟩ := (herror e).1 hp
    rw [hbody body h] at hreversed
    exact absurd hreversed (by decide)
  | ok p =>
    refine ⟨p,rfl,(hmatch p hp _ (by decide)).2 ?_,Bool.eq_false_iff.2 fun h => ?_⟩
    · rw [matches_iff,parts_range]
      exact .cons (t := ['b']) (.oneOf (by decide)) (.cons (t := ['o','b']) .run .nil)
    · have hmatches := (hmatch p hp _ (by decide)).1 h
      rw [matches_iff,parts_range,takesAll_cons] at hmatches
      obtain ⟨t,rest,heq,ht,-⟩ := hmatches
      obtain ⟨c,rfl,hc⟩ := takes_oneOf.1 ht
      obtain ⟨rfl,-⟩ := List.cons.inj heq
      exact absurd hc (by decide)

/-- Two hyphens inside of a class are no range with a hyphen at its end: the class from a plus sign
to a hyphen, and the letter b, does not match the comma. -/
theorem not_compile_matches : ¬∀ segment p, compile segment = .ok p → ∀ name, '/' ∉ name →
    (p.isMatch name = true ↔ Matches InClass segment name) := by
  intro h
  have hclass : Bracketed ("+--b".toList ++ [']']) false "+--b".toList [] :=
    .plain (by decide) (by decide) (by decide)
  have hparts : parts "[+--b]".toList = [.oneOf false "+--b".toList] :=
    splits_iff.1 (.oneOf hclass .nil)
  cases hp : pattern? "[+--b]".toList with
  | none =>
    obtain ⟨body,hbody,hreversed⟩ := pattern?_eq_none.1 hp
    rw [hasClass_iff,hparts] at hbody
    obtain rfl : body = "+--b".toList := by simpa using hbody
    exact absurd hreversed (by decide)
  | some p =>
    have hmatch := (h _ p (compile_eq_ok.2 hp) [','] (by decide)).2 (by
      rw [matches_iff,hparts]
      exact .cons (t := [',']) (.oneOf (by decide)) .nil)
    rw [isMatch_iff hp (by decide),matches_iff,hparts,takesAll_cons] at hmatch
    obtain ⟨t,rest,heq,ht,-⟩ := hmatch
    obtain ⟨c,rfl,hc⟩ := takes_oneOf.1 ht
    obtain ⟨rfl,-⟩ := List.cons.inj heq
    exact absurd hc (by decide)

end Segments

end Realm.Glob
