import Realm.History.Reference
import Realm.Proofs.Text

/-! History references by their grammar: an event or a short form, a choice of words, and
changes of the text. The readers find the parts of a reference where they are written one after
the other. -/
namespace Realm.History

structure Numeral where
  digits : Text
  ne_nil : digits ≠ []
  isDigit : ∀ c ∈ digits, Text.isDigit c = true

def Numeral.value (n : Numeral) : Nat :=
  Text.digitsValue n.digits

structure Opening where
  text : Text
  ne_nil : text ≠ []
  head : ∀ c ∈ text.head?, c ∉ ['!','$','^','*','-','?'] ∧ Text.isDigit c = false
  free : ∀ c ∈ text, endsEvent c = false

structure Fragment where
  text : Text
  ne_nil : text ≠ []
  free : '?' ∉ text

inductive Name where
  | previous
  | number (n : Numeral)
  | back (n : Numeral)
  | beginning (s : Opening)
  | containing (s : Fragment)

namespace Name

def written : Name → Text
  | previous => ['!']
  | number n => n.digits
  | back n => '-' :: n.digits
  | beginning s => s.text
  | containing s => '?' :: s.text ++ ['?']

def event : Name → Event
  | previous => .previous
  | number n => .number n.value
  | back n => .back n.value
  | beginning s => .beginning s.text
  | containing s => .containing s.text

end Name

inductive Sign where
  | first
  | last
  | arguments
deriving DecidableEq, Repr

def Sign.char : Sign → Char
  | first => '^'
  | last => '$'
  | arguments => '*'

inductive Choice where
  | sign (s : Sign)
  | word (n : Numeral)
  | range (n m : Numeral)
  /-- From a word to the last but one. -/
  | butLast (n : Numeral)
  | upTo (m : Numeral)
  | onward (n : Numeral)

namespace Choice

def written : Choice → Text
  | sign s => [s.char]
  | word n => n.digits
  | range n m => n.digits ++ '-' :: m.digits
  | butLast n => n.digits ++ ['-']
  | upTo m => '-' :: m.digits
  | onward n => n.digits ++ ['*']

end Choice

/-- The place of a word as written; a number of more than 64 bits is none. -/
def Numeral.place? (n : Numeral) : Option WordIndex :=
  if n.value < 0x10000000000000000 then some (.at n.value) else none

def Choice.designator? : Choice → Option Designator
  | sign .first => some (.single (.at 1))
  | sign .last => some (.single .last)
  | sign .arguments => some .arguments
  | word n => n.place?.map .single
  | range n m => n.place?.bind fun first => m.place?.map fun stop => .range first stop
  | butLast n => n.place?.map .toPenultimate
  | upTo m => m.place?.map .fromStart
  | onward n => n.place?.map .toLast

structure Fields where
  pattern : Text
  replacement : Text
  ne_nil : pattern ≠ []
  pattern_free : ∀ c ∈ pattern, c ≠ '/' ∧ c ≠ '\\'
  replacement_free : ∀ c ∈ replacement, c ≠ '/' ∧ c ≠ '\\' ∧ Text.isBlank c = false

def Fields.substitution (f : Fields) : Substitution :=
  ⟨f.pattern,f.replacement⟩

/-- The part of a reference that changes the text. -/
inductive Change where
  | head
  | tail
  | root
  | extension
  | printOnly
  | again (everywhere : Bool)
  | substitute (everywhere : Bool) (fields : Fields)

namespace Change

def body : Change → Text
  | head => ['h']
  | tail => ['t']
  | root => ['r']
  | extension => ['e']
  | printOnly => ['p']
  | again false => ['&']
  | again true => ['g','&']
  | substitute false f => 's' :: '/' :: (f.pattern ++ '/' :: (f.replacement ++ ['/']))
  | substitute true f => 'g' :: 's' :: '/' :: (f.pattern ++ '/' :: (f.replacement ++ ['/']))

def written (c : Change) : Text :=
  ':' :: c.body

def modifier : Change → Modifier
  | head => .head
  | tail => .tail
  | root => .root
  | extension => .extension
  | printOnly => .printOnly
  | again everywhere => .again everywhere
  | substitute everywhere f => .substitute everywhere f.pattern f.replacement

end Change

/-- What a reference begins with. The short forms carry their choice of words with them. -/
inductive Start where
  | named (name : Name) (choice : Option Choice)
  | short (sign : Sign)

def Start.written : Start → Text
  | named name none => name.written
  | named name (some choice) => name.written ++ ':' :: choice.written
  | short sign => [sign.char]

/-- A reference of the grammar. -/
structure Reference where
  start : Start
  changes : List Change

def Reference.written (r : Reference) : Text :=
  '!' :: (r.start.written ++ r.changes.flatMap Change.written)

/-- What may follow a part of a reference. -/
def Stops (rest : Text) : Prop :=
  ∀ c ∈ rest.head?, c = ':' ∨ Text.isBlank c = true

section Reader

variable {c : Char} {t rest : Text} {p : Char → Bool}

theorem isDigit_of_isBlank (h : Text.isBlank c = true) : Text.isDigit c = false := by
  simp only [Text.isBlank,Bool.or_eq_true,Bool.and_eq_true,decide_eq_true_eq,
    beq_iff_eq] at h
  simp only [Text.isDigit,Bool.and_eq_false_iff,decide_eq_false_iff_not,Char.le_def,
    UInt32.le_iff_toNat_le]
  change ¬ 48 ≤ c.toNat ∨ ¬ c.toNat ≤ 57
  omega

theorem ne_of_isDigit {d : Char} (h : Text.isDigit c = true) (hd : Text.isDigit d = false) :
    c ≠ d := by
  rintro rfl
  rw [h] at hd
  cases hd

theorem Stops.isDigit (h : Stops rest) : ∀ c ∈ rest.head?, Text.isDigit c = false := by
  intro c hc
  rcases h c hc with rfl | hb
  · rfl
  · exact isDigit_of_isBlank hb

theorem Stops.endsEvent (h : Stops rest) : ∀ c ∈ rest.head?, endsEvent c = true := by
  intro c hc
  rcases h c hc with rfl | hb
  · rfl
  · simp [History.endsEvent,hb]

theorem Stops.ne {c : Char} (h : Stops rest) (hc : c ≠ ':') (hb : Text.isBlank c = false) :
    rest.head? ≠ some c := by
  intro hr
  rcases h c hr with rfl | hb'
  · exact hc rfl
  · rw [hb] at hb'
    cases hb'

theorem read?_digit (h : Text.isDigit c = true) :
    Event.read? (c :: t) =
      some ⟨.number (Text.digitsValue ((c :: t).takeWhile Text.isDigit)),none,
        (c :: t).dropWhile Text.isDigit⟩ := by
  have hne {d : Char} := ne_of_isDigit (d := d) h
  unfold Event.read?
  split
  · next heq => cases heq
  case h_8 heq => cases heq; rw [if_pos h]
  all_goals
    next heq =>
      cases heq
      exact absurd rfl (hne (by decide))

theorem read?_opening (h : c ∉ ['!','$','^','*','-','?']) (hd : Text.isDigit c = false)
    (he : endsEvent c = false) :
    Event.read? (c :: t) =
      some ⟨.beginning ((c :: t).takeWhile (!endsEvent ·)),none,
        (c :: t).dropWhile (!endsEvent ·)⟩ := by
  unfold Event.read?
  split
  · next heq => cases heq
  case h_8 heq =>
    cases heq
    rw [if_neg (by simp [hd]),if_neg (by simp [he])]
  all_goals
    next heq =>
      cases heq
      exact absurd h (by decide)

theorem read?_name (name : Name) (h : Stops rest) :
    Event.read? (name.written ++ rest) = some ⟨name.event,none,rest⟩ := by
  cases name with
  | previous => rfl
  | number n =>
    obtain ⟨htake,hdrop⟩ := Text.span_append n.isDigit h.isDigit
    obtain ⟨c,t,hct⟩ := List.exists_cons_of_ne_nil n.ne_nil
    have hc := n.isDigit c (by simp [hct])
    rw [Name.written,Name.event,Numeral.value]
    rw [hct] at htake hdrop ⊢
    rw [List.cons_append,read?_digit hc,← List.cons_append,htake,hdrop]
  | back n =>
    obtain ⟨htake,hdrop⟩ := Text.span_append n.isDigit h.isDigit
    simp only [Name.written,Name.event,Numeral.value,List.cons_append,Event.read?,htake,hdrop]
  | beginning s =>
    have hfree : ∀ c ∈ s.text, (!endsEvent c) = true := fun c hc => by simp [s.free c hc]
    have hends : ∀ c ∈ rest.head?, (!endsEvent c) = false :=
      fun c hc => by simp [h.endsEvent c hc]
    obtain ⟨htake,hdrop⟩ := Text.span_append hfree hends
    obtain ⟨c,t,hct⟩ := List.exists_cons_of_ne_nil s.ne_nil
    obtain ⟨hc,hd⟩ := s.head c (by simp [hct])
    have he := s.free c (by simp [hct])
    rw [Name.written,Name.event]
    rw [hct] at htake hdrop ⊢
    rw [List.cons_append,read?_opening hc hd he,← List.cons_append,htake,hdrop]
  | containing s =>
    simp only [Name.written,Name.event,List.cons_append,List.append_assoc,List.nil_append,
      Event.read?,Text.splitFirst?_append s.free]

@[simp] theorem span_sign (sign : Sign) (rest : Text) :
    Designator.span (sign.char :: rest) = ([sign.char],rest) := by
  cases sign <;> rfl

def isInside (c : Char) : Bool :=
  Text.isDigit c || c = '-' || c = '$'

theorem span_cons (hc : Text.isDigit c = true ∨ c = '-') :
    Designator.span (c :: t) =
      match t.dropWhile isInside with
      | '*' :: rest => (c :: t.takeWhile isInside ++ ['*'],rest)
      | rest => (c :: t.takeWhile isInside,rest) := by
  have hne {d : Char} (hd : Text.isDigit d = false) (hd' : d ≠ '-') : c ≠ d := by
    rcases hc with hc | rfl
    · exact ne_of_isDigit hc hd
    · exact Ne.symm hd'
  have hsign : (c = '^' || c = '$' || c = '*') = false := by
    simp [hne (d := '^') rfl (by decide),hne (d := '$') rfl (by decide),
      hne (d := '*') rfl (by decide)]
  rw [Designator.span,hsign,if_neg Bool.false_ne_true,if_pos (by simpa using hc)]
  rfl

theorem Stops.isInside (h : Stops rest) : ∀ c ∈ rest.head?, isInside c = false := by
  intro c hc
  have hminus : c ≠ '-' := by rintro rfl; exact h.ne (by decide) rfl hc
  have hdollar : c ≠ '$' := by rintro rfl; exact h.ne (by decide) rfl hc
  simp [History.isInside,h.isDigit c hc,hminus,hdollar]

theorem span_plain (hc : Text.isDigit c = true ∨ c = '-') (ht : ∀ d ∈ t, isInside d = true)
    (h : Stops rest) : Designator.span (c :: t ++ rest) = (c :: t,rest) := by
  obtain ⟨htake,hdrop⟩ := Text.span_append ht h.isInside
  rw [List.cons_append,span_cons hc,htake,hdrop]
  split
  · exact absurd rfl (h.ne (c := '*') (by decide) rfl)
  · rfl

theorem span_star (hc : Text.isDigit c = true ∨ c = '-') (ht : ∀ d ∈ t, isInside d = true) :
    Designator.span (c :: t ++ '*' :: rest) = (c :: t ++ ['*'],rest) := by
  have hstar : ∀ c ∈ ('*' :: rest).head?, isInside c = false := by
    rintro _ ⟨⟩
    decide
  obtain ⟨htake,hdrop⟩ := Text.span_append ht hstar
  rw [List.cons_append,span_cons hc,htake,hdrop]
  rfl

theorem isInside_of_isDigit (h : Text.isDigit c = true) : isInside c = true := by
  simp [isInside,h]

theorem span_choice (choice : Choice) (h : Stops rest) :
    Designator.span (choice.written ++ rest) = (choice.written,rest) := by
  have hinside (n : Numeral) : ∀ c ∈ n.digits, isInside c = true :=
    fun c hc => isInside_of_isDigit (n.isDigit c hc)
  have hcons (n : Numeral) : ∃ c t, n.digits = c :: t ∧ Text.isDigit c = true ∧
      ∀ d ∈ t, isInside d = true := by
    obtain ⟨c,t,hct⟩ := List.exists_cons_of_ne_nil n.ne_nil
    have hin := hinside n
    rw [hct] at hin
    exact ⟨c,t,hct,n.isDigit c (by simp [hct]),fun d hd => hin d (by simp [hd])⟩
  cases choice with
  | sign sign => exact span_sign sign rest
  | word n =>
    obtain ⟨c,t,hct,hc,ht⟩ := hcons n
    rw [Choice.written,hct]
    exact span_plain (.inl hc) ht h
  | range n m =>
    obtain ⟨c,t,hct,hc,ht⟩ := hcons n
    rw [Choice.written,hct,List.cons_append]
    refine span_plain (.inl hc) (fun d hd => ?_) h
    rcases List.mem_append.1 hd with hd | hd
    · exact ht d hd
    · rcases List.mem_cons.1 hd with rfl | hd
      · rfl
      · exact hinside m d hd
  | butLast n =>
    obtain ⟨c,t,hct,hc,ht⟩ := hcons n
    rw [Choice.written,hct,List.cons_append]
    refine span_plain (.inl hc) (fun d hd => ?_) h
    rcases List.mem_append.1 hd with hd | hd
    · exact ht d hd
    · rw [List.mem_singleton.1 hd]
      rfl
  | upTo m => exact span_plain (.inr rfl) (hinside m) h
  | onward n =>
    obtain ⟨c,t,hct,hc,ht⟩ := hcons n
    rw [Choice.written,hct,List.append_assoc]
    exact span_star (.inl hc) ht

end Reader

namespace Numeral

variable (n : Numeral) {d : Char}

theorem notMem (hd : Text.isDigit d = false) : d ∉ n.digits := by
  intro h
  rw [n.isDigit d h] at hd
  cases hd

theorem head_ne (hd : Text.isDigit d = false) : n.digits.head? ≠ some d :=
  fun h => n.notMem hd (List.mem_of_head? h)

theorem last_ne (hd : Text.isDigit d = false) : n.digits.getLast? ≠ some d :=
  fun h => n.notMem hd (List.mem_of_getLast? h)

theorem ne_singleton (hd : Text.isDigit d = false) : n.digits ≠ [d] :=
  fun h => n.notMem hd (by simp [h])

@[simp] theorem head_append (t : Text) : (n.digits ++ t).head? = n.digits.head? := by
  obtain ⟨c,t',hct⟩ := List.exists_cons_of_ne_nil n.ne_nil
  rw [hct]
  rfl

@[simp] theorem last_append (t : Text) : (t ++ n.digits).getLast? = n.digits.getLast? := by
  rw [List.getLast?_append,List.getLast?_eq_some_getLast n.ne_nil]
  rfl

@[simp] theorem parse?_digits : WordIndex.parse? n.digits = n.place? := by
  have hall : n.digits.all Text.isDigit = true := List.all_eq_true.2 n.isDigit
  have hempty : n.digits.isEmpty = false := List.isEmpty_eq_false_iff.2 n.ne_nil
  rw [WordIndex.parse?,if_neg (n.ne_singleton rfl),if_neg (n.ne_singleton rfl),Text.natural?,
    hall,hempty,if_neg nofun,place?,value]
  split <;> rfl

end Numeral

@[simp] theorem parse?_choice (choice : Choice) :
    Designator.parse? choice.written = choice.designator? := by
  cases choice with
  | sign sign => cases sign <;> rfl
  | word n =>
    rw [Choice.written,Designator.parse?,if_neg (n.ne_singleton rfl),if_neg (n.last_ne rfl),
      if_neg (n.head_ne rfl),if_neg (n.last_ne rfl),
      Text.splitFirst?_eq_none.2 (n.notMem rfl),n.parse?_digits]
    rfl
  | range n m =>
    have hlast {d : Char} (hd : Text.isDigit d = false) :
        (n.digits ++ '-' :: m.digits).getLast? ≠ some d := by
      rw [List.append_cons,m.last_append]
      exact m.last_ne hd
    have hstar : n.digits ++ '-' :: m.digits ≠ ['*'] :=
      fun h => hlast (d := '*') rfl (congrArg List.getLast? h)
    rw [Choice.written,Designator.parse?,if_neg hstar,if_neg (hlast rfl),
      if_neg (by rw [n.head_append]; exact n.head_ne rfl),if_neg (hlast rfl),
      Text.splitFirst?_append (n.notMem rfl)]
    dsimp only
    rw [n.parse?_digits,m.parse?_digits,Choice.designator?]
    cases n.place? <;> cases m.place? <;> rfl
  | butLast n =>
    have hlast : (n.digits ++ ['-']).getLast? = some '-' := List.getLast?_concat
    have hstar : n.digits ++ ['-'] ≠ ['*'] := by
      intro h
      rw [h] at hlast
      cases hlast
    rw [Choice.written,Designator.parse?,if_neg hstar,
      if_neg (by rw [hlast]; exact nofun),
      if_neg (by rw [n.head_append]; exact n.head_ne rfl),if_pos hlast,List.dropLast_concat,
      n.parse?_digits]
    rfl
  | upTo m =>
    have hlast : ('-' :: m.digits).getLast? ≠ some '*' := by
      have := m.last_append ['-']
      rw [List.singleton_append] at this
      rw [this]
      exact m.last_ne rfl
    simp [Choice.written,Choice.designator?,Designator.parse?,hlast]
  | onward n =>
    have hlast : (n.digits ++ ['*']).getLast? = some '*' := List.getLast?_concat
    have hstar : n.digits ++ ['*'] ≠ ['*'] := by simp [n.ne_nil]
    simp [Choice.written,Choice.designator?,Designator.parse?,hstar,hlast]

section Changes

variable {t rest : Text} {delimiter : Char} {stopAtBlank : Bool}

theorem readField_cons {c : Char} (hc : c ≠ '\\') :
    readField delimiter stopAtBlank (c :: t) =
      if c = delimiter then ([],t,true)
      else if stopAtBlank && Text.isBlank c then ([],c :: t,false)
      else
        (c :: (readField delimiter stopAtBlank t).1,(readField delimiter stopAtBlank t).2) := by
  rw [readField.eq_def]
  split
  · next heq => cases heq
  · next heq => cases heq; exact absurd rfl hc
  · next heq => cases heq; exact absurd rfl hc
  · next heq => cases heq; rfl

/-- Characters that neither end a field nor protect others are part of it. -/
theorem readField_append
    (ht : ∀ c ∈ t, c ≠ delimiter ∧ c ≠ '\\' ∧ (stopAtBlank && Text.isBlank c) = false) :
    readField delimiter stopAtBlank (t ++ rest) =
      (t ++ (readField delimiter stopAtBlank rest).1,
        (readField delimiter stopAtBlank rest).2) := by
  induction t with
  | nil => rfl
  | cons c t ih =>
    obtain ⟨⟨hc,hb,hs⟩,ht⟩ := List.forall_mem_cons.1 ht
    simp [readField_cons hb,hc,hs,ih ht]

theorem readField_written
    (ht : ∀ c ∈ t, c ≠ delimiter ∧ c ≠ '\\' ∧ (stopAtBlank && Text.isBlank c) = false)
    (hd : delimiter ≠ '\\') :
    readField delimiter stopAtBlank (t ++ delimiter :: rest) = (t,rest,true) := by
  simp [readField_append ht,readField_cons hd]

@[simp] theorem read_change (change : Change) (rest : Text) :
    Modifier.read (change.body ++ rest) = .ok (change.modifier,rest) := by
  have hfields (f : Fields) (everywhere : Bool) :
      Modifier.readSubstitution everywhere
        ('/' :: (f.pattern ++ '/' :: (f.replacement ++ ['/'])) ++ rest) =
        .ok (.substitute everywhere f.pattern f.replacement,rest) := by
    have hpattern : readField '/' false (f.pattern ++ '/' :: (f.replacement ++ '/' :: rest)) =
        (f.pattern,f.replacement ++ '/' :: rest,true) :=
      readField_written (fun c hc => ⟨(f.pattern_free c hc).1,(f.pattern_free c hc).2,rfl⟩)
        (by decide)
    have hreplacement : readField '/' true (f.replacement ++ '/' :: rest) =
        (f.replacement,rest,true) :=
      readField_written f.replacement_free (by decide)
    simp only [List.cons_append,List.append_assoc,List.nil_append,Modifier.readSubstitution,
      hpattern,hreplacement,if_true]
  cases change with
  | again everywhere => cases everywhere <;> rfl
  | substitute everywhere f => cases everywhere <;> exact hfields f _
  | _ => rfl

end Changes

/-- What may follow a reference. -/
def Ends (tail : Text) : Prop :=
  ∀ c ∈ tail.head?, Text.isBlank c = true

section Designators

variable {rest tail : Text}

theorem writtenDesignator?_choice (choice : Choice) (h : Stops rest) :
    writtenDesignator? (':' :: (choice.written ++ rest)) = some (choice.written,rest) := by
  have hspan := span_choice choice h
  have hbegins : ∃ c t, choice.written = c :: t ∧
      (Text.isDigit c || c = '^' || c = '$' || c = '*' || c = '-') = true := by
    have hdigits (n : Numeral) (t : Text) : ∃ c t', n.digits ++ t = c :: t' ∧
        (Text.isDigit c || c = '^' || c = '$' || c = '*' || c = '-') = true := by
      obtain ⟨c,t',hct⟩ := List.exists_cons_of_ne_nil n.ne_nil
      exact ⟨c,t' ++ t,by rw [hct]; rfl,by simp [n.isDigit c (by simp [hct])]⟩
    cases choice with
    | sign sign => exact ⟨sign.char,[],rfl,by cases sign <;> rfl⟩
    | word n =>
      have := hdigits n []
      rwa [List.append_nil] at this
    | range n m => exact hdigits n _
    | butLast n => exact hdigits n _
    | upTo m => exact ⟨'-',m.digits,rfl,rfl⟩
    | onward n => exact hdigits n _
  obtain ⟨c,t,hct,hc⟩ := hbegins
  rw [hct] at hspan ⊢
  rw [List.cons_append] at hspan ⊢
  rw [writtenDesignator?,if_pos hc,hspan]

theorem Ends.stops (h : Ends tail) : Stops tail :=
  fun c hc => .inr (h c hc)

theorem Ends.head_ne (h : Ends tail) : tail.head? ≠ some ':' := by
  intro hc
  have := h ':' hc
  cases this

theorem stops_changes (changes : List Change) (h : Ends tail) :
    Stops (changes.flatMap Change.written ++ tail) := by
  cases changes with
  | nil => exact h.stops
  | cons change changes =>
    rintro _ ⟨⟩
    exact .inl rfl

theorem writtenDesignator?_changes (changes : List Change) (h : Ends tail) :
    writtenDesignator? (changes.flatMap Change.written ++ tail) = none := by
  cases changes with
  | nil =>
    rw [List.flatMap_nil,List.nil_append]
    unfold writtenDesignator?
    split
    · exact absurd rfl h.head_ne
    · rfl
  | cons change changes =>
    cases change with
    | again everywhere => cases everywhere <;> rfl
    | substitute everywhere f => cases everywhere <;> rfl
    | _ => rfl

end Designators

end Realm.History
