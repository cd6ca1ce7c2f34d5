import Realm.Glob
import Realm.Proofs.Pattern.Turns
import Realm.Proofs.Text

/-! How a segment falls into parts, and the regular expression that these are written as.
Characters are escaped if they have a meaning of their own, outside of classes and inside, and only
the hyphens of ranges stand bare. What is read from this text is the pattern of the segment. -/
namespace Realm.Glob

open Pattern (CharSet Escape OpenSet isMeta readItem rangeFrom readSets setTurn? beginSet readSet)

section Splitting

/-- A class behind its opening bracket: whether it is negated, its body, and what is behind its
closing bracket. That is the first one which does not begin the body. -/
inductive Bracketed : Text → Bool → Text → Text → Prop
  | plain {body rest : Text} : body ≠ [] → ']' ∉ body.tail → body.head? ≠ some '!' →
    Bracketed (body ++ ']' :: rest) false body rest
  | negated {body rest : Text} : body ≠ [] → ']' ∉ body.tail →
    Bracketed ('!' :: (body ++ ']' :: rest)) true body rest

inductive Splits : Text → List Part → Prop
  | nil : Splits [] []
  | run {t : Text} {ps : List Part} : Splits t ps → Splits ('*' :: t) (.run :: ps)
  | one {t : Text} {ps : List Part} : Splits t ps → Splits ('?' :: t) (.one :: ps)
  | oneOf {t body rest : Text} {negated : Bool} {ps : List Part} :
    Bracketed t negated body rest → Splits rest ps →
    Splits ('[' :: t) (.oneOf negated body :: ps)
  | char {c : Char} {t : Text} {ps : List Part} : c ≠ '*' → c ≠ '?' →
    (c = '[' → ∀ negated body rest, ¬Bracketed t negated body rest) → Splits t ps →
    Splits (c :: t) (.char c :: ps)

variable {segment t body rest : Text} {negated : Bool} {ps : List Part}

@[simp] theorem readBody?_eq_some :
    readBody? t = some (body,rest) ↔ body ≠ [] ∧ ']' ∉ body.tail ∧ t = body ++ ']' :: rest := by
  constructor
  · intro h
    cases t with
    | nil => cases h
    | cons c t =>
      obtain ⟨r,hr,heq⟩ := Option.map_eq_some_iff.1 h
      cases heq
      obtain ⟨rfl,hnot⟩ := Text.splitFirst?_eq_some.1 hr
      exact ⟨List.cons_ne_nil _ _,hnot,rfl⟩
  · rintro ⟨hbody,hnot,rfl⟩
    cases body with
    | nil => exact absurd rfl hbody
    | cons c body =>
      change (Text.splitFirst? ']' (body ++ ']' :: rest)).map _ = _
      rw [Text.splitFirst?_eq_some.2 ⟨rfl,by simpa using hnot⟩]
      rfl

theorem readClass?_eq_some :
    readClass? t = some (negated,body,rest) ↔ Bracketed t negated body rest := by
  constructor
  · intro h
    unfold readClass? at h
    split at h <;> obtain ⟨r,hr,heq⟩ := Option.map_eq_some_iff.1 h <;> cases heq
    · obtain ⟨hbody,hnot,rfl⟩ := readBody?_eq_some.1 hr
      exact .negated hbody hnot
    · next hplain =>
      obtain ⟨hbody,hnot,rfl⟩ := readBody?_eq_some.1 hr
      refine .plain hbody hnot fun hhead => ?_
      obtain ⟨t,ht⟩ := List.head?_eq_some_iff.1 hhead
      exact hplain (t ++ ']' :: rest) (by rw [ht,List.cons_append])
  · intro h
    cases h with
    | plain hbody hnot hhead =>
      have hread : readBody? (body ++ ']' :: rest) = some (body,rest) :=
        readBody?_eq_some.2 ⟨hbody,hnot,rfl⟩
      cases body with
      | nil => exact absurd rfl hbody
      | cons c body =>
        unfold readClass?
        split
        · next heq => exact absurd (congrArg List.head? heq) hhead
        · rw [hread]
          rfl
    | negated hbody hnot =>
      rw [readClass?,readBody?_eq_some.2 ⟨hbody,hnot,rfl⟩]
      rfl

theorem Bracketed.ne_nil (h : Bracketed t negated body rest) : body ≠ [] := by
  cases h <;> assumption

theorem readClass?_eq_none :
    readClass? t = none ↔ ∀ negated body rest, ¬Bracketed t negated body rest := by
  rw [Option.eq_none_iff_forall_ne_some]
  refine ⟨fun h negated body rest hclass => h _ (readClass?_eq_some.2 hclass),?_⟩
  rintro h ⟨negated,body,rest⟩ hread
  exact h negated body rest (readClass?_eq_some.1 hread)

theorem parts_bracket (t : Text) : parts ('[' :: t) =
    match readClass? t with
    | some (negated,body,rest) => .oneOf negated body :: parts rest
    | none => .char '[' :: parts t := by
  rw [parts,if_neg (by decide),if_neg (by decide),if_pos rfl]
  split <;> next h => rw [h]

/-- A segment has its parts, and no others. -/
theorem splits_iff : Splits segment ps ↔ parts segment = ps := by
  constructor
  · intro h
    induction h with
    | nil => rw [parts]
    | run _ ih => rw [parts,if_pos rfl,ih]
    | one _ ih => rw [parts,if_neg (by decide),if_pos rfl,ih]
    | oneOf hclass _ ih =>
      rw [parts_bracket,readClass?_eq_some.2 hclass,← ih]
    | @char c t ps hrun hone hopen _ ih =>
      by_cases hc : c = '['
      · subst hc
        rw [parts_bracket,readClass?_eq_none.2 (hopen rfl),← ih]
      · rw [parts,if_neg hrun,if_neg hone,if_neg hc,ih]
  · rintro rfl
    fun_induction parts segment with
    | case1 => exact .nil
    | case2 t ih => exact .run ih
    | case3 t _ ih => exact .one ih
    | case4 t negated body rest hclass _ _ ih => exact .oneOf (readClass?_eq_some.1 hclass) ih
    | case5 t hclass _ _ ih =>
      exact .char (by decide) (by decide) (fun _ => readClass?_eq_none.1 hclass) ih
    | case6 c t hrun hone hopen ih => exact .char hrun hone (fun h => absurd h hopen) ih

theorem Splits.ne_nil (h : Splits segment ps) (hmem : .oneOf negated body ∈ ps) : body ≠ [] := by
  induction h with
  | nil => cases hmem
  | oneOf hclass _ ih =>
    rcases List.mem_cons.1 hmem with heq | hmem
    · cases heq
      exact hclass.ne_nil
    · exact ih hmem
  | run _ ih => exact ih (List.mem_of_ne_of_mem Part.noConfusion hmem)
  | one _ ih => exact ih (List.mem_of_ne_of_mem Part.noConfusion hmem)
  | char _ _ _ _ ih => exact ih (List.mem_of_ne_of_mem Part.noConfusion hmem)

end Splitting

section Writing

def escaped (c : Char) : Text :=
  if isMeta c then ['\\',c] else [c]

def Mark.text : Mark → Text
  | char c => escaped c
  | hyphen => ['-']

def Part.text : Part → Text
  | run => "[^/]*".toList
  | one => "[^/]".toList
  | char c => escaped c
  | oneOf negated body =>
    '[' :: ((if negated then ['^'] else []) ++ ((marks body).flatMap Mark.text ++ [']']))

def regularExpression (segment : Text) : Text :=
  '^' :: ((parts segment).flatMap Part.text ++ ['$'])

end Writing

section Characters

variable {c : Char} {t : Text}

theorem escaped_cases (c : Char) :
    escaped c = ['\\',c] ∧ isMeta c = true ∨ escaped c = [c] ∧ isMeta c = false := by
  cases h : isMeta c <;> simp [escaped,h]

theorem ne_of_isMeta {d : Char} (hd : isMeta d = true) (hc : isMeta c = false) : c ≠ d := by
  rintro rfl
  rw [hd] at hc
  cases hc

/-- What begins an escaped character has no meaning of its own, unless it is a backslash. -/
theorem head?_escaped {d : Char} (hd : isMeta d = true) (hother : d ≠ '\\') (c : Char)
    (t : Text) : (escaped c ++ t).head? ≠ some d := by
  rcases escaped_cases c with ⟨h,-⟩ | ⟨h,hc⟩ <;> rw [h]
  · simpa using hother.symm
  · simpa using ne_of_isMeta hd hc

theorem readEscape_meta (hc : isMeta c = true) :
    Pattern.readEscape {} (c :: t) = some (.char c,t) := by
  have hne {d : Char} (hd : isMeta d = false) : c ≠ d := (ne_of_isMeta hc hd).symm
  have hclass : ['d','D','s','S','w','W'].contains c = false := by
    simp [@hne 'd' rfl,@hne 'D' rfl,@hne 's' rfl,@hne 'S' rfl,@hne 'w' rfl,@hne 'W' rfl]
  rw [Pattern.readEscape,if_neg (hne rfl),if_neg (hne rfl),if_neg (hne rfl),hclass,
    if_neg Bool.false_ne_true,if_pos hc]

theorem readItem_escaped (c : Char) (t : Text) :
    ∃ d rest, escaped c ++ t = d :: rest ∧ readItem {} d rest = some (.char c,t) := by
  rcases escaped_cases c with ⟨h,hc⟩ | ⟨h,hc⟩ <;> rw [h]
  · exact ⟨'\\',c :: t,rfl,readEscape_meta hc⟩
  · exact ⟨c,t,rfl,if_neg (ne_of_isMeta rfl hc)⟩

end Characters

section Sets

variable {o : OpenSet} {outer : List OpenSet} {c : Char} {t : Text}

/-- An escaped character begins an item of a set or a range, and nothing else. -/
theorem readSets_escaped (c : Char) (t : Text) :
    readSets {} o outer (escaped c ++ t) =
      (rangeFrom {} (.char c) (.char c) t).bind fun r => readSets {} (o.add r.1) outer r.2 := by
  obtain ⟨d,rest,heq,hitem⟩ := readItem_escaped c t
  have hne {e : Char} (he : isMeta e = true) (hother : e ≠ '\\') : d ≠ e := by
    have h := head?_escaped he hother c t
    rw [heq] at h
    simpa using h
  have hturn : setTurn? {} o outer d rest =
      (rangeFrom {} (.char c) (.char c) t).map fun r => (.inr (o.add r.1,outer),r.2) := by
    have hrange : Pattern.readRange {} d rest = rangeFrom {} (.char c) (.char c) t := by
      rw [Pattern.readRange_eq,hitem]
      rfl
    have hop := @hne '[' rfl (by decide)
    have hclose := @hne ']' rfl (by decide)
    have hand := @hne '&' rfl (by decide)
    have hminus := @hne '-' rfl (by decide)
    have htilde := @hne '~' rfl (by decide)
    simp [setTurn?,hop,hclose,hand,hminus,htilde,hrange]
  rw [heq,Pattern.readSets_cons,hturn]
  cases rangeFrom {} (.char c) (.char c) t <;> rfl

theorem readSets_hyphen (ht : t.head? ≠ some '-') :
    readSets {} o outer ('-' :: t) = readSets {} (o.add (.char '-')) outer t := by
  have hrange : rangeFrom {} (.char '-') (.char '-') t = some (.char '-',t) := by
    cases t with
    | nil => rfl
    | cons d t => exact Pattern.rangeFrom_other fun h => ht (congrArg some h)
  have hread : Pattern.readRange {} '-' t = some (.char '-',t) := by
    rw [Pattern.readRange_eq]
    exact hrange
  have hturn : setTurn? {} o outer '-' t = some (.inr (o.add (.char '-'),outer),t) := by
    simp [setTurn?,ht,hread]
  rw [Pattern.readSets_cons,hturn]

theorem readSets_hyphens (t : Text) :
    readSets {} o outer ('-' :: '-' :: t) = readSets {} (o.operate {} .diff) outer t := by
  have hturn : setTurn? {} o outer '-' ('-' :: t) = some (.inr (o.operate {} .diff,outer),t) := by
    simp [setTurn?]
  rw [Pattern.readSets_cons,hturn]

theorem readSets_close (t : Text) : readSets {} o [] (']' :: t) = some (o.close {},t) := by
  have hturn : setTurn? {} o [] ']' t = some (.inl (o.close {}),t) := by
    simp [setTurn?]
  rw [Pattern.readSets_cons,hturn]

/-- A class while it is read: the set from which the items are to be taken, if there is one, and
the items. -/
def openSet (negated : Bool) (minuend : Option CharSet) (items : CharSet) : OpenSet :=
  ⟨negated,minuend.map (·,.diff),items⟩

variable {negated : Bool} {minuend : Option CharSet} {items : CharSet} {ms : List Mark}

@[simp] theorem add_openSet (s : CharSet) :
    (openSet negated minuend items).add s = openSet negated minuend (charSet?.add items s) :=
  rfl

@[simp] theorem operand_openSet :
    (openSet negated minuend items).operand {} = charSet?.close minuend items := by
  cases minuend <;> rfl

@[simp] theorem operate_openSet : (openSet negated minuend items).operate {} .diff =
    openSet negated (some (charSet?.close minuend items)) .none := by
  rw [OpenSet.operate,operand_openSet]
  rfl

@[simp] theorem close_openSet : (openSet negated minuend items).close {} =
    if negated then .compl (charSet?.close minuend items)
    else charSet?.close minuend items := by
  rw [OpenSet.close,operand_openSet]
  rfl

/-- Unless a hyphen comes first, the text of marks up to the closing bracket does not begin with
one. -/
theorem head?_marks (hms : ∀ ms', ms ≠ .hyphen :: ms') (t : Text) :
    (ms.flatMap Mark.text ++ ']' :: t).head? ≠ some '-' := by
  cases ms with
  | nil => simp
  | cons m ms =>
    cases m with
    | char c =>
      rw [List.flatMap_cons,List.append_assoc]
      exact head?_escaped rfl (by decide) c _
    | hyphen => exact absurd rfl (hms ms)

/-- A hyphen that is followed by a character makes a range of the item before it. -/
@[simp] theorem rangeFrom_range (a b : Char) (t : Text) :
    rangeFrom {} (.char a) (.char a) ('-' :: (escaped b ++ t)) =
      if a ≤ b then some (.range a b,t) else none := by
  obtain ⟨d,rest,heq,hitem⟩ := readItem_escaped b t
  have hbracket : d ≠ ']' := by
    have h := head?_escaped (d := ']') rfl (by decide) b t
    rw [heq] at h
    simpa using h
  have hhyphen : d ≠ '-' := by
    have h := head?_escaped (d := '-') rfl (by decide) b t
    rw [heq] at h
    simpa using h
  rw [Pattern.rangeFrom_hyphen,heq]
  change (if d = ']' ∨ d = '-' then _ else Pattern.rangeStop {} (.char a) d rest) = _
  rw [if_neg (not_or.2 ⟨hbracket,hhyphen⟩),Pattern.rangeStop,hitem]
  rfl

theorem rangeFrom_single (hms : ∀ b ms', ms ≠ .hyphen :: .char b :: ms') (a : Char) (t : Text) :
    rangeFrom {} (.char a) (.char a) (ms.flatMap Mark.text ++ ']' :: t) =
      some (.char a,ms.flatMap Mark.text ++ ']' :: t) := by
  by_cases hhyphen : ∃ ms', ms = .hyphen :: ms'
  · obtain ⟨ms,rfl⟩ := hhyphen
    rw [List.flatMap_cons]
    cases ms with
    | nil => rfl
    | cons m ms =>
      cases m with
      | char b => exact absurd rfl (hms b ms)
      | hyphen => rfl
  · have hhead := head?_marks (fun ms' h => hhyphen ⟨ms',h⟩) t
    cases htext : ms.flatMap Mark.text ++ ']' :: t with
    | nil => rfl
    | cons d rest =>
      rw [htext] at hhead
      exact Pattern.rangeFrom_other fun h => hhead (congrArg some h)

theorem readSets_marks (minuend : Option CharSet) (items : CharSet) (ms : List Mark) (t : Text) :
    readSets {} (openSet negated minuend items) [] (ms.flatMap Mark.text ++ ']' :: t) =
      (charSet? minuend items ms).map fun s => (if negated then .compl s else s,t) := by
  fun_induction charSet? minuend items ms with
  | case1 minuend items =>
    simp [readSets_close]
  | case2 minuend items ms ih =>
    rw [List.flatMap_cons,List.flatMap_cons,← ih,← operate_openSet]
    exact readSets_hyphens _
  | case3 minuend items ms hms ih =>
    rw [List.flatMap_cons,← ih,← add_openSet]
    exact readSets_hyphen (head?_marks (fun ms' h => hms ms' h) t)
  | case4 minuend items a b ms hab ih =>
    have htext : (Mark.char a :: .hyphen :: .char b :: ms).flatMap Mark.text ++ ']' :: t =
        escaped a ++ '-' :: (escaped b ++ (ms.flatMap Mark.text ++ ']' :: t)) := by
      simp [Mark.text]
    rw [htext,readSets_escaped,rangeFrom_range,if_pos hab,← ih,← add_openSet]
    rfl
  | case5 minuend items a b ms hab =>
    have htext : (Mark.char a :: .hyphen :: .char b :: ms).flatMap Mark.text ++ ']' :: t =
        escaped a ++ '-' :: (escaped b ++ (ms.flatMap Mark.text ++ ']' :: t)) := by
      simp [Mark.text]
    rw [htext,readSets_escaped,rangeFrom_range,if_neg hab]
    rfl
  | case6 minuend items a ms hms ih =>
    rw [List.flatMap_cons,List.append_assoc,Mark.text,readSets_escaped,
      rangeFrom_single fun b ms' h => hms b ms' h,← ih,← add_openSet]
    rfl

@[simp] theorem beginSet_escaped (negated : Bool) (c : Char) (t : Text) :
    beginSet {} ((if negated then ['^'] else []) ++ (escaped c ++ t)) =
      (openSet negated none .none,escaped c ++ t) := by
  have hbracket := head?_escaped (d := ']') rfl (by decide) c t
  have hhyphen := head?_escaped (d := '-') rfl (by decide) c t
  have hcaret := head?_escaped (d := '^') rfl (by decide) c t
  obtain ⟨d,rest,heq,-⟩ := readItem_escaped c t
  rw [heq] at hbracket hhyphen hcaret ⊢
  have hfirst (o : OpenSet) :
      Pattern.firstBracket {} (Pattern.leadingHyphens {} o (d :: rest)) = (o,d :: rest) := by
    rw [Pattern.leadingHyphens_other fun h => hhyphen (congrArg some h)]
    exact Pattern.firstBracket_other fun t' _ h => hbracket (congrArg List.head? h)
  cases negated with
  | true => exact hfirst _
  | false =>
    change Pattern.firstBracket {} (Pattern.leadingHyphens {}
      ⟨(Pattern.negation {} (d :: rest)).1,none,.none⟩ (Pattern.negation {} (d :: rest)).2) = _
    rw [Pattern.negation_other fun h => hcaret (congrArg some h)]
    exact hfirst _

theorem readSet_body (negated : Bool) {body : Text} (hbody : body ≠ []) (t : Text) :
    readSet {} ((if negated then ['^'] else []) ++
        ((marks body).flatMap Mark.text ++ ']' :: t)) =
      (charSet? none .none (marks body)).map fun s => (if negated then .compl s else s,t) := by
  cases body with
  | nil => exact absurd rfl hbody
  | cons c body =>
    rw [← readSets_marks,readSet,marks,List.flatMap_cons,Mark.text,List.append_assoc,
      beginSet_escaped]

end Sets

section Parts

open Pattern (Level State)

variable {s : State} {t : Text}

theorem turn?_other (hflags : s.flags = {}) {c : Char} (hc : isMeta c = false) (t : Text) :
    s.turn? c t = some (s.push (.chars (.char c)),t) := by
  have hblanks : ¬(s.flags.ignoreBlanks && (Text.isBlank c || c = '#')) = true := by
    rw [hflags]
    exact Bool.false_ne_true
  unfold State.turn?
  rw [if_neg hblanks,hflags]
  split <;> first | rfl | exact absurd hc (by decide)

theorem turn?_bracket (hflags : s.flags = {}) (t : Text) : s.turn? '[' t =
    (Pattern.readSet {} t).map fun r => (s.push (.chars r.1),r.2) := by
  rw [State.turn?,if_neg (State.not_blanks rfl)]
  simp only [State.pushSet?,hflags]
  cases Pattern.readSet {} t <;> rfl

@[simp] theorem turn?_star (t : Text) : s.turn? '*' t = s.readRepetition 0 none t := by
  rw [State.turn?,if_neg (State.not_blanks rfl)]

@[simp] theorem turn?_start (t : Text) : s.turn? '^' t =
    some (s.push (.look (Pattern.startLook s.flags)),t) := by
  rw [State.turn?,if_neg (State.not_blanks rfl)]

theorem read_escaped (hflags : s.flags = {}) (c : Char) (t : Text) :
    s.read (escaped c ++ t) = (s.push (.chars (.char c))).read t := by
  rcases escaped_cases c with ⟨h,hc⟩ | ⟨h,hc⟩ <;> rw [h]
  · have hread : Pattern.readEscaped {} (c :: t) = some (.chars (.char c),t) := by
      rw [Pattern.readEscaped,readEscape_meta hc]
      rfl
    change s.read ('\\' :: c :: t) = _
    rw [State.read_cons,State.turn?_escape,hflags,hread]
    rfl
  · change s.read (c :: t) = _
    rw [State.read_cons,turn?_other hflags hc]
    rfl

theorem read_oneOf (hflags : s.flags = {}) (negated : Bool) {body : Text} (hbody : body ≠ [])
    (t : Text) : s.read ((Part.oneOf negated body).text ++ t) =
      (Part.oneOf negated body).pattern?.bind fun p => (s.push p).read t := by
  have htext : (Part.oneOf negated body).text ++ t = '[' :: ((if negated then ['^'] else []) ++
      ((marks body).flatMap Mark.text ++ ']' :: t)) := by
    simp [Part.text]
  rw [htext,State.read_cons,turn?_bracket hflags,readSet_body negated hbody,Part.pattern?]
  cases charSet? none .none (marks body) <;> rfl

theorem read_anyChar (hflags : s.flags = {}) (t : Text) :
    s.read (Part.one.text ++ t) = (s.push anyChar).read t :=
  read_oneOf hflags true (List.cons_ne_nil '/' []) t

theorem read_run (hflags : s.flags = {}) (ht : t.head? ≠ some '?') :
    s.read (Part.run.text ++ t) = (s.push (.repeated anyChar 0 none true)).read t := by
  have hgreedy : Pattern.readLaziness {} t = (true,t) := by
    cases t with
    | nil => rfl
    | cons c t =>
      unfold Pattern.readLaziness
      split
      · next heq => exact absurd (congrArg List.head? heq) ht
      · rfl
  have hturn : (s.push anyChar).turn? '*' t =
      some (s.push (.repeated anyChar 0 none true),t) := by
    rw [turn?_star,State.readRepetition]
    change ((s.push anyChar).repeatLast? 0 none (Pattern.readLaziness s.flags t).1).map
      (·,(Pattern.readLaziness s.flags t).2) = _
    rw [hflags,hgreedy]
    rfl
  change s.read (Part.one.text ++ '*' :: t) = _
  rw [read_anyChar hflags,State.read_cons,hturn]
  rfl

theorem read_part (hflags : s.flags = {}) {p : Part} (hp : ∀ negated, p ≠ .oneOf negated [])
    (ht : t.head? ≠ some '?') :
    s.read (p.text ++ t) = p.pattern?.bind fun q => (s.push q).read t := by
  cases p with
  | run => exact read_run hflags ht
  | one => exact read_anyChar hflags t
  | char c => exact read_escaped hflags c t
  | oneOf negated body => exact read_oneOf hflags negated (fun h => hp negated (h ▸ rfl)) t

/-- Patterns that are read one after the other make one pattern, from right to left. -/
theorem sequence_parts (qs : List Pattern) {p : Pattern} (hp : p ≠ .empty) :
    Pattern.sequence (.part p :: qs.map .part) = qs.foldl (fun rest q => .seq q rest) p := by
  induction qs generalizing p with
  | nil => rfl
  | cons q qs ih =>
    have hseq : Pattern.sequence (.part p :: .part q :: qs.map .part) =
        Pattern.sequence (.part (.seq q p) :: qs.map .part) := by
      cases p <;> first | rfl | exact absurd rfl hp
    exact hseq.trans (ih Pattern.noConfusion)

theorem head?_parts (ps : List Part) :
    (ps.flatMap Part.text ++ ['$']).head? ≠ some '?' := by
  cases ps with
  | nil => decide
  | cons p ps =>
    rw [List.flatMap_cons,List.append_assoc]
    cases p with
    | char c => exact head?_escaped rfl (by decide) c _
    | run => exact fun h => absurd (Option.some.inj h) (by decide)
    | one => exact fun h => absurd (Option.some.inj h) (by decide)
    | oneOf => exact fun h => absurd (Option.some.inj h) (by decide)

theorem read_parts {ps : List Part} (hflags : s.flags = {}) (houter : s.outer = [])
    (hps : ∀ negated, .oneOf negated [] ∉ ps) : s.read (ps.flatMap Part.text ++ ['$']) =
      (ps.mapM Part.pattern?).map fun qs => Level.finish ⟨s.level.alternatives,
        .part (.look .textEnd) :: (qs.reverse.map .part ++ s.level.items)⟩ := by
  induction ps generalizing s with
  | nil =>
    change s.read ['$'] = _
    rw [State.read_cons,State.turn?_end,hflags,Option.bind_some,State.read_nil]
    change (if s.outer.isEmpty then _ else none) = _
    rw [houter]
    rfl
  | cons p ps ih =>
    have hp (negated : Bool) : p ≠ .oneOf negated [] := fun h => hps negated (h ▸ .head _)
    have hps (negated : Bool) : .oneOf negated [] ∉ ps := fun h => hps negated (.tail _ h)
    rw [List.flatMap_cons,List.append_assoc,read_part hflags hp (head?_parts ps),
      List.mapM_cons]
    cases p.pattern? with
    | none => rfl
    | some q =>
      have hread := @ih (s.push q) hflags houter hps
      rw [Option.bind_some,hread]
      cases ps.mapM Part.pattern? with
      | none => rfl
      | some qs => simp [State.push,Level.push]

/-- The pattern of a segment is what is read from the regular expression it is written as. -/
theorem read?_regularExpression (segment : Text) :
    Pattern.read? (regularExpression segment) = pattern? segment := by
  have hps (negated : Bool) : .oneOf negated [] ∉ parts segment := fun h =>
    (splits_iff.2 rfl).ne_nil h rfl
  have hstart (t : Text) : Pattern.read? ('^' :: t) =
      (State.push ⟨{},{},[],[]⟩ (.look .textStart)).read t := by
    change State.read ⟨{},{},[],[]⟩ ('^' :: t) = _
    rw [State.read_cons,turn?_start]
    rfl
  rw [regularExpression,hstart,read_parts rfl rfl hps,pattern?]
  cases (parts segment).mapM Part.pattern? with
  | none => rfl
  | some qs =>
    have hitems : qs.reverse.map Pattern.Item.part ++ [Pattern.Item.part (.look .textStart)] =
        (qs.reverse ++ [Pattern.look .textStart]).map Pattern.Item.part := by simp
    change some (Pattern.choice [Pattern.sequence (.part (.look .textEnd) ::
      (qs.reverse.map .part ++ [.part (.look .textStart)]))]) = some _
    rw [hitems,sequence_parts _ Pattern.noConfusion,List.foldl_append,
      List.foldr_eq_foldl_reverse]
    rfl

end Parts

end Realm.Glob
