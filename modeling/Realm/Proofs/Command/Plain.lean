import Realm.Proofs.Command.Extent
import Realm.Proofs.Command.Quoting
import Realm.Proofs.Command.Variables

/-! Lines of plain words. Where quotes, operators and variables mean nothing, a line is cut into
blanks and parts of words; put together again, these are what stands between the blanks. -/
namespace Realm

namespace Text

theorem Ranges.covers_apart {rs rs' : Ranges}
    (h : rs.all (fun r => rs'.all fun r' => r.2 < r'.1 || r'.2 < r.1) = true) {c : Char}
    (hc : rs.covers c = true) : rs'.covers c = false := by
  obtain ⟨r,hr,hlow,hhigh⟩ := (covers_iff rs c).1 hc
  refine Bool.eq_false_iff.2 fun hc' => ?_
  obtain ⟨r',hr',hlow',hhigh'⟩ := (covers_iff rs' c).1 hc'
  have hapart := List.all_eq_true.1 (List.all_eq_true.1 h r hr) r' hr'
  simp only [Bool.or_eq_true,decide_eq_true_eq] at hapart
  omega

theorem beq_eq_between (n k : Nat) : (n == k) = (decide (k ≤ n) && decide (n ≤ k)) := by
  rw [Bool.eq_iff_iff,Bool.and_eq_true,beq_iff_eq,decide_eq_true_eq,decide_eq_true_eq]
  omega

theorem isBlank_eq (c : Char) :
    isBlank c = Ranges.covers [(9,13),(0x20,0x20),(0x85,0x85),(0xa0,0xa0),(0x1680,0x1680),
      (0x2000,0x200a),(0x2028,0x2028),(0x2029,0x2029),(0x202f,0x202f),(0x205f,0x205f),
      (0x3000,0x3000)] c := by
  simp only [isBlank,Ranges.covers,List.any_cons,List.any_nil,Bool.or_false,Bool.or_assoc,
    beq_eq_between]

theorem not_isBlank_of_isDecimalDigit {c : Char} (h : isDecimalDigit c = true) :
    isBlank c = false := by
  have hdigits : Ranges.covers ((0x30,0x39) :: decimalDigitRanges) c = true := by
    rw [Ranges.covers_iff]
    rcases Bool.or_eq_true_iff.1 h with hascii | hrange
    · simp only [isDigit,Bool.and_eq_true,decide_eq_true_eq,Char.le_def,
        UInt32.le_iff_toNat_le] at hascii
      exact ⟨_,.head _,hascii⟩
    · obtain ⟨r,hr,hin⟩ := (Ranges.covers_iff _ c).1 (Bool.and_eq_true_iff.1 hrange).2
      exact ⟨r,.tail _ hr,hin⟩
  rw [isBlank_eq]
  exact Ranges.covers_apart (by decide +kernel) hdigits

/-! Words are found from left to right. -/

/-- Without a blank in it. -/
def IsSolid (x : Text) : Prop :=
  ∀ c ∈ x, isBlank c = false

theorem words_eq_singleton {x : Text} (h : x.IsSolid) (hx : x ≠ []) : words x = [x] := by
  rw [words,splitWhere_eq_singleton h]
  simp [hx]

theorem words_append {x : Text} (h : x.IsSolid) (hx : x ≠ []) {c : Char}
    (hc : isBlank c = true) (t : Text) : words (x ++ c :: t) = x :: words t := by
  rw [words,splitWhere_append hc,splitWhere_eq_singleton h]
  simp [words,hx]

theorem words_blank_cons {c : Char} (hc : isBlank c = true) (t : Text) :
    words (c :: t) = words t := by
  rw [words,show c :: t = [] ++ c :: t from rfl,splitWhere_append hc]
  simp [words,splitWhere]

theorem words_blanks {gap : Text} (h : ∀ c ∈ gap, isBlank c = true) (t : Text) :
    words (gap ++ t) = words t := by
  induction gap with
  | nil => rfl
  | cons c gap ih =>
    obtain ⟨hc,hgap⟩ := List.forall_mem_cons.1 h
    rw [List.cons_append,words_blank_cons hc,ih hgap]

theorem words_gap {x gap : Text} (h : x.IsSolid) (hx : x ≠ [])
    (hgap : ∀ c ∈ gap, isBlank c = true) (hne : gap ≠ []) (t : Text) :
    words (x ++ (gap ++ t)) = x :: words t := by
  obtain ⟨c,gap,rfl⟩ := List.exists_cons_of_ne_nil hne
  obtain ⟨hc,hgap⟩ := List.forall_mem_cons.1 hgap
  rw [List.cons_append,words_append h hx hc,words_blanks hgap]

theorem words_first {x rest : Text} (h : x.IsSolid) (hx : x ≠ [])
    (hrest : ∀ c ∈ rest.head?, isBlank c = true) : words (x ++ rest) = x :: words rest := by
  cases rest with
  | nil => rw [List.append_nil,words_eq_singleton h hx]; rfl
  | cons c rest => rw [words_append h hx (hrest c rfl),words_blank_cons (hrest c rfl)]

/-- A text is blank, or has a first word with blanks before it and behind it. -/
theorem blank_or_word (t : Text) : (∀ c ∈ t, isBlank c = true) ∨
    ∃ gap x rest, t = gap ++ (x ++ rest) ∧ (∀ c ∈ gap, isBlank c = true) ∧ x.IsSolid ∧ x ≠ [] ∧
      ∀ c ∈ rest.head?, isBlank c = true := by
  induction t with
  | nil => exact .inl (List.forall_mem_nil _)
  | cons c t ih =>
    by_cases hc : isBlank c = true
    · rcases ih with hblank | ⟨gap,x,rest,rfl,hgap,hx⟩
      · exact .inl (List.forall_mem_cons.2 ⟨hc,hblank⟩)
      · exact .inr ⟨c :: gap,x,rest,rfl,List.forall_mem_cons.2 ⟨hc,hgap⟩,hx⟩
    · refine .inr ⟨[],(c :: t).takeWhile (!isBlank ·),(c :: t).dropWhile (!isBlank ·),
        List.takeWhile_append_dropWhile.symm,List.forall_mem_nil _,fun d hd => ?_,by simp [hc],
        fun d hd => ?_⟩
      · simpa using List.all_eq_true.1 List.all_takeWhile d hd
      · have hfirst := List.head?_dropWhile_not (!isBlank ·) (c :: t)
        rw [Option.mem_def.1 hd] at hfirst
        simpa using hfirst

theorem isAllBlank_iff (t : Text) : isAllBlank t = true ↔ words t = [] := by
  rcases blank_or_word t with hblank | ⟨gap,x,rest,rfl,hgap,hsolid,hne,hrest⟩
  · refine iff_of_true (List.all_eq_true.2 hblank) ?_
    rw [← List.append_nil t,words_blanks hblank]
    rfl
  · refine iff_of_false ?_ ?_
    · obtain ⟨c,x,rfl⟩ := List.exists_cons_of_ne_nil hne
      simp [isAllBlank,hsolid c (.head _)]
    · rw [words_blanks hgap,words_first hsolid hne hrest]
      exact nofun

theorem solid_of_mem_words {t x : Text} (h : x ∈ words t) : x.IsSolid ∧ x ≠ [] := by
  induction hn : t.length using Nat.strongRecOn generalizing t with
  | _ n ih =>
  subst hn
  rcases blank_or_word t with hblank | ⟨gap,y,rest,rfl,hgap,hsolid,hne,hrest⟩
  · rw [(isAllBlank_iff t).1 (List.all_eq_true.2 hblank)] at h
    cases h
  · rw [words_blanks hgap,words_first hsolid hne hrest] at h
    rcases List.mem_cons.1 h with rfl | h
    · exact ⟨hsolid,hne⟩
    · have := List.length_pos_iff.2 hne
      exact ih _ (by simp only [List.length_append]; omega) h rfl

theorem words_join {xs : List Text} (h : ∀ x ∈ xs, x.IsSolid ∧ x ≠ []) :
    words (join [' '] xs) = xs := by
  induction xs with
  | nil => rfl
  | cons x xs ih =>
    obtain ⟨⟨hsolid,hne⟩,hxs⟩ := List.forall_mem_cons.1 h
    cases xs with
    | nil => rw [join,List.intercalate_singleton,words_eq_singleton hsolid hne]
    | cons y ys =>
      rw [join,List.intercalate_cons_cons,List.append_assoc]
      exact (words_append hsolid hne (by decide) _).trans (congrArg _ (ih hxs))

end Text

section Bare

/-- A part of a line without a grammar: blanks, or a part of a word. -/
def Token.IsBare (t : Token) : Prop :=
  t.value ≠ [] ∧ (t.kind = .blank ∧ (∀ c ∈ t.value, Text.isBlank c = true) ∨
    (t.kind = .word ∨ t.kind = .numeric) ∧ Text.IsSolid t.value)

theorem Token.IsBare.length_lt {t : Token} (h : t.IsBare) {text rest : Text}
    (hrest : text = t.value ++ rest) : rest.length < text.length := by
  have := List.length_pos_iff.2 h.1
  rw [hrest,List.length_append]
  omega

namespace Lexeme

variable {σ : Type} {o : Options σ} {ctx : LexContext} {previous : Option Token.Kind} {start : Nat}
  {c : Char} {t : Text} {lexeme : Lexeme}

structure Stands (lexeme : Lexeme) (c : Char) (t : Text) : Prop where
  value_eq : lexeme.value = (c :: t).take lexeme.width
  bare : lexeme.kind = .blank ∧ (∀ d ∈ lexeme.value, Text.isBlank d = true) ∨
    (lexeme.kind = .word ∨ lexeme.kind = .numeric) ∧ Text.IsSolid lexeme.value

theorem run_stands {kind : Token.Kind} {piece : Text} (h : piece <+: t)
    (hbare : kind = .blank ∧ (∀ d ∈ c :: piece, Text.isBlank d = true) ∨
      (kind = .word ∨ kind = .numeric) ∧ Text.IsSolid (c :: piece)) :
    (run kind c piece).Stands c t where
  value_eq := congrArg (c :: ·) (List.prefix_iff_eq_take.1 h)
  bare := hbare

theorem single_stands (hb : Text.isBlank c = false) : (single .word c).Stands c t where
  value_eq := rfl
  bare := .inr ⟨.inl rfl,List.forall_mem_singleton.2 hb⟩

theorem number?_stands (h : number? c t = some lexeme) : lexeme.Stands c t := by
  obtain ⟨hc,piece,hpiece,hdigits,rfl⟩ := number?_run h
  refine run_stands hpiece (.inr ⟨.inr rfl,List.forall_mem_cons.2
    ⟨Text.not_isBlank_of_isDecimalDigit hc,fun d hd => ?_⟩⟩)
  rcases hdigits d hd with hd | rfl
  · exact Text.not_isBlank_of_isDecimalDigit hd
  · decide

theorem special_restricted (he : ctx.expression = false) :
    special .restricted ctx start c t = .ok (single .word c) := by
  unfold special
  split <;> simp [Grammar.restricted,he]

/-- Where neither an alias nor a member can stand, a lexeme stands for itself or begins with a
special character. -/
theorem scan_cases (start : Nat) (ha : (!ctx.inCommand && (o.charAlias? c).isSome) = false)
    (hm : member? o.toGrammar previous c t = none) :
    (∃ lexeme, scan o ctx previous start c t = .ok lexeme ∧ lexeme.Stands c t) ∨
      Text.isBlank c = false ∧
        scan o ctx previous start c t = special o.toGrammar ctx start c t := by
  unfold scan
  rw [ha,hm]
  dsimp only
  split
  · next hfalse => cases hfalse
  · split
    · next hb =>
      refine .inl ⟨_,rfl,run_stands (List.takeWhile_prefix _)
        (.inl ⟨rfl,List.forall_mem_cons.2 ⟨hb,?_⟩⟩)⟩
      exact fun d hd => List.all_eq_true.1 List.all_takeWhile d hd
    · next hb =>
      replace hb := Bool.eq_false_iff.2 hb
      split
      · next hnumber => exact .inl ⟨_,rfl,number?_stands hnumber⟩
      · split
        · refine .inl ⟨_,rfl,run_stands (List.takeWhile_prefix _)
            (.inr ⟨.inl rfl,List.forall_mem_cons.2 ⟨hb,fun d hd => ?_⟩⟩)⟩
          have hplain := List.all_eq_true.1 List.all_takeWhile d hd
          unfold isPlain at hplain
          simpa using (Bool.and_eq_true_iff.1 hplain).1
        · exact .inr ⟨hb,rfl⟩

theorem scan_restricted (ho : o.toGrammar = .restricted) (he : ctx.expression = false)
    (ha : (!ctx.inCommand && (o.charAlias? c).isSome) = false) :
    ∃ lexeme, scan o ctx previous start c t = .ok lexeme ∧ lexeme.Stands c t := by
  have hmember : member? o.toGrammar previous c t = none := by
    rw [ho]
    exact if_neg fun h => by cases h.2.1
  rcases scan_cases start ha hmember with hstands | ⟨hb,hspecial⟩
  · exact hstands
  · rw [hspecial,ho,special_restricted he]
    exact ⟨_,rfl,single_stands hb⟩

end Lexeme

theorem next_bare {σ : Type} {o : Options σ} (ctx : LexContext) {sub : Option History.Substitution}
    {done rest : Text} {c : Char} {t : Tokenizer} (ho : o.toGrammar = .restricted)
    (hh : o.history = []) (he : ctx.expression = false)
    (ha : (!ctx.inCommand && (o.charAlias? c).isSome) = false)
    (ht : Quoting.At sub done (c :: rest) t) :
    ∃ token t' rest', t.next o ctx = (.ok (some token),t') ∧ token.IsBare ∧
      c :: rest = token.value ++ rest' ∧ Quoting.At sub (done ++ token.value) rest' t' := by
  obtain ⟨hrest,hstack,hexpanded,hprint,hsub⟩ := ht
  have hcalm : Tokenizer.Calm o.history t := ⟨hstack,.inl hh⟩
  obtain ⟨lexeme,hscan,hstands⟩ : ∃ lexeme,
      Lexeme.scan o ctx t.previous t.index c rest = .ok lexeme ∧ lexeme.Stands c rest :=
    Lexeme.scan_restricted ho he ha
  obtain ⟨n,hn⟩ := Nat.exists_eq_succ_of_ne_zero (Nat.ne_of_gt lexeme.width_pos)
  refine ⟨_,_,(c :: rest).drop lexeme.width,hcalm.next_lexeme hrest hscan,⟨?_,hstands.bare⟩,?_,?_⟩
  · show lexeme.value ≠ []
    rw [hstands.value_eq,hn]
    exact nofun
  · show _ = lexeme.value ++ _
    rw [hstands.value_eq,List.take_append_drop]
  · refine ⟨congrArg (List.drop _) hrest,hstack,?_,hprint,hsub⟩
    show t.expanded ++ t.rest.take lexeme.width = done ++ lexeme.value
    rw [hexpanded,hrest,hstands.value_eq]

/-! The words of a line without a grammar. -/

def plainWord (t : Text) : Word :=
  ⟨t,t,false⟩

def begunWord (x : Text) : Option Word :=
  if x = [] then none else some (plainWord x)

theorem extend_begunWord (x : Text) {v : Text} (hv : v ≠ []) :
    Word.extend (begunWord x) v v false = begunWord (x ++ v) := by
  unfold begunWord
  by_cases hx : x = []
  · subst hx
    simp [Word.extend,plainWord,hv]
  · simp [Word.extend,plainWord,hx]

theorem words_begunWord {x : Text} (hx : x.IsSolid) :
    (begunWord x).toList = (Text.words x).map plainWord := by
  unfold begunWord
  by_cases hne : x = []
  · rw [if_pos hne,hne]
    rfl
  · rw [if_neg hne,Text.words_eq_singleton hx hne]
    rfl

/-- Put together again, the tokens make the words that stand between the blanks. -/
theorem ofFragments_bare {σ : Type} (o : Options σ) (expand isVerb : Bool) {tokens : List Token}
    (h : ∀ t ∈ tokens, t.IsBare) {x : Text} (hx : x.IsSolid) (w : σ) :
    Word.ofFragments o expand (begunWord x) (Fragment.ofTokens isVerb tokens) w =
      ((Text.words (x ++ tokens.flatMap (·.value))).map plainWord,w) := by
  induction tokens generalizing isVerb x with
  | nil =>
    rw [Fragment.ofTokens,Word.ofFragments,List.flatMap_nil,List.append_nil,words_begunWord hx]
    rfl
  | cons t ts ih =>
    obtain ⟨⟨hne,hbare⟩,hts⟩ := List.forall_mem_cons.1 h
    rw [List.flatMap_cons]
    rcases hbare with ⟨hk,hblank⟩ | ⟨hk,hsolid⟩
    · have hrest := ih false hts (x := []) (List.forall_mem_nil _)
      have hfragments : Fragment.ofTokens isVerb (t :: ts) =
          .gap :: Fragment.ofTokens false ts := by
        rw [Fragment.ofTokens,hk]
      rw [hfragments,Word.ofFragments]
      simp only [bind,StateT.bind]
      rw [show (none : Option Word) = begunWord [] from rfl,hrest]
      refine Prod.ext ?_ rfl
      show (begunWord x).toList ++ _ = _
      rw [words_begunWord hx,List.nil_append,← List.map_append]
      congr 1
      by_cases hxne : x = []
      · subst hxne
        rw [List.nil_append,Text.words_blanks hblank]
        rfl
      · rw [Text.words_gap hx hxne hblank hne,Text.words_eq_singleton hx hxne]
        rfl
    · have hfragments : Fragment.ofTokens isVerb (t :: ts) =
          .plain t.value :: Fragment.ofTokens false ts := by
        rw [Fragment.ofTokens]
        rcases hk with hk | hk <;> simp [hk,Token.rawText]
      rw [hfragments,Word.ofFragments,extend_begunWord x hne,
        ih false hts (List.forall_mem_append.2 ⟨hx,hsolid⟩),List.append_assoc]

@[simp] theorem map_text_plainWord (xs : List Text) : (xs.map plainWord).map Word.text = xs := by
  rw [List.map_map]
  exact List.map_id' _

theorem Command.compile_plainWords {σ : Type} {o : Options σ} {c : Command}
    (halias : c.alias? o = none) (hk : c.kind ≠ .expression) {verb : Text} {args : List Text}
    {w w' : σ} (hwords : Word.ofTokens o o.expandVariables c.tokens w =
      ((verb :: args).map plainWord,w')) :
    c.compile o w = ({ c with
      verb
      args
      globArgs := if o.expandFileExpressions then placesOf hasGlob args else [] },w') := by
  have hplaces : placesOf (fun w => !w.isQuoted && hasGlob w.raw) (args.map plainWord) =
      placesOf hasGlob args := placesOf_map plainWord _ args
  rw [compile]
  simp only [bind,StateT.bind,hk,decide_false,Bool.not_false,Bool.and_true,hwords,List.map_cons,
    halias]
  refine Prod.ext ?_ rfl
  show { c with verb, args := (args.map plainWord).map Word.text, globArgs := _ } = _
  rw [map_text_plainWord,hplaces]

/-- A command whose tokens are bare has the words between the blanks for its verb and its
arguments. -/
theorem Command.compile_bare {σ : Type} {o : Options σ} (ho : o.expandFileExpressions = false)
    {c : Command} (hk : c.kind ≠ .expression) (htokens : ∀ t ∈ c.tokens, t.IsBare) {verb : Text}
    {args : List Text} (hwords : Text.words (c.tokens.flatMap (·.value)) = verb :: args) (w : σ) :
    c.compile o w = ({ c with verb, args, globArgs := [] },w) := by
  have hnone : c.alias? o = none := by
    refine alias?_eq_none o ?_
    unfold isAlias
    split
    · next t ts heq =>
      obtain ⟨-,hbare⟩ := htokens t (heq ▸ .head _)
      refine decide_eq_false fun halias => ?_
      rcases hbare with ⟨hblank,-⟩ | ⟨hword | hnumeric,-⟩ <;> simp_all
    · rfl
  have hall : Word.ofTokens o o.expandVariables c.tokens w =
      ((verb :: args).map plainWord,w) := by
    rw [← hwords]
    exact ofFragments_bare o _ true htokens (x := []) (List.forall_mem_nil _) w
  rw [compile_plainWords hnone hk hall,ho]
  rfl

end Bare

namespace Parser

variable {σ : Type} {p : Parser σ} {sub : Option History.Substitution} {done rest : Text}

/-- A line without a grammar is read to its end into the command that is open. -/
theorem read_bare_within {c : OpenCommand σ} (ho : c.options.toGrammar = .restricted)
    (hh : c.options.history = []) (hk : c.command.kind ≠ .expression)
    (hp : p.phase = .inCommand c) (ht : Quoting.At sub done rest p.tokenizer) :
    ∃ tokens t, (∀ s ∈ tokens, s.IsBare) ∧ tokens.flatMap (·.value) = rest ∧
      p.read = (.ok (some ({ c with command :=
        { c.command with tokens := c.command.tokens ++ tokens } },none)),
        { p with tokenizer := t, phase := .done }) ∧
      Quoting.At sub (done ++ rest) [] t := by
  induction hn : rest.length using Nat.strongRecOn generalizing p c done rest with
  | _ n ih =>
  subst hn
  cases rest with
  | nil =>
    refine ⟨[],p.tokenizer,List.forall_mem_nil _,rfl,?_,by rwa [List.append_nil]⟩
    have hend : atEnd p.phase = .ok (some c) := by rw [hp]; rfl
    rw [read_ends (Tokenizer.next_none ht.stack_eq ht.rest_eq) hend,List.append_nil]
    rfl
  | cons ch rest =>
    have hwithin : p.phase.Within c := hp ▸ .inCommand c
    obtain ⟨hgrammar,hcontext⟩ := reader_within hwithin
    obtain ⟨token,t,rest',hnext,hbare,hrest,ht'⟩ := next_bare c.context ho hh
      (decide_eq_false hk) rfl ht
    rw [← hgrammar,← hcontext] at hnext
    have hstep : step { p with tokenizer := t, phase := settle p.phase token } token =
        .ok (.goOn (.inCommand (c.push token))) := by
      rw [hp]
      show stepInCommand _ c token = _
      unfold stepInCommand
      rcases hbare.2 with ⟨hkind,-⟩ | ⟨hkind | hkind,-⟩ <;> rw [hkind]
    obtain ⟨tokens,t',htokens,htext,hread,hat⟩ := ih _ (hbare.length_lt hrest)
      (p := { p with tokenizer := t, phase := .inCommand (c.push token) }) (c := c.push token)
      ho hh hk rfl ht' rfl
    refine ⟨token :: tokens,t',List.forall_mem_cons.2 ⟨hbare,htokens⟩,?_,?_,?_⟩
    · rw [List.flatMap_cons,htext,hrest]
    · rw [read_goesOn hnext hstep,hread]
      simp only [OpenCommand.push,List.append_assoc,List.singleton_append]
    · rw [hrest,← List.append_assoc]
      exact hat

/-- What a line without a grammar comes to where it opens a command: nothing if there are only
blanks, and else one command with all of the words. -/
inductive Bare (o : Options σ) (rest : Text) : Option (OpenCommand σ × Option Operator) → Prop
  | blank : Text.isAllBlank rest = true → Bare o rest none
  | command {verb : Token} {args : List Token} : Text.isAllBlank rest = false → verb.IsBare →
      verb.kind ≠ .blank → (∀ t ∈ args, t.IsBare) →
      Text.words ((verb :: args).flatMap (·.value)) = Text.words rest →
    Bare o rest (some (⟨{ Command.opened verb .game with tokens := verb :: args },o⟩,none))

theorem read_bare {o : Options σ} (hg : o.toGrammar = .restricted) (hh : o.history = [])
    (ha : o.aliases = []) (ho : p.options = o) (hs : p.settings = fun _ => none)
    (hp : p.phase = .awaitingVerb none) (ht : Quoting.At sub done rest p.tokenizer) :
    ∃ out t, p.read = (.ok out,{ p with tokenizer := t, phase := .done }) ∧
      Quoting.At sub (done ++ rest) [] t ∧ Bare o rest out := by
  induction hn : rest.length using Nat.strongRecOn generalizing p done rest with
  | _ n ih =>
  subst hn
  cases rest with
  | nil =>
    refine ⟨none,p.tokenizer,?_,by rwa [List.append_nil],.blank rfl⟩
    have hend : atEnd p.phase = .ok none := by rw [hp]; rfl
    exact read_ends (Tokenizer.next_none ht.stack_eq ht.rest_eq) hend
  | cons ch rest =>
    have hbetween : p.phase.Between := hp ▸ .awaitingVerb
    obtain ⟨hgrammar,hcontext⟩ := reader_between hbetween
    rw [ho] at hgrammar
    have hmark : o.charAlias? ch = none := Options.charAlias?_eq_none (by rw [ha]; rfl)
    obtain ⟨token,t,rest',hnext,hbare,hrest,ht'⟩ := next_bare {} hg hh rfl
      (by rw [hmark]; rfl) ht
    rw [← hgrammar,← hcontext] at hnext
    rcases hbare.2 with ⟨hkind,hblank⟩ | ⟨hkind,hsolid⟩
    · obtain ⟨out,t',hread,hat,hout⟩ := ih _ (hbare.length_lt hrest)
        (p := { p with tokenizer := t, phase := .awaitingVerb none }) ho hs rfl ht' rfl
      refine ⟨out,t',(read_goesOn hnext (step_passes hp hkind t)).trans hread,?_,?_⟩
      · rw [hrest,← List.append_assoc]
        exact hat
      · have hall : Text.isAllBlank (ch :: rest) = Text.isAllBlank rest' := by
          rw [hrest,Text.isAllBlank,List.all_append,List.all_eq_true.2 hblank,Bool.true_and]
          rfl
        cases hout with
        | blank hrest' => exact .blank (hall.trans hrest')
        | command hno hverb hnot hargs hwords =>
          refine .command (hall.trans hno) hverb hnot hargs ?_
          rw [hwords,hrest,Text.words_blanks hblank]
    · have hverb : token.isVerb = true := by
        rcases hkind with hkind | hkind <;> simp [Token.isVerb,hkind]
      let c : OpenCommand σ := ⟨.opened token .game,o⟩
      have hopen : OpenCommand.ofVerb p.options p.settings token = c := by
        unfold OpenCommand.ofVerb
        rw [ho,hs,ha]
        rcases hkind with hkind | hkind <;> simp [hkind,Table.contains,Table.get?,c]
      have hstep := hopen ▸ step_opens hp hverb t
      have hgame : Command.Kind.game ≠ .expression := by decide
      obtain ⟨tokens,t',htokens,htext,hread,hat⟩ := read_bare_within
        (p := { p with tokenizer := t, phase := .inCommand c }) (c := c) hg hh hgame rfl ht'
      refine ⟨_,t',(read_goesOn hnext hstep).trans hread,?_,?_⟩
      · rw [hrest,← List.append_assoc]
        exact hat
      · have hwhole : (token :: tokens).flatMap (·.value) = ch :: rest := by
          rw [List.flatMap_cons,htext,hrest]
        refine .command ?_ hbare ?_ htokens (congrArg _ hwhole)
        · obtain ⟨d,v,hv⟩ := List.exists_cons_of_ne_nil hbare.1
          have hd : Text.isBlank d = false := hsolid d (hv ▸ .head _)
          rw [hrest,hv]
          simp [Text.isAllBlank,hd]
        · rcases hkind with hkind | hkind <;> rw [hkind] <;> decide

end Parser

namespace Text

theorem letter_class {c : Char} (h : c.isAlpha = true) :
    isAlphanumeric c = true ∧ isBlank c = false ∧ isDecimalDigit c = false ∧
      Lexeme.isPlain c = true ∧ c ≠ '.' ∧ c ≠ '^' ∧ c ≠ '!' := by
  have hall : ∀ n : Fin 128, (Char.ofNat n).isAlpha = true →
      isAlphanumeric (Char.ofNat n) = true ∧ isBlank (Char.ofNat n) = false ∧
        isDecimalDigit (Char.ofNat n) = false ∧ Lexeme.isPlain (Char.ofNat n) = true ∧
        Char.ofNat n ≠ '.' ∧ Char.ofNat n ≠ '^' ∧ Char.ofNat n ≠ '!' := by
    decide +kernel
  have hlt : c.toNat < 128 := by
    rcases Bool.or_eq_true_iff.1 h with hupper | hlower
    · obtain ⟨-,hle⟩ : c.val ≥ 'A'.val ∧ c.val ≤ 'Z'.val := of_decide_eq_true hupper
      exact Nat.lt_of_le_of_lt (show c.toNat ≤ 90 from hle) (by decide)
    · have hle : c.val ≤ 'z'.val := of_decide_eq_true (Bool.and_eq_true_iff.1 hlower).2
      exact Nat.lt_of_le_of_lt (show c.toNat ≤ 122 from hle) (by decide)
  have hc := hall ⟨c.toNat,hlt⟩
  simp only [Char.ofNat_toNat] at hc
  exact hc h

end Text

section Lines

variable {σ : Type} {o : Options σ} {line : Text} {sub : Option History.Substitution}

theorem parseLine_bare {settings : Settings} {c : OpenCommand σ} {p : Parser σ}
    (hread : (Parser.new line o settings sub).restart.read = (.ok (some (c,none)),p))
    (hat : Quoting.At sub line [] p.tokenizer) (ho : c.options.toGrammar = .restricted)
    (hk : c.command.kind ≠ .expression) (htokens : ∀ t ∈ c.command.tokens, t.IsBare) {verb : Text}
    {args : List Text} (hwords : Text.words (c.command.tokens.flatMap (·.value)) = verb :: args)
    (w : σ) :
    parseLine line o settings sub w =
      (.ok ⟨some (.node { c.command with verb, args, globArgs := [] } none none [] none none),line,
        false,sub⟩,w) := by
  have hfind : c.options.expandFileExpressions = false := by rw [ho]; rfl
  rw [parseLine_last hread w,Command.compile_bare hfind hk htokens hwords,hat.expanded_eq,
    hat.printOnly_eq,hat.substitution_eq]

theorem parseLine_restricted (hg : o.toGrammar = .restricted) (ha : o.aliases = [])
    (hh : o.history = []) (w : σ) :
    ∃ tree, parseLine line o (fun _ => none) sub w = (.ok ⟨tree,line,false,sub⟩,w) ∧
      (tree = none ↔ Text.isAllBlank line = true) ∧
      ∀ t, tree = some t → ∃ c, t = .node c none none [] none none ∧
        c.verb :: c.args = Text.words line ∧ c.redirects = [] ∧ c.globArgs = [] := by
  have hstart : Quoting.At sub [] line (Parser.new line o (fun _ => none) sub).restart.tokenizer :=
    ⟨rfl,rfl,rfl,rfl,rfl⟩
  obtain ⟨out,t,hread,hat,hout⟩ := Parser.read_bare hg hh ha rfl rfl rfl hstart
  rw [List.nil_append] at hat
  cases hout with
  | blank hblank =>
    have hcommands : (Parser.new line o (fun _ => none) sub).commands w = ((.ok [],t),w) := by
      rw [Parser.commands_none hread]
      rfl
    have hparse := parseLine_commands hcommands (Eq.refl (linkLine []))
    rw [hat.expanded_eq,hat.printOnly_eq,hat.substitution_eq] at hparse
    exact ⟨none,hparse,iff_of_true rfl hblank,nofun⟩
  | command hno hverb hnot hargs hwords =>
    obtain ⟨verb,args,hline⟩ : ∃ verb args, Text.words line = verb :: args := by
      refine List.exists_cons_of_ne_nil fun hnil => ?_
      rw [(Text.isAllBlank_iff line).2 hnil] at hno
      cases hno
    have hparse := parseLine_bare hread hat hg nofun (List.forall_mem_cons.2 ⟨hverb,hargs⟩)
      (hwords.trans hline) w
    refine ⟨_,hparse,iff_of_false nofun (by rw [hno]; exact nofun),?_⟩
    rintro _ ⟨⟩
    exact ⟨_,rfl,hline.symm,rfl,rfl⟩

theorem scan_letters {ctx : LexContext} {previous : Option Token.Kind} {start : Nat} {c : Char}
    {letters text : Text} (h : ∀ d ∈ c :: letters, d.isAlpha = true)
    (htext : ∀ d ∈ text.head?, Text.isBlank d = true) :
    Lexeme.scan o ctx previous start c (letters ++ text) = .ok (Lexeme.run .word c letters) := by
  obtain ⟨halpha,hblank,hdigit,hplain,hdot,-,-⟩ := Text.letter_class (h c (.head _))
  have hletters : ∀ d ∈ letters, Lexeme.isPlain d = true := fun d hd =>
    (Text.letter_class (h d (.tail _ hd))).2.2.2.1
  have htake : (letters ++ text).takeWhile Lexeme.isPlain = letters := by
    rw [List.takeWhile_append_of_pos hletters]
    cases text with
    | nil => rw [List.takeWhile_nil,List.append_nil]
    | cons d text =>
      have hd : Lexeme.isPlain d = false := by simp [Lexeme.isPlain,htext d rfl]
      rw [List.takeWhile_cons_of_neg (by rw [hd]; exact nofun),List.append_nil]
  simp [Lexeme.scan,Options.charAlias?,halpha,Lexeme.member?,hdot,hblank,Lexeme.number?,hdigit,
    hplain,htake]

theorem parseLine_after_verb {settings : Settings} {verb text : Text} (hh : o.history = [])
    (hne : verb ≠ []) (hverb : ∀ c ∈ verb, c.isAlpha = true) (ha : o.aliases.get? verb = none)
    (hset : settings verb = some .restricted) (htext : ∀ c ∈ text.head?, Text.isBlank c = true)
    (w : σ) :
    ∃ c, parseLine (verb ++ text) o settings sub w =
        (.ok ⟨some (.node c none none [] none none),verb ++ text,false,sub⟩,w) ∧
      c.kind = .shell ∧ c.verb = verb ∧ c.args = Text.words text ∧ c.redirects = [] ∧
      c.globArgs = [] := by
  obtain ⟨first,letters,rfl⟩ := List.exists_cons_of_ne_nil hne
  have hsolid : Text.IsSolid (first :: letters) := fun d hd =>
    (Text.letter_class (hverb d hd)).2.1
  let p := (Parser.new (first :: letters ++ text) o settings sub).restart
  have hat : Quoting.At sub [] (first :: letters ++ text) p.tokenizer := ⟨rfl,rfl,rfl,rfl,rfl⟩
  obtain ⟨token,t,hnext,hspelling,ht⟩ := hat.next_lexeme (o := o) {} _
    ⟨(Text.letter_class (hverb _ (.head _))).2.2.2.2.2.1,
      (Text.letter_class (hverb _ (.head _))).2.2.2.2.2.2⟩ (scan_letters hverb htext) rfl
  have hkind : token.kind = .word := congrArg Prod.fst hspelling
  have hvalue : token.value = first :: letters := congrArg Prod.snd hspelling
  have hbare : token.IsBare := by
    refine ⟨by rw [hvalue]; exact hne,.inr ⟨.inl hkind,?_⟩⟩
    rw [hvalue]
    exact hsolid
  let c : OpenCommand σ := ⟨.opened token .shell,o.forCommand .restricted⟩
  have hopen : OpenCommand.ofVerb o settings token = c := by
    have hno : o.aliases.contains (first :: letters) = false := by
      rw [Table.contains,ha]
      rfl
    simp [OpenCommand.ofVerb,OpenCommand.lookupName,hkind,hvalue,hno,hset,c]
  have hverb : token.isVerb = true := by rw [Token.isVerb,hkind]
  have hstep := hopen ▸ Parser.step_opens (p := p) rfl hverb t
  have hshell : Command.Kind.shell ≠ .expression := by decide
  obtain ⟨tokens,t',htokens,htext',hread,hat'⟩ := Parser.read_bare_within
    (p := { p with tokenizer := t, phase := .inCommand c }) (c := c) rfl hh hshell rfl ht
  have hwords : Text.words ((token :: tokens).flatMap (·.value)) =
      (first :: letters) :: Text.words text := by
    rw [List.flatMap_cons,htext',hvalue,Text.words_first hsolid hne htext]
  exact ⟨_,parseLine_bare ((Parser.read_goesOn (p := p) hnext hstep).trans hread) hat' rfl hshell
    (List.forall_mem_cons.2 ⟨hbare,htokens⟩) hwords w,rfl,rfl,rfl,rfl,rfl⟩

end Lines

/-- Where the whole session is restricted, a line that is not blank is one command of its words.
And whatever the session, a line that begins with a verb of letters is one command of its words
if the settings restrict the verb. -/
theorem parseLine_plain {σ : Type} (sub : Option History.Substitution) (w : σ) :
    (∀ (o : Options σ) (line : Text), o.toGrammar = .restricted → o.aliases = [] →
      o.history = [] →
      ∃ tree, parseLine line o (fun _ => none) sub w = (.ok ⟨tree,line,false,sub⟩,w) ∧
        (tree = none ↔ Text.isAllBlank line = true) ∧
        ∀ t, tree = some t → ∃ c, t = .node c none none [] none none ∧
          c.verb :: c.args = Text.words line ∧ c.redirects = [] ∧ c.globArgs = []) ∧
    ∀ (o : Options σ) (settings : Settings) (verb text : Text), o.history = [] → verb ≠ [] →
      (∀ c ∈ verb, c.isAlpha = true) → o.aliases.get? verb = none →
      settings verb = some .restricted → (∀ c ∈ text.head?, Text.isBlank c = true) →
      ∃ c, parseLine (verb ++ text) o settings sub w =
          (.ok ⟨some (.node c none none [] none none),verb ++ text,false,sub⟩,w) ∧
        c.kind = .shell ∧ c.verb = verb ∧ c.args = Text.words text ∧ c.redirects = [] ∧
        c.globArgs = [] :=
  ⟨fun _ _ hg ha hh => parseLine_restricted hg ha hh w,
    fun _ _ _ _ hh hne hverb ha hset htext =>
      parseLine_after_verb hh hne hverb ha hset htext w⟩

/-- An apostrophe, a semicolon, a point and an exclamation mark where everything is restricted,
and an apostrophe and a bar behind a verb that is. -/
theorem parseLine_plain_marks :
    let line := "don't; 3.50!".toList
    let verb := "say".toList
    let text := " it's | 5".toList
    let settings : Settings := fun name => if name = verb then some .restricted else none
    (∃ c, parseLine line ({ toGrammar := .restricted } : Options Unit) (fun _ => none) none () =
        (.ok ⟨some (.node c none none [] none none),line,false,none⟩,()) ∧
      c.verb = "don't;".toList ∧ c.args = ["3.50!".toList]) ∧
    ∃ c, parseLine (verb ++ text) ({} : Options Unit) settings none () =
        (.ok ⟨some (.node c none none [] none none),verb ++ text,false,none⟩,()) ∧
      c.args = ["it's".toList,"|".toList,"5".toList] := by
  intro line verb text settings
  have hwords : Text.words line = ["don't;".toList,"3.50!".toList] := by decide
  have hrest : Text.words text = ["it's".toList,"|".toList,"5".toList] := by decide
  obtain ⟨hrestricted,hbehind⟩ := parseLine_plain (σ := Unit) none ()
  constructor
  · obtain ⟨tree,hparse,hnone,hsome⟩ := hrestricted { toGrammar := .restricted } line rfl rfl rfl
    cases tree with
    | none => exact absurd (hnone.1 rfl) (by decide)
    | some t =>
      obtain ⟨c,rfl,hc,-,-⟩ := hsome t rfl
      rw [hwords] at hc
      obtain ⟨hverb,hargs⟩ := List.cons.inj hc
      exact ⟨c,hparse,hverb,hargs⟩
  · have hletters : ∀ c ∈ verb, c.isAlpha = true := List.all_eq_true.1 rfl
    have hblank : ∀ c ∈ text.head?, Text.isBlank c = true := fun c hc => by cases hc; rfl
    obtain ⟨c,hparse,-,-,hargs,-⟩ := hbehind {} settings verb text rfl (by decide) hletters rfl
      (if_pos rfl) hblank
    exact ⟨c,hparse,hargs.trans hrest⟩

end Realm
