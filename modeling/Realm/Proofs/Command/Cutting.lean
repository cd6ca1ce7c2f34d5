import Realm.Proofs.Command.Reading
import Realm.Proofs.Command.Spelling

/-! Two ways to cut a line into tokens. A line that is typed is cut by the grammar of the
command that is open; text that a history reference brings in is cut at once. Both come to
the same where no command brings a grammar of its own and no later command is opened by a
mark that is an alias. -/
namespace Realm

def Grammar.reads (g : Grammar) : Char → Bool
  | '$' => g.expandEnvironment
  | '<' | '>' => g.allowFileAccess
  | '|' | '&' | ';' => g.allowPipelining
  | '\'' | '"' => g.allowQuoting
  | '\x60' => g.expandBackticks
  | '\\' => g.allowEscaping
  | '.' => g.expandVariables
  | _ => true

namespace Lexeme

variable {σ : Type} {o : Options σ} {ctx : LexContext} {previous : Option Token.Kind}
  {start : Nat} {c : Char} {t : Text} {lexeme : Lexeme}

theorem scan_history (o : Options σ) (history : List Text) :
    scan { o with history, historyLevel := .off } ctx previous start c t =
      scan o ctx previous start c t := by
  rfl

/-- A special character stands for the same wherever two grammars read it alike. -/
theorem special_agrees {g g' : Grammar} {ctx' : LexContext} (hg : g.reads c = g'.reads c)
    (hctx : c = '=' → ctx.expression = ctx'.expression) (h : special g ctx start c t = .ok lexeme)
    (start' : Nat) : special g' ctx' start' c t = .ok lexeme := by
  have hquoted (kind : Token.Kind) (quote : Char) (h : quoted kind quote start t = .ok lexeme) :
      quoted kind quote start' t = .ok lexeme := by
    unfold quoted at h ⊢
    split at h
    · exact h
    · cases h
  have hescape (h : escape g start t = .ok lexeme) : escape g' start' t = .ok lexeme := by
    unfold escape at h ⊢
    split at h
    · exact h
    · exact h
    · split at h <;> cases h
  unfold special at h ⊢
  split at h
  all_goals simp only [Grammar.reads] at hg
  all_goals first
    | exact h
    | (rw [← hctx rfl]; exact h)
    | (rw [← hg]; split at h <;> rename_i hon <;> simp only [hon] at h ⊢ <;>
        first
          | exact hquoted _ _ h
          | exact hescape h
          | exact h)

theorem scan_congr {o' : Options σ} {ctx' : LexContext} {start' : Nat}
    (halias : (!ctx.inCommand && (o.charAlias? c).isSome) =
      (!ctx'.inCommand && (o'.charAlias? c).isSome))
    (hmember : member? o.toGrammar previous c t = member? o'.toGrammar previous c t)
    (hspecial : special o.toGrammar ctx start c t = .ok lexeme →
      special o'.toGrammar ctx' start' c t = .ok lexeme)
    (h : scan o ctx previous start c t = .ok lexeme) :
    scan o' ctx' previous start' c t = .ok lexeme := by
  unfold scan at h ⊢
  rw [← halias,← hmember]
  by_cases ha : (!ctx.inCommand && (o.charAlias? c).isSome) = true
  · rw [if_pos ha] at h ⊢
    exact h
  · rw [if_neg ha] at h ⊢
    cases hm : member? o.toGrammar previous c t with
    | some member => rw [hm] at h; exact h
    | none =>
      rw [hm] at h
      dsimp only at h ⊢
      by_cases hb : Text.isBlank c = true
      · rw [if_pos hb] at h ⊢
        exact h
      · rw [if_neg hb] at h ⊢
        cases hn : number? c t with
        | some number => rw [hn] at h; exact h
        | none =>
          rw [hn] at h
          dsimp only at h ⊢
          by_cases hp : isPlain c = true
          · rw [if_pos hp] at h ⊢
            exact h
          · rw [if_neg hp] at h ⊢
            exact hspecial h

theorem scan_start (h : scan o ctx previous start c t = .ok lexeme) (start' : Nat) :
    scan o ctx previous start' c t = .ok lexeme :=
  scan_congr rfl rfl (fun h => special_agrees rfl (fun _ => rfl) h start') h

def specialKinds : List Token.Kind :=
  [.variable,.word,.operator,.string,.backtick]

theorem dollar?_kind {l : Lexeme} (h : dollar? t = some l) : l.kind = .variable := by
  unfold dollar? at h
  split at h
  · split at h
    · split at h <;> cases h
      rfl
    · cases h
  · obtain ⟨name,-,rfl⟩ := Option.map_eq_some_iff.1 h
    rfl

theorem quoted_kind {kind : Token.Kind} {quote : Char} (h : quoted kind quote start t = .ok lexeme) :
    lexeme.kind = kind := by
  unfold quoted at h
  split at h <;> cases h
  rfl

theorem escape_kind {g : Grammar} (h : escape g start t = .ok lexeme) : lexeme.kind = .word := by
  unfold escape at h
  split at h
  · cases h; rfl
  · cases h; rfl
  · split at h <;> cases h

theorem special_kind {g : Grammar} (h : special g ctx start c t = .ok lexeme) :
    lexeme.kind ∈ specialKinds := by
  unfold special at h
  split at h
  · split at h
    · cases hd : dollar? t with
      | none => rw [hd] at h; cases h; decide
      | some l =>
        rw [hd] at h
        cases h
        rw [Option.getD_some,dollar?_kind hd]
        decide
    · cases h; decide
  · split at h <;> cases h <;> decide
  · split at h
    · split at h <;> cases h <;> decide
    · cases h; decide
  · split at h
    · split at h <;> cases h <;> decide
    · cases h; decide
  · split at h
    · split at h <;> cases h <;> decide
    · cases h; decide
  · split at h <;> cases h <;> decide
  · split at h
    · rw [quoted_kind h]; decide
    · cases h; decide
  · split at h
    · rw [quoted_kind h]; decide
    · cases h; decide
  · split at h
    · rw [quoted_kind h]; decide
    · cases h; decide
  · split at h
    · rw [escape_kind h]; decide
    · cases h; decide
  · split at h <;> cases h <;> decide
  · cases h; simp [specialKinds,single]

theorem scan_kind (h : scan o ctx previous start c t = .ok lexeme) :
    (lexeme.kind = .alias ∧ lexeme.value = [c] ∧ Text.isAlphanumeric c = false) ∨
      lexeme.kind ∈ [.blank,.numeric,.member] ++ specialKinds := by
  unfold scan at h
  split at h
  · next ha =>
    cases h
    have hsome : (o.charAlias? c).isSome = true := (Bool.and_eq_true_iff.1 ha).2
    refine .inl ⟨rfl,rfl,?_⟩
    unfold Options.charAlias? at hsome
    split at hsome
    · next hc => simpa using (Bool.and_eq_true_iff.1 hc).2
    · cases hsome
  · refine .inr ?_
    split at h
    · next member hm =>
      cases h
      unfold member? at hm
      split at hm
      · obtain ⟨name,-,rfl⟩ := Option.map_eq_some_iff.1 hm
        simp
      · cases hm
    · split at h
      · cases h; simp [run]
      · split at h
        · next number hn =>
          cases h
          have hk : lexeme.kind = .numeric := by
            unfold number? at hn
            split at hn
            · dsimp only at hn
              split at hn
              · split at hn <;> cases hn
                rfl
              · cases hn; rfl
            · cases hn
          rw [hk]
          decide
        · split at h
          · cases h; simp [run,specialKinds]
          · exact List.mem_append_right _ (special_kind h)

/-- Inside a command the same lexeme stands, unless it is an alias of one mark. -/
theorem scan_inCommand (h : scan o {} previous start c t = .ok lexeme)
    (hk : lexeme.kind ≠ .alias) :
    scan o { inCommand := true } previous start c t = .ok lexeme := by
  unfold scan at h ⊢
  split at h
  · cases h
    exact absurd rfl hk
  · exact h

/-- Inside a command the same lexeme stands by another grammar that reads the character alike,
except for the equals sign of an expression. -/
theorem scan_agrees {g : Grammar} {expression : Bool}
    (h : scan (o.forCommand g) ⟨true,expression⟩ previous start c t = .ok lexeme)
    (hg : g.reads c = o.reads c) (he : expression = true → c ≠ '=') :
    scan o { inCommand := true } previous start c t = .ok lexeme := by
  have hmember : member? g previous c t = member? o.toGrammar previous c t := by
    unfold member?
    by_cases hc : c = '.'
    · subst hc
      have hg : g.expandVariables = o.expandVariables := hg
      rw [hg]
    · rw [if_neg fun h => hc h.1,if_neg fun h => hc h.1]
  refine scan_congr (o := o.forCommand g) rfl hmember
    (fun h => special_agrees hg (fun hc => ?_) h start) h
  cases expression with
  | false => rfl
  | true => exact absurd hc (he rfl)

theorem scan_equals (h : scan o ⟨true,true⟩ previous start '=' t = .ok lexeme) :
    lexeme.kind = .operator ∧ lexeme.value = ['='] := by
  have hb : Text.isBlank '=' = false := by decide
  have hd : Text.isDecimalDigit '=' = false := by decide +kernel
  have hp : isPlain '=' = false := by decide
  simp only [scan,Bool.not_true,Bool.false_and,member?,hb,number?,hd,hp,special] at h
  cases h
  exact ⟨rfl,rfl⟩

end Lexeme

/-- A place in text that a history reference brings in: `true` once a token that is not
blank has been read. -/
def LexContext.inText (begun : Bool) : LexContext :=
  ⟨begun,false⟩

namespace Tokenizer

variable {σ : Type} {o : Options σ}

theorem historyTokens_cons {begun : Bool} {previous : Option Token.Kind} {start : Nat} {c : Char}
    {t : Text} {lexeme : Lexeme}
    (hs : Lexeme.scan o (.inText begun) previous start c t = .ok lexeme) :
    ∃ stop, historyTokens o (.inText begun) previous start (c :: t) =
      (historyTokens o (.inText (begun || lexeme.kind ≠ .blank)) (some lexeme.kind) stop
        ((c :: t).drop lexeme.width)).map
          (⟨lexeme.kind,lexeme.value,.history,start,stop,none⟩ :: ·) := by
  refine ⟨start + Text.byteSize ((c :: t).take lexeme.width),?_⟩
  rw [historyTokens,hs]
  have hctx : (if lexeme.kind = .blank then LexContext.inText begun
      else { LexContext.inText begun with inCommand := true }) =
        .inText (begun || lexeme.kind ≠ .blank) := by
    by_cases hk : lexeme.kind = .blank
    · simp [hk]
    · simp [hk,LexContext.inText]
  simp only [bind,Except.bind,hctx]
  cases historyTokens o (.inText (begun || decide (lexeme.kind ≠ .blank))) (some lexeme.kind)
    (start + Text.byteSize ((c :: t).take lexeme.width)) ((c :: t).drop lexeme.width) <;> rfl

/-- A reader that will meet no history reference: nothing is remembered, or nothing that
is left could be one. -/
structure Calm (history : List Text) (t : Tokenizer) : Prop where
  stack_eq : t.stack = []
  unmarked : history = [] ∨ '!' ∉ t.rest ∧ (t.before = [] → t.rest.head? ≠ some '^')

theorem Calm.skip {history : List Text} {t : Tokenizer} {c : Char} {rest : Text}
    (ht : Calm history t) (hr : t.rest = c :: rest) {width : Nat} (hw : 0 < width)
    (expansion : Text) (previous : Option Token.Kind) :
    Calm history { t.skip width expansion with previous } := by
  refine ⟨ht.stack_eq,?_⟩
  rcases ht.unmarked with hh | ⟨hm,-⟩
  · exact .inl hh
  · refine .inr ⟨fun h => hm (List.mem_of_mem_drop h),fun hb => ?_⟩
    have hb : t.before ++ t.rest.take width = [] := hb
    have hlength := congrArg List.length hb
    simp only [hr,List.length_append,List.length_take,List.length_cons,List.length_nil] at hlength
    omega

theorem Calm.dispatch {ctx : LexContext} {t : Tokenizer} {c : Char} {rest : Text}
    (ht : Calm o.history t) (hr : t.rest = c :: rest) :
    t.dispatch o ctx c rest =
      match Lexeme.scan o ctx t.previous t.index c rest with
      | .error e => (.error e,t)
      | .ok lexeme =>
        (.ok (t.token lexeme.kind lexeme.value lexeme.width),
          t.skip lexeme.width (t.rest.take lexeme.width)) := by
  have hquick : ¬ (c = '^' ∧ t.before = [] ∧ ctx.inCommand = false ∧ t.restarted = false ∧
      o.historyLevel = .full ∧ o.history ≠ []) := by
    rintro ⟨rfl,hb,-,-,-,hh⟩
    rcases ht.unmarked with hh' | ⟨-,hm⟩
    · exact hh hh'
    · exact hm hb (by rw [hr]; rfl)
  rw [Tokenizer.dispatch,if_neg hquick]
  by_cases hc : c = '!' ∧ (ctx.inCommand = true ∨ o.charAlias? c = none)
  · obtain ⟨rfl,hplain⟩ := hc
    have hh : o.history = [] := by
      rcases ht.unmarked with hh | ⟨hm,-⟩
      · exact hh
      · exact absurd (by rw [hr]; exact .head _) hm
    have hmark : (allowsReference o (Text.isAllBlank t.before)) = false := by
      simp [allowsReference,Options.historyEnabled,hh]
    have hscan : Lexeme.scan o ctx t.previous t.index '!' rest =
        .ok (Lexeme.single .word '!') := by
      have hb : Text.isBlank '!' = false := by decide
      have hd : Text.isDecimalDigit '!' = false := by decide +kernel
      have hp : Lexeme.isPlain '!' = false := by decide
      have halias : (!ctx.inCommand && (o.charAlias? '!').isSome) = false := by
        rcases hplain with hin | hnone
        · rw [hin]
          rfl
        · rw [hnone]
          exact Bool.and_false _
      simp [Lexeme.scan,halias,Lexeme.member?,hb,Lexeme.number?,hd,hp,Lexeme.special]
    rw [if_pos ⟨rfl,hplain⟩,hscan]
    simp [readMark,hmark,Lexeme.single,hr]
  · exact if_neg hc

structure Takes (o : Options σ) (ctx : LexContext) (t : Tokenizer) (token : Token)
    (t' : Tokenizer) (c : Char) (rest : Text) (lexeme : Lexeme) : Prop where
  rest_eq : t.rest = c :: rest
  scan_eq : Lexeme.scan o ctx t.previous t.index c rest = .ok lexeme
  spelling_eq : token.spelling = (lexeme.kind,lexeme.value)
  previous_eq : t'.previous = some lexeme.kind
  left_eq : t'.rest = (c :: rest).drop lexeme.width
  expanded_eq : t'.expanded = t.expanded ++ (c :: rest).take lexeme.width
  calm : Calm o.history t'

theorem Takes.text_eq {ctx : LexContext} {t t' : Tokenizer} {token : Token} {c : Char}
    {rest : Text} {lexeme : Lexeme} (h : Takes o ctx t token t' c rest lexeme) :
    t'.expanded ++ t'.rest = t.expanded ++ t.rest := by
  rw [h.expanded_eq,h.left_eq,h.rest_eq,List.append_assoc,List.take_append_drop]

theorem Takes.rest_subset {ctx : LexContext} {t t' : Tokenizer} {token : Token} {c : Char}
    {rest : Text} {lexeme : Lexeme} (h : Takes o ctx t token t' c rest lexeme) :
    t'.rest ⊆ t.rest := by
  rw [h.left_eq,h.rest_eq]
  exact List.drop_subset _ _

theorem Takes.scan_session {grammar : Grammar} {expression : Bool} {t t' : Tokenizer}
    {token : Token} {c : Char} {rest : Text} {lexeme : Lexeme}
    (h : Takes (o.forCommand grammar) ⟨true,expression⟩ t token t' c rest lexeme)
    (hgrammar : ∀ ch ∈ t.rest, grammar.reads ch = o.reads ch)
    (hequals : expression = true → token.isOperator ['='] = false) :
    Lexeme.scan o (.inText true) t.previous t.index c rest = .ok lexeme := by
  refine Lexeme.scan_agrees h.scan_eq (hgrammar c (by rw [h.rest_eq]; exact .head _)) ?_
  rintro rfl rfl
  obtain ⟨hkind,hvalue⟩ := Lexeme.scan_equals h.scan_eq
  have hno := hequals rfl
  have hk : token.kind = .operator := (congrArg Prod.fst h.spelling_eq).trans hkind
  have hv : token.value = ['='] := (congrArg Prod.snd h.spelling_eq).trans hvalue
  simp [Token.isOperator,hk,hv] at hno

theorem Calm.next {ctx : LexContext} {t t' : Tokenizer} {token : Token}
    (ht : Calm o.history t) (h : t.next o ctx = (.ok (some token),t')) :
    ∃ c rest lexeme, Takes o ctx t token t' c rest lexeme := by
  unfold Tokenizer.next at h
  rw [ht.stack_eq] at h
  cases hr : t.rest with
  | nil => rw [hr] at h; cases h
  | cons c rest =>
    rw [hr] at h
    simp only [ht.dispatch hr] at h
    cases hs : Lexeme.scan o ctx t.previous t.index c rest with
    | error e => rw [hs] at h; cases h
    | ok lexeme =>
      rw [hs] at h
      cases h
      refine ⟨c,rest,lexeme,hr,hs,rfl,rfl,?_,?_,?_⟩
      · show t.rest.drop _ = _
        rw [hr]
      · show t.expanded ++ t.rest.take _ = _
        rw [hr]
      · exact ht.skip hr lexeme.width_pos _ _

theorem Calm.next_lexeme {ctx : LexContext} {t : Tokenizer} {c : Char} {rest : Text}
    {lexeme : Lexeme} (ht : Calm o.history t) (hr : t.rest = c :: rest)
    (hs : Lexeme.scan o ctx t.previous t.index c rest = .ok lexeme) :
    t.next o ctx = (.ok (some (t.token lexeme.kind lexeme.value lexeme.width)),
      { t.skip lexeme.width (t.rest.take lexeme.width) with previous := some lexeme.kind }) := by
  have hd : t.dispatch o ctx c rest = (.ok (t.token lexeme.kind lexeme.value lexeme.width),
      t.skip lexeme.width (t.rest.take lexeme.width)) := by
    rw [ht.dispatch hr,hs]
  exact next_dispatch ht.stack_eq hr hd

end Tokenizer

section Growth

variable {σ : Type}

structure OpenCommand.Grows (c d : OpenCommand σ) : Prop where
  options_eq : d.options = c.options
  kind_eq : d.command.kind = c.command.kind
  tokens_kept : c.command.tokens <+: d.command.tokens

theorem OpenCommand.Grows.refl (c : OpenCommand σ) : c.Grows c :=
  ⟨rfl,rfl,List.prefix_rfl⟩

theorem OpenCommand.Grows.trans {c d e : OpenCommand σ} (h : c.Grows d) (h' : d.Grows e) :
    c.Grows e :=
  ⟨h'.options_eq.trans h.options_eq,h'.kind_eq.trans h.kind_eq,
    h.tokens_kept.trans h'.tokens_kept⟩

theorem OpenCommand.grows_push (c : OpenCommand σ) (token : Token) : c.Grows (c.push token) :=
  ⟨rfl,rfl,List.prefix_append _ _⟩

theorem OpenCommand.grows_redirect (c : OpenCommand σ) (pending : PendingRedirect) :
    c.Grows (c.redirect pending) :=
  ⟨rfl,rfl,List.prefix_append _ _⟩

namespace ParserPhase

/-- Phases in which no command is open, nor one that was given up. -/
inductive Between : ParserPhase σ → Prop
  | awaitingVerb : Between (.awaitingVerb none)
  | closed : Between .closed
  | done : Between .done

/-- Phases in which a command is open. -/
inductive Within : OpenCommand σ → ParserPhase σ → Prop
  | inCommand (c : OpenCommand σ) : Within c (.inCommand c)
  | redirecting (c : OpenCommand σ) (pending : PendingRedirect) :
    Within c (.awaitingRedirectTarget c pending)

theorem Between.current? {phase : ParserPhase σ} (h : Between phase) : phase.current? = none := by
  cases h <;> rfl

theorem Within.current? {phase : ParserPhase σ} {c : OpenCommand σ} (h : Within c phase) :
    phase.current? = some c := by
  cases h <;> rfl

theorem Within.unique {phase : ParserPhase σ} {c d : OpenCommand σ} (h : Within c phase)
    (h' : Within d phase) : c = d :=
  Option.some.inj (h.current?.symm.trans h'.current?)

end ParserPhase

namespace Parser

variable {p p' : Parser σ} {t : Tokenizer} {token : Token} {s : Step σ} {c : OpenCommand σ}

theorem reader_between (hp : p.phase.Between) : p.grammar = p.options ∧ p.context = {} := by
  unfold grammar context
  rw [hp.current?]
  exact ⟨rfl,rfl⟩

theorem reader_within (hp : p.phase.Within c) :
    p.grammar = c.options ∧ p.context = c.context := by
  unfold grammar context
  rw [hp.current?]
  exact ⟨rfl,rfl⟩

theorem step_between (hp : p.phase.Between)
    (h : step { p with tokenizer := t, phase := settle p.phase token } token = .ok s) :
    s = .goOn (.awaitingVerb none) ∧
        (token.kind = .blank ∨ token.kind = .history ∨ token.kind = .substitution) ∨
      s = .goOn (.inCommand (.ofVerb p.options p.settings token)) ∧ token.isVerb = true := by
  have hstep : stepAwaitingVerb { p with tokenizer := t, phase := settle p.phase token } none
      token = .ok s := by
    cases hphase : p.phase with
    | awaitingVerb a => rw [hphase] at hp; cases hp; rw [hphase] at h; exact h
    | closed => rw [hphase] at h; exact h
    | done => rw [hphase] at h; exact h
    | inCommand | awaitingRedirectTarget => rw [hphase] at hp; cases hp
  unfold stepAwaitingVerb at hstep
  split at hstep
  · next hk => cases hstep; exact .inl ⟨rfl,.inl hk⟩
  · next hk => cases hstep; exact .inl ⟨rfl,.inr (.inl hk)⟩
  · next hk => cases hstep; exact .inl ⟨rfl,.inr (.inr hk)⟩
  · split at hstep
    · next hverb => cases hstep; exact .inr ⟨rfl,hverb⟩
    · cases hstep

theorem step_within (hp : p.phase.Within c)
    (h : step { p with tokenizer := t, phase := settle p.phase token } token = .ok s) :
    (∃ phase d, s = .goOn phase ∧ phase.Within d ∧ c.Grows d) ∨
      ∃ d operator, s = .close d operator ∧ c.Grows d := by
  have hin {d : OpenCommand σ} {phase : ParserPhase σ} (hd : c.Grows d)
      (h : stepInCommand { p with tokenizer := t, phase } d token = .ok s) :
      (∃ phase d, s = .goOn phase ∧ phase.Within d ∧ c.Grows d) ∨
        ∃ d operator, s = .close d operator ∧ c.Grows d := by
    cases stepInCommand_placed h with
    | skipped => exact .inl ⟨_,d,rfl,.inCommand d,hd⟩
    | pushed => exact .inl ⟨_,_,rfl,.inCommand _,hd.trans (d.grows_push token)⟩
    | redirects => exact .inl ⟨_,d,rfl,.redirecting d _,hd⟩
    | closes => exact .inr ⟨d,_,rfl,hd⟩
  cases hphase : p.phase with
  | inCommand d =>
    rw [hphase] at hp h
    cases hp
    exact hin (.refl c) h
  | awaitingRedirectTarget d pending =>
    rw [hphase] at hp h
    cases hp
    unfold settle at h
    dsimp only at h
    split at h
    · exact hin (c.grows_redirect pending) h
    · obtain ⟨_,rfl⟩ := stepRedirectTarget_waits h
      exact .inl ⟨_,c,rfl,.redirecting c _,.refl c⟩
  | awaitingVerb | closed | done => rw [hphase] at hp; cases hp

theorem step_equals (hp : p.phase.Within c) (ht : token.isOperator ['='] = true)
    (h : step { p with tokenizer := t, phase := settle p.phase token } token = .ok s) :
    ∃ phase d, s = .goOn phase ∧ phase.Within d ∧ token ∈ d.command.tokens := by
  obtain ⟨hkind,hvalue⟩ : token.kind = .operator ∧ token.value = ['='] := by
    simpa [Token.isOperator] using ht
  have hno : Redirect.Kind.ofText? ['='] = none := by decide
  have hin {d : OpenCommand σ} {phase : ParserPhase σ}
      (h : stepInCommand { p with tokenizer := t, phase } d token = .ok s) :
      ∃ phase d, s = .goOn phase ∧ phase.Within d ∧ token ∈ d.command.tokens := by
    unfold stepInCommand at h
    rw [hkind,hvalue,hno] at h
    cases h
    exact ⟨_,_,rfl,.inCommand (d.push token),List.mem_append_right _ (.head _)⟩
  cases hphase : p.phase with
  | inCommand d =>
    rw [hphase] at h
    exact hin h
  | awaitingRedirectTarget d pending =>
    rw [hphase] at h
    unfold settle at h
    dsimp only at h
    split at h
    · exact hin h
    · unfold step stepRedirectTarget at h
      rw [hkind] at h
      cases h
  | awaitingVerb | closed | done => rw [hphase] at hp; cases hp

/-- A command that is open when a run begins is the one that the run comes to. -/
theorem Reads.grows {tokens : List Token} {out : Option (OpenCommand σ × Option Operator)}
    (h : Reads p tokens out p') (hp : p.phase.Within c) :
    ∃ d operator, out = some (d,operator) ∧ c.Grows d := by
  induction h generalizing c with
  | @ends p t d hn ha =>
    cases hphase : p.phase with
    | inCommand e =>
      rw [hphase] at hp ha
      cases hp
      cases ha
      exact ⟨c,none,rfl,.refl c⟩
    | awaitingRedirectTarget e pending =>
      rw [hphase] at hp ha
      cases hp
      unfold atEnd at ha
      dsimp only at ha
      split at ha
      · cases ha
        exact ⟨_,none,rfl,c.grows_redirect pending⟩
      · cases ha
    | awaitingVerb | closed | done => rw [hphase] at hp; cases hp
  | @closes p t token d operator hn hs =>
    rcases step_within hp hs with ⟨_,_,hgo,_⟩ | ⟨_,_,hclose,hgrows⟩
    · cases hgo
    · cases hclose
      exact ⟨d,some operator,rfl,hgrows⟩
  | @goesOn p p' t token phase tokens out hn hs _ ih =>
    rcases step_within hp hs with ⟨_,d,hgo,hwithin,hgrows⟩ | ⟨_,_,hclose,_⟩
    · cases hgo
      obtain ⟨e,operator,hout,hgrows'⟩ := ih hwithin
      exact ⟨e,operator,hout,hgrows.trans hgrows'⟩
    · cases hclose

end Parser

end Growth

section Opening

variable {σ : Type}

/-- The token under which a command is opened: a word that names an alias becomes one. -/
def OpenCommand.promote (o : Options σ) (token : Token) : Token :=
  if token.kind = .word && o.expandAliases && o.aliases.contains token.value then
    { token with kind := .alias }
  else token

def OpenCommand.ofSettings (o : Options σ) (token : Token) : Option Grammar → OpenCommand σ
  | some grammar => ⟨.opened token .shell,o.forCommand grammar⟩
  | none => ⟨.opened token .game,o⟩

theorem OpenCommand.ofVerb_eq (o : Options σ) (settings : Settings) (token : Token) :
    ofVerb o settings token =
      if token.kind = .variable then ⟨.opened token .expression,o⟩
      else ofSettings o (promote o token) (settings (lookupName o (promote o token))) :=
  rfl

def Command.OpensByMark (c : Command) : Prop :=
  ∃ token c', c.tokens.head? = some token ∧ token.kind = .alias ∧ token.value = [c'] ∧
    Text.isAlphanumeric c' = false

/-- Whether the grammar of the session cuts a command in this text as its own does. The grammar
of its verb may read no character of the text differently, and in an expression there may be
no equals sign. -/
def Command.CutsAlike (o : Options σ) (settings : Settings) (text : Text) (c : Command) : Prop :=
  match c.kind with
  | .game => True
  | .shell => ∀ verb grammar, c.tokens.head? = some verb →
    settings (OpenCommand.lookupName o verb) = some grammar →
      ∀ ch ∈ text, grammar.reads ch = o.reads ch
  | .expression => ∀ token ∈ c.tokens, token.isOperator ['='] = false

/-- A mark that is an alias stays the first token of the command that it opens. -/
theorem OpenCommand.ofVerb_opensByMark (o : Options σ) (settings : Settings) {token : Token}
    {c : Char} (hk : token.kind = .alias) (hv : token.value = [c])
    (hc : Text.isAlphanumeric c = false) : (ofVerb o settings token).command.OpensByMark := by
  refine ⟨token,c,?_,hk,hv,hc⟩
  unfold ofVerb
  simp only [hk]
  split
  · rfl
  · split <;> rfl

/-- The command that a verb opens is read by a grammar of its own, or else by that of the
session. -/
theorem OpenCommand.ofVerb_grammar (o : Options σ) (settings : Settings) (token : Token) :
    ∃ grammar, (ofVerb o settings token).options = o.forCommand grammar ∧
      ((ofVerb o settings token).command.kind = .shell ∧
          settings (lookupName o (promote o token)) = some grammar ∧
          (ofVerb o settings token).command.tokens = [promote o token] ∨
        (ofVerb o settings token).command.kind ≠ .shell ∧ grammar = o.toGrammar) := by
  rw [ofVerb_eq]
  split
  · exact ⟨o.toGrammar,rfl,.inr ⟨nofun,rfl⟩⟩
  · cases settings (lookupName o (promote o token)) with
    | none => exact ⟨o.toGrammar,rfl,.inr ⟨nofun,rfl⟩⟩
    | some grammar => exact ⟨grammar,rfl,.inl ⟨rfl,rfl,rfl⟩⟩

/-- If the command that a verb leads to is cut as the session would, so is all of its text. -/
theorem OpenCommand.ofVerb_agrees {o : Options σ} {settings : Settings} {token : Token}
    {d : OpenCommand σ} {text : Text} (hgrows : (ofVerb o settings token).Grows d)
    (h : d.command.CutsAlike o settings text) :
    ∃ grammar, (ofVerb o settings token).options = o.forCommand grammar ∧
      ∀ ch ∈ text, grammar.reads ch = o.reads ch := by
  obtain ⟨grammar,hgrammar,⟨hkind,hsettings,htokens⟩ | ⟨-,rfl⟩⟩ := ofVerb_grammar o settings token
  · refine ⟨grammar,hgrammar,?_⟩
    have hd := hgrows.kind_eq.trans hkind
    unfold Command.CutsAlike at h
    rw [hd] at h
    obtain ⟨more,hmore⟩ := hgrows.tokens_kept
    refine h (promote o token) grammar ?_ hsettings
    rw [← hmore,htokens]
    rfl
  · exact ⟨_,hgrammar,fun _ _ => rfl⟩

theorem Parser.Reads.opened {p p' : Parser σ} {tokens : List Token}
    {out : Option (OpenCommand σ × Option Operator)} (h : Reads p tokens out p')
    (hp : p.phase.Between) :
    ∀ c operator, out = some (c,operator) →
      ∃ verb, verb.isVerb = true ∧ (OpenCommand.ofVerb p.options p.settings verb).Grows c := by
  induction h with
  | @ends p t c _ ha =>
    cases hphase : p.phase with
    | awaitingVerb | closed | done =>
      rw [hphase] at ha
      cases ha
      exact fun _ _ he => by cases he
    | inCommand | awaitingRedirectTarget => rw [hphase] at hp; cases hp
  | closes _ hs => rcases step_between hp hs with ⟨hgo,_⟩ | ⟨hgo,_⟩ <;> cases hgo
  | @goesOn p p' t token phase tokens out _ hs hrest ih =>
    rcases step_between hp hs with ⟨hgo,_⟩ | ⟨hgo,hverb⟩
    · cases hgo
      exact ih .awaitingVerb
    · cases hgo
      rintro c operator rfl
      obtain ⟨_,_,hout,hgrows⟩ := hrest.grows (.inCommand _)
      cases hout
      exact ⟨token,hverb,hgrows⟩

end Opening

section Cutting

variable {σ : Type} {o : Options σ} {history : List Text}

/-- Whatever follows, the text between two readers is cut into tokens of this spelling when a
history reference brings it in. -/
def CutsTo (o : Options σ) (history : List Text) (begun : Bool) (t : Tokenizer)
    (tokens : List Token) (begun' : Bool) (t' : Tokenizer) : Prop :=
  ∀ start, ∃ stop tokens', Token.Alike tokens tokens' ∧ ∀ more,
    Tokenizer.historyTokens { o with history, historyLevel := .off } (.inText begun') t'.previous
      stop t'.rest = .ok more →
    Tokenizer.historyTokens { o with history, historyLevel := .off } (.inText begun) t.previous
      start t.rest = .ok (tokens' ++ more)

theorem CutsTo.refl (begun : Bool) (t : Tokenizer) :
    CutsTo o history begun t [] begun t :=
  fun start => ⟨start,[],rfl,fun _ h => h⟩

theorem CutsTo.cons {o' : Options σ} {ctx : LexContext} {begun begun' : Bool}
    {t t₁ t' : Tokenizer} {token : Token} {tokens : List Token} {c : Char} {rest : Text}
    {lexeme : Lexeme} (ht : Tokenizer.Takes o' ctx t token t₁ c rest lexeme)
    (hs : Lexeme.scan o (.inText begun) t.previous t.index c rest = .ok lexeme)
    (h : CutsTo o history (begun || token.kind ≠ .blank) t₁ tokens begun' t') :
    CutsTo o history begun t (token :: tokens) begun' t' := by
  intro start
  have hkind : token.kind = lexeme.kind := congrArg Prod.fst ht.spelling_eq
  obtain ⟨stop₁,hcut⟩ := Tokenizer.historyTokens_cons
    ((Lexeme.scan_history o history).trans (Lexeme.scan_start hs start))
  obtain ⟨stop,tokens',htokens,hmore⟩ := h stop₁
  refine ⟨stop,⟨lexeme.kind,lexeme.value,.history,start,stop₁,none⟩ :: tokens',?_,?_⟩
  · rw [Token.Alike,List.map_cons,List.map_cons,ht.spelling_eq,htokens]
    rfl
  · intro more hm
    have h₁ := hmore more hm
    rw [ht.previous_eq,ht.left_eq,hkind] at h₁
    rw [ht.rest_eq,hcut,h₁]
    rfl

namespace Parser

variable {p p' : Parser σ} {c : OpenCommand σ} {tokens : List Token}

/-- What both readings agree on when a run has come to its end. -/
structure Cut (o : Options σ) (history : List Text) (begun : Bool) (t : Tokenizer)
    (tokens : List Token) (out : Option (OpenCommand σ × Option Operator)) (begun' : Bool)
    (t' : Tokenizer) : Prop where
  cutsTo : CutsTo o history begun t tokens begun' t'
  calm : Tokenizer.Calm o.history t'
  text_eq : t'.expanded ++ t'.rest = t.expanded ++ t.rest
  rest_subset : t'.rest ⊆ t.rest
  ended : (∀ d operator, out ≠ some (d,some operator)) → t'.rest = []

theorem Cut.cons {o' : Options σ} {ctx : LexContext} {begun begun' : Bool} {t t₁ t' : Tokenizer}
    {token : Token} {out : Option (OpenCommand σ × Option Operator)} {c : Char} {rest : Text}
    {lexeme : Lexeme} (ht : Tokenizer.Takes o' ctx t token t₁ c rest lexeme)
    (hs : Lexeme.scan o (.inText begun) t.previous t.index c rest = .ok lexeme)
    (h : Cut o history (begun || token.kind ≠ .blank) t₁ tokens out begun' t') :
    Cut o history begun t (token :: tokens) out begun' t' :=
  ⟨.cons ht hs h.cutsTo,h.calm,h.text_eq.trans ht.text_eq,
    fun _ hc => ht.rest_subset (h.rest_subset hc),h.ended⟩

theorem Cut.closes {o' : Options σ} {ctx : LexContext} {begun : Bool} {t t₁ : Tokenizer}
    {token : Token} {d : OpenCommand σ} {operator : Operator} {c : Char} {rest : Text}
    {lexeme : Lexeme} (ht : Tokenizer.Takes o' ctx t token t₁ c rest lexeme)
    (hs : Lexeme.scan o (.inText begun) t.previous t.index c rest = .ok lexeme)
    (hcalm : Tokenizer.Calm o.history t₁) :
    Cut o history begun t [token] (some (d,some operator)) (begun || token.kind ≠ .blank) t₁ :=
  ⟨.cons ht hs (.refl _ t₁),hcalm,ht.text_eq,ht.rest_subset,
    fun hne => absurd rfl (hne d operator)⟩

theorem Cut.ends {begun : Bool} {t : Tokenizer} {out : Option (OpenCommand σ × Option Operator)}
    (hcalm : Tokenizer.Calm o.history t) (hr : t.rest = []) : Cut o history begun t [] out begun t :=
  ⟨.refl begun t,hcalm,rfl,List.Subset.refl _,fun _ => hr⟩

/-- Inside a command both readings cut the text alike, if its grammar and that of the session
read the characters alike, and it has no equals sign to itself. -/
theorem Reads.cut_within {out : Option (OpenCommand σ × Option Operator)} {grammar : Grammar}
    (h : Reads p tokens out p') (hp : p.phase.Within c) (ho : c.options = o.forCommand grammar)
    (ht : Tokenizer.Calm o.history p.tokenizer)
    (hgrammar : ∀ ch ∈ p.tokenizer.rest, grammar.reads ch = o.reads ch)
    (hequals : ∀ d operator, out = some (d,operator) → d.command.kind = .expression →
      ∀ token ∈ d.command.tokens, token.isOperator ['='] = false) :
    Cut o history true p.tokenizer tokens out true p'.tokenizer := by
  have hreader {p : Parser σ} {c : OpenCommand σ} (hp : p.phase.Within c)
      (ho : c.options = o.forCommand grammar) :
      p.grammar = o.forCommand grammar ∧
        p.context = ⟨true,decide (c.command.kind = .expression)⟩ :=
    (reader_within hp).imp_left (·.trans ho)
  induction h generalizing c with
  | @ends p t d hn _ =>
    obtain ⟨hg,-⟩ := hreader hp ho
    rw [hg] at hn
    obtain ⟨rfl,-,hr⟩ := Tokenizer.next_ended hn
    exact .ends ht hr
  | @closes p t token d operator hn hs =>
    obtain ⟨hg,hc⟩ := hreader hp ho
    rw [hg,hc] at hn
    obtain ⟨ch,rest,lexeme,htakes⟩ := Tokenizer.Calm.next (o := o.forCommand grammar) ht hn
    refine .closes htakes (htakes.scan_session hgrammar fun _ => ?_) htakes.calm
    refine Bool.eq_false_iff.2 fun hequal => ?_
    obtain ⟨_,_,hgo,-⟩ := step_equals hp hequal hs
    cases hgo
  | @goesOn p p' t token phase tokens out hn hs hrest ih =>
    obtain ⟨hg,hc⟩ := hreader hp ho
    rw [hg,hc] at hn
    obtain ⟨ch,rest,lexeme,htakes⟩ := Tokenizer.Calm.next (o := o.forCommand grammar) ht hn
    rcases step_within hp hs with ⟨_,d,hgo,hwithin,hgrows⟩ | ⟨_,_,hclose,_⟩
    · cases hgo
      have hcut := ih hwithin (hgrows.options_eq.trans ho) htakes.calm
        (fun ch hch => hgrammar ch (htakes.rest_subset hch)) hequals
      refine .cons htakes (htakes.scan_session hgrammar fun hexpression => ?_) hcut
      -- An equals sign would still be a token of the command that the run comes to.
      obtain ⟨e,operator,hout,hgrows'⟩ := hrest.grows hwithin
      have hkind : e.command.kind = .expression :=
        hgrows'.kind_eq.trans (hgrows.kind_eq.trans (of_decide_eq_true hexpression))
      refine Bool.eq_false_iff.2 fun hequal => ?_
      obtain ⟨_,d',hgo,hwithin',hmem⟩ := step_equals hp hequal hs
      cases hgo
      cases hwithin.unique hwithin'
      have hno := hequals e operator hout hkind token (hgrows'.tokens_kept.subset hmem)
      rw [hequal] at hno
      cases hno
    · cases hclose

/-- Between commands both readings cut the text alike, up to the end of the next command, unless
this is cut by another grammar or is opened by an alias of one mark that stands inside the
text. -/
theorem Reads.cut (history : List Text) {text : Text} (begun : Bool)
    {out : Option (OpenCommand σ × Option Operator)} (h : Reads p tokens out p')
    (hp : p.phase.Between) (ho : p.options = o)
    (ht : Tokenizer.Calm o.history p.tokenizer) (htext : p.tokenizer.rest ⊆ text)
    (hout : ∀ d operator, out = some (d,operator) →
      d.command.CutsAlike o p.settings text ∧ (begun = true → ¬ d.command.OpensByMark)) :
    ∃ begun', (out.isSome → begun' = true) ∧
      Cut o history begun p.tokenizer tokens out begun' p'.tokenizer := by
  have hreader {p : Parser σ} (hp : p.phase.Between) (ho : p.options = o) :
      p.grammar = o ∧ p.context = {} :=
    (reader_between hp).imp_left (·.trans ho)
  induction h with
  | @ends p t d hn ha' =>
    obtain ⟨hg,hc⟩ := hreader hp ho
    rw [hg,hc] at hn
    obtain ⟨rfl,-,hr⟩ := Tokenizer.next_ended hn
    have hd : d = none := by
      cases hphase : p.phase with
      | awaitingVerb | closed | done => rw [hphase] at ha'; cases ha'; rfl
      | inCommand | awaitingRedirectTarget => rw [hphase] at hp; cases hp
    subst hd
    exact ⟨begun,nofun,.ends ht hr⟩
  | @closes p t token d operator hn hs =>
    rcases step_between hp hs with ⟨hgo,_⟩ | ⟨hgo,_⟩ <;> cases hgo
  | @goesOn p p' t token phase tokens out hn hs hrest ih =>
    obtain ⟨hg,hc⟩ := hreader hp ho
    rw [hg,hc] at hn
    obtain ⟨c,rest,lexeme,htakes⟩ := ht.next hn
    have hscan := Lexeme.scan_kind htakes.scan_eq
    have hkind : token.kind = lexeme.kind := congrArg Prod.fst htakes.spelling_eq
    have hvalue : token.value = lexeme.value := congrArg Prod.snd htakes.spelling_eq
    have htext' : t.rest ⊆ text := fun _ hc => htext (htakes.rest_subset hc)
    rcases step_between hp hs with ⟨hgo,hk⟩ | ⟨hgo,hverb⟩
    · cases hgo
      have hblank : token.kind = .blank := by
        rw [hkind] at hk ⊢
        rcases hk with hk | hk | hk
        · exact hk
        · rw [hk] at hscan; simp [Lexeme.specialKinds] at hscan
        · rw [hk] at hscan; simp [Lexeme.specialKinds] at hscan
      obtain ⟨begun',hbegun,hcut⟩ := ih .awaitingVerb ho htakes.calm htext' hout
      refine ⟨begun',hbegun,.cons htakes ?_ ?_⟩
      · cases begun with
        | false => exact htakes.scan_eq
        | true => exact Lexeme.scan_inCommand htakes.scan_eq (by rw [← hkind,hblank]; decide)
      · simpa [hblank] using hcut
    · cases hgo
      have hk : token.kind ≠ .blank := by
        intro hblank
        rw [Token.isVerb,hblank] at hverb
        cases hverb
      obtain ⟨d,operator,rfl,hgrows⟩ := hrest.grows (.inCommand _)
      obtain ⟨hcuts,hmark⟩ := hout d operator rfl
      rw [ho] at hrest hgrows
      obtain ⟨grammar,hgrammar,hreads⟩ := OpenCommand.ofVerb_agrees hgrows hcuts
      have hequals : ∀ d' operator', some (d,operator) = some (d',operator') →
          d'.command.kind = .expression →
            ∀ token ∈ d'.command.tokens, token.isOperator ['='] = false := by
        rintro _ _ ⟨⟩ hexpression
        unfold Command.CutsAlike at hcuts
        rw [hexpression] at hcuts
        exact hcuts
      have hcut : Cut o history true t tokens _ true p'.tokenizer :=
        hrest.cut_within (.inCommand _) hgrammar htakes.calm
          (fun ch hch => hreads ch (htext' hch)) hequals
      refine ⟨true,fun _ => rfl,.cons htakes ?_ (by simpa [hk] using hcut)⟩
      cases begun with
      | false => exact htakes.scan_eq
      | true =>
        refine Lexeme.scan_inCommand htakes.scan_eq fun hal => ?_
        rcases hscan with ⟨-,hv,hna⟩ | hmem
        · -- The mark would still be the first token of the command that is read.
          obtain ⟨first,c',hhead,hopens⟩ := OpenCommand.ofVerb_opensByMark o p.settings
            (hkind.trans hal) (hvalue.trans hv) hna
          obtain ⟨more,hmore⟩ := hgrows.tokens_kept
          refine hmark rfl ⟨first,c',?_,hopens⟩
          rw [← hmore,List.head?_append,hhead]
          rfl
        · rw [hal] at hmem
          simp [Lexeme.specialKinds] at hmem

theorem restart_between {p : Parser σ} (hp : p.phase.current? = none) :
    p.restart.phase.Between ∧ p.restart.phase = .awaitingVerb none := by
  have hphase : p.restart.phase = .awaitingVerb none := by
    show ParserPhase.awaitingVerb p.phase.current? = _
    rw [hp]
  exact ⟨by rw [hphase]; exact .awaitingVerb,hphase⟩

/-- Every command of a line has been opened at a token that may open one. -/
theorem ReadsLine.opened {tokens : List Token} {t : Tokenizer}
    {cs : List (OpenCommand σ × Option Operator)} (h : ReadsLine p tokens cs t)
    (hp : p.phase.current? = none) :
    ∀ c ∈ cs, ∃ verb, verb.isVerb = true ∧
      (OpenCommand.ofVerb p.options p.settings verb).Grows c.1 := by
  induction h with
  | empty => exact fun c hc => by cases hc
  | last h =>
    intro c hc
    cases List.mem_singleton.1 hc
    exact h.opened (restart_between hp).1 _ _ rfl
  | closed h _ ih =>
    obtain ⟨hoptions,hsettings,hphase⟩ := h.session
    intro c hc
    rcases List.mem_cons.1 hc with rfl | hc
    · exact h.opened (restart_between hp).1 _ _ rfl
    · rw [hoptions,hsettings] at ih
      exact ih hphase c hc

/-- A whole line is cut alike. A mark that opens the first command does no harm where the text
begins with this command. -/
theorem ReadsLine.cut (history : List Text) {text : Text} {t : Tokenizer}
    {cs : List (OpenCommand σ × Option Operator)} (h : ReadsLine p tokens cs t)
    (hp : p.phase.current? = none) (ho : p.options = o)
    (ht : Tokenizer.Calm o.history p.tokenizer) (htext : p.tokenizer.rest ⊆ text)
    (hcuts : ∀ c ∈ cs, c.1.command.CutsAlike o p.settings text) (begun : Bool)
    (hmark : ∀ c ∈ if begun then cs else cs.tail, ¬ c.1.command.OpensByMark) (start : Nat) :
    t.expanded = p.tokenizer.expanded ++ p.tokenizer.rest ∧
      ∃ tokens', Token.Alike tokens tokens' ∧
        Tokenizer.historyTokens { o with history, historyLevel := .off } (.inText begun)
          p.tokenizer.previous start p.tokenizer.rest = .ok tokens' := by
  have hend {begun begun' : Bool} {u u' : Tokenizer} {tokens : List Token}
      {out : Option (OpenCommand σ × Option Operator)} (start : Nat)
      (h : Cut o history begun u tokens out begun' u')
      (hout : ∀ d operator, out ≠ some (d,some operator)) :
      u'.expanded = u.expanded ++ u.rest ∧ ∃ tokens', Token.Alike tokens tokens' ∧
        Tokenizer.historyTokens { o with history, historyLevel := .off } (.inText begun)
          u.previous start u.rest = .ok tokens' := by
    have hrest := h.ended hout
    obtain ⟨stop,tokens',halike,hmore⟩ := h.cutsTo start
    have htokens := hmore [] (by rw [hrest,Tokenizer.historyTokens])
    rw [List.append_nil] at htokens
    have htext := h.text_eq
    rw [hrest,List.append_nil] at htext
    exact ⟨htext,tokens',halike,htokens⟩
  induction h generalizing begun start with
  | @empty p p' tokens h =>
    obtain ⟨begun',-,hcut⟩ := h.cut history begun (restart_between hp).1 ho ht htext
      (fun _ _ he => by cases he)
    exact hend start hcut fun _ _ he => by cases he
  | @last p p' tokens c h =>
    have hopens : begun = true → ¬ c.command.OpensByMark := by
      rintro rfl
      exact hmark _ (.head _)
    obtain ⟨begun',-,hcut⟩ := h.cut history begun (restart_between hp).1 ho ht htext
      (fun _ _ he => by cases he; exact ⟨hcuts _ (.head _),hopens⟩)
    exact hend start hcut fun _ _ he => by cases he
  | @closed p p' tokens more c operator cs t h _ ih =>
    have hopens : begun = true → ¬ c.command.OpensByMark := by
      rintro rfl
      exact hmark _ (.head _)
    obtain ⟨begun',hbegun,hcut⟩ := h.cut history begun (restart_between hp).1 ho ht htext
      (fun _ _ he => by cases he; exact ⟨hcuts _ (.head _),hopens⟩)
    cases hbegun rfl
    obtain ⟨stop,tokens',halike,hmore⟩ := hcut.cutsTo start
    obtain ⟨hoptions,hsettings,hphase⟩ := h.session
    have hsettings : p'.settings = p.settings := hsettings
    have hrest : ∀ c ∈ if true then cs else cs.tail, ¬ c.1.command.OpensByMark := by
      intro c hc
      cases begun with
      | false => exact hmark c hc
      | true => exact hmark c (.tail _ hc)
    obtain ⟨hexpanded,more',halike',hmore'⟩ := ih hphase (hoptions.trans ho) hcut.calm
      (fun _ hc => htext (hcut.rest_subset hc))
      (fun c hc => hsettings ▸ hcuts c (.tail _ hc)) true hrest stop
    refine ⟨hexpanded.trans hcut.text_eq,tokens' ++ more',?_,hmore _ hmore'⟩
    rw [Token.Alike,List.map_append,List.map_append,halike,halike']

end Parser

end Cutting

end Realm
