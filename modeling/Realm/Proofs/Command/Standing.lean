import Realm.Proofs.Command.Replay

/-! Lines that end alike. Readers that have come to the same text in different ways read the same
tokens of it, at other places; and the tokens behind a verb are put together without regard to
the verb. -/
namespace Realm

section Beside

variable {σ : Type} {history : List Text} {o : Options σ} {ctx : LexContext}

theorem Tokenizer.Calm.takes {t : Tokenizer} {c : Char} {rest : Text} {lexeme : Lexeme}
    (ht : Calm o.history t) (hr : t.rest = c :: rest)
    (hs : Lexeme.scan o ctx t.previous t.index c rest = .ok lexeme) :
    ∃ token t', t.next o ctx = (.ok (some token),t') ∧ Takes o ctx t token t' c rest lexeme := by
  have hn := ht.next_lexeme hr hs
  obtain ⟨c',rest',lexeme',htakes⟩ := ht.next hn
  cases htakes.rest_eq.symm.trans hr
  cases htakes.scan_eq.symm.trans hs
  exact ⟨_,_,hn,htakes⟩

/-- Readers with the same text before them, in which they meet no history reference. -/
structure Tokenizer.Beside (history : List Text) (t u : Tokenizer) : Prop where
  rest_eq : u.rest = t.rest
  previous_eq : u.previous = t.previous
  left : Calm history t
  right : Calm history u

namespace Tokenizer.Beside

variable {t t' u : Tokenizer}

theorem next_none (h : t.Beside history u) (hn : t.next o ctx = (.ok none,t')) :
    t' = t ∧ u.next o ctx = (.ok none,u) := by
  obtain ⟨rfl,-,hrest⟩ := next_ended hn
  exact ⟨rfl,Tokenizer.next_none h.right.stack_eq (h.rest_eq.trans hrest)⟩

theorem next (h : t.Beside o.history u) {s : Token} (hn : t.next o ctx = (.ok (some s),t')) :
    ∃ s' u', u.next o ctx = (.ok (some s'),u') ∧ s.spelling = s'.spelling ∧
      t'.Beside o.history u' := by
  obtain ⟨c,rest,lexeme,htakes⟩ := h.left.next hn
  have hscan : Lexeme.scan o ctx u.previous u.index c rest = .ok lexeme :=
    h.previous_eq ▸ Lexeme.scan_start htakes.scan_eq u.index
  have hrest : u.rest = c :: rest := h.rest_eq.trans htakes.rest_eq
  obtain ⟨s',u',hn',htakes'⟩ := h.right.takes hrest hscan
  exact ⟨s',u',hn',htakes.spelling_eq.trans htakes'.spelling_eq.symm,
    htakes'.left_eq.trans htakes.left_eq.symm,htakes'.previous_eq.trans htakes.previous_eq.symm,
    htakes.calm,htakes'.calm⟩

end Tokenizer.Beside

def ParserPhase.Remembers (history : List Text) (phase : ParserPhase σ) : Prop :=
  ∀ c ∈ phase.current?, c.options.history = history

namespace ParserPhase

variable {phase phase' : ParserPhase σ}

theorem Follows.between_or_within (h : phase.Follows history phase') :
    phase.Between ∨ ∃ c, phase.Within c := by
  cases h with
  | awaitingVerb => exact .inl .awaitingVerb
  | closed => exact .inl .closed
  | done => exact .inl .done
  | inCommand => exact .inr ⟨_,.inCommand _⟩
  | redirecting => exact .inr ⟨_,.redirecting _ _⟩

theorem Follows.within {c : OpenCommand σ} (h : phase.Follows history phase')
    (hp : phase.Within c) : ∃ d, phase'.Within d := by
  cases h with
  | inCommand => exact ⟨_,.inCommand _⟩
  | redirecting => exact ⟨_,.redirecting _ _⟩
  | awaitingVerb | closed | done => cases hp

theorem Follows.current?_none (h : phase.Follows history phase') (hp : phase.current? = none) :
    phase'.current? = none := by
  cases h with
  | awaitingVerb | closed | done => rfl
  | inCommand | redirecting => cases hp

end ParserPhase

namespace Parser

variable {p p' q : Parser σ} {t u : Tokenizer}

theorem step_remembers {token : Token} (hp : p.phase.Between ∨ ∃ c, p.phase.Within c)
    (ho : p.options.history = history) (hh : p.phase.Remembers history) {phase : ParserPhase σ}
    (h : step { p with tokenizer := t, phase := settle p.phase token } token = .ok (.goOn phase)) :
    phase.Remembers history := by
  rcases hp with hp | ⟨c,hp⟩
  · rcases step_between hp h with ⟨hgo,-⟩ | ⟨hgo,-⟩
    · cases hgo
      exact fun _ hc => by cases hc
    · cases hgo
      obtain ⟨grammar,hgrammar,-⟩ := OpenCommand.ofVerb_grammar p.options p.settings token
      rintro _ ⟨⟩
      rw [hgrammar]
      exact ho
  · rcases step_within hp h with ⟨_,d,hgo,hwithin,hgrows⟩ | ⟨_,_,hclose,-⟩
    · cases hgo
      intro e he
      rw [hwithin.current?] at he
      cases he
      rw [hgrows.options_eq]
      exact hh c hp.current?
    · cases hclose

/-- Parsers of one session before the same text, in phases that correspond. -/
structure Beside (history : List Text) (p q : Parser σ) : Prop where
  follows : p.Follows history q
  tokenizers : p.tokenizer.Beside history q.tokenizer
  options_history : p.options.history = history
  phase_history : p.phase.Remembers history

namespace Beside

theorem grammar_history (h : p.Beside history q) : p.grammar.history = history := by
  unfold grammar
  cases hc : p.phase.current? with
  | none => exact h.options_history
  | some c => exact h.phase_history c hc

theorem next_eq (h : p.Beside history q) :
    q.grammar = p.grammar ∧ q.context = p.context := by
  have hh := h.grammar_history
  obtain ⟨⟨hoptions,-,hphase⟩,-⟩ := h
  have hgrammar : q.grammar = { p.grammar with history } ∧ q.context = p.context := by
    unfold grammar context
    generalize p.phase = phase at hphase
    generalize q.phase = phase' at hphase
    cases hphase with
    | awaitingVerb | closed | done => exact ⟨hoptions,rfl⟩
    | inCommand h | redirecting h =>
      refine ⟨h.options_eq,?_⟩
      show OpenCommand.context _ = OpenCommand.context _
      unfold OpenCommand.context
      rw [h.command_eq]
  rw [hgrammar.1,← hh]
  exact ⟨rfl,hgrammar.2⟩

theorem restart (h : p.Beside history q) (hp : p.phase.current? = none) :
    p.restart.Beside history q.restart := by
  refine ⟨restart_follows hp (h.follows.phase.current?_none hp) h.follows.options_eq
    h.follows.settings_eq,h.tokenizers,h.options_history,?_⟩
  rw [(restart_between hp).2]
  exact fun _ hc => by cases hc

end Beside

def OutFollows (history : List Text) :
    Option (OpenCommand σ × Option Operator) → Option (OpenCommand σ × Option Operator) → Prop :=
  Option.Rel fun c d => c.1.Follows history d.1 ∧ c.2 = d.2

theorem OutFollows.of_some {c : OpenCommand σ} {operator : Option Operator}
    {out : Option (OpenCommand σ × Option Operator)}
    (h : OutFollows history (some (c,operator)) out) :
    ∃ d, out = some (d,operator) ∧ c.Follows history d := by
  cases h with
  | @some _ d hd =>
    obtain ⟨hfollows,hoperator⟩ := hd
    exact ⟨d.1,congrArg some (Prod.ext rfl hoperator.symm),hfollows⟩

theorem Reads.beside {tokens : List Token} {out : Option (OpenCommand σ × Option Operator)}
    (h : Reads p tokens out p') (hpq : p.Beside history q) :
    ∃ tokens' out' q', Reads q tokens' out' q' ∧ OutFollows history out out' ∧
      p'.Beside history q' := by
  induction h generalizing q with
  | @ends p t c hn ha =>
    obtain ⟨hgrammar,hcontext⟩ := hpq.next_eq
    obtain ⟨rfl,hn'⟩ := hpq.tokenizers.next_none hn
    rw [← hgrammar,← hcontext] at hn'
    obtain ⟨d,ha',hsome,hfollows⟩ := atEnd_follows hpq.follows.phase ha
    refine ⟨_,_,_,.ends hn' ha',?_,⟨hpq.follows.options_eq,hpq.follows.settings_eq,.done⟩,
      hpq.tokenizers,hpq.options_history,fun _ hc => by cases hc⟩
    cases c with
    | none =>
      cases d with
      | none => exact .none
      | some d => cases hsome
    | some c =>
      obtain ⟨d,rfl,hd⟩ := hfollows c rfl
      exact .some ⟨hd,rfl⟩
  | @closes p t token c operator hn hs =>
    obtain ⟨hgrammar,hcontext⟩ := hpq.next_eq
    obtain ⟨token',u,hn',hspelling,hbeside⟩ :=
      (hpq.grammar_history.symm ▸ hpq.tokenizers).next hn
    rw [← hgrammar,← hcontext] at hn'
    obtain ⟨_,hs',hstep⟩ := step_follows hpq.follows hspelling hs
    cases hstep with
    | close hf =>
      exact ⟨_,_,_,.closes hn' hs',.some ⟨hf,rfl⟩,
        ⟨hpq.follows.options_eq,hpq.follows.settings_eq,.closed⟩,hpq.grammar_history ▸ hbeside,
        hpq.options_history,fun _ hc => by cases hc⟩
  | @goesOn p p' t token phase tokens out hn hs _ ih =>
    obtain ⟨hgrammar,hcontext⟩ := hpq.next_eq
    obtain ⟨token',u,hn',hspelling,hbeside⟩ :=
      (hpq.grammar_history.symm ▸ hpq.tokenizers).next hn
    rw [← hgrammar,← hcontext] at hn'
    obtain ⟨_,hs',hstep⟩ := step_follows hpq.follows hspelling hs
    have hremembers := step_remembers hpq.follows.phase.between_or_within hpq.options_history
      hpq.phase_history hs
    cases hstep with
    | @goOn _ phase' hf =>
      obtain ⟨tokens',out',q',hreads,hout,hq'⟩ := ih
        (q := { q with tokenizer := u, phase := phase' })
        ⟨⟨hpq.follows.options_eq,hpq.follows.settings_eq,hf⟩,hpq.grammar_history ▸ hbeside,
          hpq.options_history,hremembers⟩
      exact ⟨_,out',q',.goesOn hn' hs' hreads,hout,hq'⟩

theorem ReadsLine.beside {tokens : List Token} {cs : List (OpenCommand σ × Option Operator)}
    (h : ReadsLine p tokens cs t) (hpq : p.Beside history q) (hp : p.phase.current? = none) :
    ∃ tokens' ds u, ReadsLine q tokens' ds u ∧ LinksFollow history cs ds := by
  induction h generalizing q with
  | empty h =>
    obtain ⟨tokens',out',q',hreads,hout,-⟩ := h.beside (hpq.restart hp)
    cases hout
    exact ⟨_,[],_,.empty hreads,.nil⟩
  | last h =>
    obtain ⟨tokens',out',q',hreads,hout,-⟩ := h.beside (hpq.restart hp)
    obtain ⟨d,rfl,hfollows⟩ := hout.of_some
    exact ⟨_,_,_,.last hreads,.cons hfollows .nil⟩
  | closed h _ ih =>
    obtain ⟨tokens',out',q',hreads,hout,hbeside⟩ := h.beside (hpq.restart hp)
    obtain ⟨d,rfl,hfollows⟩ := hout.of_some
    obtain ⟨more,ds,u,hline,hlinks⟩ := ih hbeside h.session.2.2
    exact ⟨_,_,_,.closed hreads hline,.cons hfollows hlinks⟩

end Parser

end Beside

section Headed

variable {σ : Type} {verb : Token}

def OpenCommand.headed (verb : Token) (c : OpenCommand σ) : OpenCommand σ :=
  { c with command := { c.command with verb := verb.rawText, tokens := verb :: c.command.tokens } }

def ParserPhase.headed (verb : Token) : ParserPhase σ → ParserPhase σ
  | inCommand current => inCommand (current.headed verb)
  | awaitingRedirectTarget current pending => awaitingRedirectTarget (current.headed verb) pending
  | phase => phase

namespace Parser

def headed (verb : Token) (p : Parser σ) : Parser σ :=
  { p with phase := p.phase.headed verb }

def Step.headed (verb : Token) : Step σ → Step σ
  | goOn phase => goOn (phase.headed verb)
  | close command operator => close (command.headed verb) operator

variable {p : Parser σ} {c : OpenCommand σ} {token : Token}

@[simp] theorem settle_headed (phase : ParserPhase σ) (token : Token) :
    settle (phase.headed verb) token = (settle phase token).headed verb := by
  cases phase with
  | awaitingRedirectTarget c pending =>
    simp only [settle,ParserPhase.headed]
    split <;> rfl
  | awaitingVerb | inCommand | closed | done => rfl

theorem atEnd_headed {phase : ParserPhase σ} (h : phase.Within c) :
    atEnd (phase.headed verb) = (atEnd phase).map (Option.map (·.headed verb)) := by
  cases h with
  | inCommand => rfl
  | redirecting =>
    simp only [atEnd,ParserPhase.headed]
    split <;> rfl

theorem step_headed (h : p.phase.Within c) (token : Token) :
    step (p.headed verb) token = (step p token).map (Step.headed verb) := by
  obtain ⟨t,o,settings,phase⟩ := p
  cases h with
  | inCommand =>
    show stepInCommand _ (c.headed verb) token = (stepInCommand _ c token).map _
    unfold stepInCommand
    split
    · rfl
    · rfl
    · split
      · rfl
      · split
        · rfl
        · split
          · rfl
          · split <;> rfl
    · rfl
  | redirecting pending =>
    show stepRedirectTarget _ (c.headed verb) pending token =
      (stepRedirectTarget _ c pending token).map _
    unfold stepRedirectTarget
    split <;> rfl

def closedHeaded (verb : Token) (c : OpenCommand σ × Option Operator) :
    OpenCommand σ × Option Operator :=
  (c.1.headed verb,c.2)

theorem settle_within {phase : ParserPhase σ} (h : phase.Within c) (token : Token) :
    ∃ d, (settle phase token).Within d := by
  cases h with
  | inCommand => exact ⟨c,.inCommand c⟩
  | redirecting pending =>
    unfold settle
    dsimp only
    split
    · exact ⟨_,.inCommand _⟩
    · exact ⟨c,.redirecting c pending⟩

theorem read_headed (h : p.phase.Within c) (verb : Token) :
    (p.headed verb).read =
      (p.read.1.map (Option.map (closedHeaded verb)),p.read.2.headed verb) := by
  induction hr : p.tokenizer.remaining using
    (WellFounded.induction (r := Tokenizer.Fewer)
      (Prod.lex Nat.lt_wfRel (Prod.lex Nat.lt_wfRel Nat.lt_wfRel)).wf) generalizing p c with
  | _ r ih =>
    subst hr
    have hnext : (p.headed verb).tokenizer.next (p.headed verb).grammar (p.headed verb).context =
        p.tokenizer.next p.grammar p.context := by
      obtain ⟨t,o,settings,phase⟩ := p
      cases h <;> rfl
    rw [read_eq,hnext,read_eq p]
    rcases hn : p.tokenizer.next p.grammar p.context with ⟨e | (_ | token),t⟩
    · rfl
    · dsimp only
      rw [show (p.headed verb).phase = p.phase.headed verb from rfl,atEnd_headed h]
      rcases atEnd p.phase with e | _ | c <;> rfl
    · obtain ⟨d,hd⟩ := settle_within h token
      have hstep : step { p.headed verb with
          tokenizer := t
          phase := settle (p.headed verb).phase token } token =
          (step { p with tokenizer := t, phase := settle p.phase token } token).map
            (Step.headed verb) := by
        rw [← step_headed (p := { p with tokenizer := t, phase := settle p.phase token }) hd]
        show step { p with tokenizer := t, phase := settle (p.phase.headed verb) token } token = _
        rw [settle_headed]
        rfl
      dsimp only
      rw [hstep]
      rcases hs : step { p with tokenizer := t, phase := settle p.phase token } token with
        e | (phase | ⟨c,operator⟩)
      · dsimp only [Except.map]
        rw [show (p.headed verb).phase = p.phase.headed verb from rfl,settle_headed]
        rfl
      · rcases step_within h hs with ⟨_,_,hgo,hwithin,-⟩ | ⟨_,_,hclose,-⟩
        · cases hgo
          exact ih _ (Tokenizer.next_fewer hn) (p := { p with tokenizer := t, phase }) hwithin rfl
        · cases hclose
      · rfl

theorem read_headed_ok {p' : Parser σ} {out : Option (OpenCommand σ × Option Operator)}
    (h : p.phase.Within c) (hread : (p.headed verb).read = (.ok out,p')) :
    ∃ d operator p₀ tokens, out = some (d.headed verb,operator) ∧ p' = p₀.headed verb ∧
      Reads p tokens (some (d,operator)) p₀ := by
  rw [read_headed h] at hread
  rcases hr : p.read with ⟨e | out₀,p₀⟩
  · rw [hr] at hread
    cases hread
  · rw [hr] at hread
    cases hread
    obtain ⟨tokens,hreads⟩ := reads_of_read hr
    obtain ⟨d,operator,rfl,-⟩ := hreads.grows h
    exact ⟨d,operator,p₀,tokens,rfl,rfl,hreads⟩

theorem Reads.headed_eq {p' : Parser σ} {tokens : List Token}
    {out : Option (OpenCommand σ × Option Operator)} (h : Reads p tokens out p') (verb : Token) :
    p'.headed verb = p' := by
  induction h with
  | ends | closes => rfl
  | goesOn _ _ _ ih => exact ih

variable {history : List Text} {q p₁ q₁ : Parser σ} {a b : Token}

/-- Lines that open one command by two verbs and then go on alike: if one is read to its end, the
other is, too, and the commands correspond behind the verbs. -/
theorem ReadsLine.beside_headed {tokens : List Token} {t : Tokenizer}
    {cs : List (OpenCommand σ × Option Operator)} (h : ReadsLine p tokens cs t)
    (hp : p.restart.read = (p₁.headed a).read) (hq : q.restart.read = (q₁.headed b).read)
    (hwithin : p₁.phase.Within c) (hbeside : p₁.Beside history q₁) :
    ∃ d d' operator cs' ds p' tokens' more u, cs = (d.headed a,operator) :: cs' ∧
      Reads p₁ tokens' (some (d,operator)) p' ∧
      ReadsLine q more ((d'.headed b,operator) :: ds) u ∧ d.Follows history d' ∧
      LinksFollow history cs' ds := by
  have hfirst {tokens : List Token} {out : Option (OpenCommand σ × Option Operator)}
      {p' : Parser σ} (h : Reads p.restart tokens out p') :
      ∃ d d' operator tokens tokens' q', out = some (d.headed a,operator) ∧
        Reads p₁ tokens (some (d,operator)) p' ∧
        Reads q.restart tokens' (some (d'.headed b,operator)) q' ∧ d.Follows history d' ∧
        p'.Beside history q' := by
    obtain ⟨d,operator,p₀,tokens,rfl,rfl,hreads⟩ :=
      read_headed_ok hwithin (hp.symm.trans h.read_eq)
    rw [hreads.headed_eq]
    obtain ⟨_,out',q',hreads',hout,hafter⟩ := hreads.beside hbeside
    obtain ⟨d',rfl,hfollows⟩ := hout.of_some
    obtain ⟨_,hwithin'⟩ := hbeside.follows.phase.within hwithin
    have hread : q.restart.read = (.ok (some (d'.headed b,operator)),q') := by
      rw [hq,read_headed hwithin',hreads'.read_eq]
      exact Prod.ext rfl (hreads'.headed_eq b)
    obtain ⟨_,hreads''⟩ := reads_of_read hread
    exact ⟨d,d',operator,tokens,_,q',rfl,hreads,hreads'',hfollows,hafter⟩
  cases h with
  | empty h =>
    obtain ⟨_,_,_,_,_,_,hout,-⟩ := hfirst h
    cases hout
  | last h =>
    obtain ⟨d,d',operator,tokens,_,q',hout,hreads,hreads',hfollows,-⟩ := hfirst h
    cases hout
    exact ⟨d,d',none,[],[],_,tokens,_,_,rfl,hreads,.last hreads',hfollows,.nil⟩
  | closed h hmore =>
    obtain ⟨d,d',operator,tokens,_,q',hout,hreads,hreads',hfollows,hafter⟩ := hfirst h
    cases hout
    obtain ⟨_,ds,u,hline,hlinks⟩ := hmore.beside hafter h.session.2.2
    exact ⟨d,d',_,_,ds,_,tokens,_,u,rfl,hreads,.closed hreads' hline,hfollows,hlinks⟩

end Parser

end Headed

section Compiling

variable {σ : Type} {history : List Text} {c d : OpenCommand σ}
  {cs ds : List (OpenCommand σ × Option Operator)}

theorem OpenCommand.Follows.headed (h : c.Follows history d) (verb : Token) :
    (c.headed verb).Follows history (d.headed verb) where
  options_eq := h.options_eq
  tokens_alike := congrArg (verb.spelling :: ·) h.tokens_alike
  command_eq := congrArg (fun k : Command => { k with
    verb := verb.rawText
    tokens := verb :: d.command.tokens }) h.command_eq

/-- Commands that correspond compile to the same in every state, but for their tokens. -/
theorem OpenCommand.Follows.bare_compile (h : c.Follows history d) :
    Command.bare <$> d.command.compile d.options =
      Command.bare <$> c.command.compile c.options := by
  rw [h.options_eq,h.command_eq,Command.compile_congr _ _ h.tokens_alike,Functor.map_map]
  rfl

namespace Parser

theorem bare_compileAll_cons (c : OpenCommand σ × Option Operator)
    (cs : List (OpenCommand σ × Option Operator)) :
    List.map (CommandTree.Link.map Command.bare) <$> compileAll (c :: cs) = (do
      let command ← Command.bare <$> c.1.command.compile c.1.options
      let links ← List.map (CommandTree.Link.map Command.bare) <$> compileAll cs
      pure ((command,c.2) :: links)) := by
  rw [compileAll_cons]
  simp only [map_bind,map_pure,bind_map_left]
  rfl

theorem LinksFollow.bare_compileAll (h : LinksFollow history cs ds) :
    List.map (CommandTree.Link.map Command.bare) <$> Parser.compileAll ds =
      List.map (CommandTree.Link.map Command.bare) <$> Parser.compileAll cs := by
  induction h with
  | nil => rfl
  | cons hfollows _ ih => rw [bare_compileAll_cons,bare_compileAll_cons,ih,hfollows.bare_compile]

end Parser

/-- Lines whose commands compile to the same, but for their tokens, have trees that are the same
but for the tokens. -/
theorem parseLine_bare_congr {line line' : Text} {o : Options σ} {settings : Settings}
    {sub : Option History.Substitution} {tokens tokens' : List Token} {t u : Tokenizer}
    (h : (Parser.new line o settings sub).ReadsLine tokens cs t)
    (h' : (Parser.new line' o settings sub).ReadsLine tokens' ds u)
    (hall : List.map (CommandTree.Link.map Command.bare) <$> Parser.compileAll ds =
      List.map (CommandTree.Link.map Command.bare) <$> Parser.compileAll cs) {parsed : ParsedLine}
    {w w' : σ} (hparse : parseLine line o settings sub w = (.ok parsed,w')) :
    ∃ parsed', parseLine line' o settings sub w = (.ok parsed',w') ∧
      CommandTree.mapOpt Command.bare parsed'.tree =
        CommandTree.mapOpt Command.bare parsed.tree := by
  obtain ⟨links,_,hcommands,hlink,-⟩ := parseLine_ok hparse
  rw [h.commands_eq] at hcommands
  obtain rfl : (Parser.compileAll cs w).1 = links :=
    Except.ok.inj (congrArg (fun r => r.1.1) hcommands)
  obtain rfl : (Parser.compileAll cs w).2 = w' := congrArg (fun r => r.2) hcommands
  have hlinks : (Parser.compileAll ds w).1.map (CommandTree.Link.map Command.bare) =
      (Parser.compileAll cs w).1.map (CommandTree.Link.map Command.bare) :=
    congrArg (fun m => (m w).1) hall
  have hstate : (Parser.compileAll ds w).2 = (Parser.compileAll cs w).2 :=
    congrArg (fun m => (m w).2) hall
  have hcommands' : (Parser.new line' o settings sub).commands w =
      ((.ok (Parser.compileAll ds w).1,u),(Parser.compileAll cs w).2) := by
    rw [h'.commands_eq,← hstate]
    rfl
  have htree := congrArg linkLine hlinks
  rw [CommandTree.linkLine_map,CommandTree.linkLine_map,hlink] at htree
  cases hlink' : linkLine (Parser.compileAll ds w).1 with
  | error e =>
    rw [hlink'] at htree
    cases htree
  | ok tree =>
    rw [hlink'] at htree
    exact ⟨_,parseLine_commands hcommands' hlink',Except.ok.inj htree⟩

end Compiling

end Realm
