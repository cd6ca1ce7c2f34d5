import Realm.Proofs.Command.Compile
import Realm.Proofs.Command.Cutting
import Realm.Proofs.Command.Linking

/-! A line that is read again as the text of a history reference. The parser that takes its
tokens from the text goes through the same phases as the one that reads the line, and comes
to the same commands, although the tokens stand elsewhere. -/
namespace Realm

section Follow

variable {σ : Type} {history : List Text}

/-- `d` is `c` in a session with another history, with tokens of the same spelling. -/
structure OpenCommand.Follows (history : List Text) (c d : OpenCommand σ) : Prop where
  options_eq : d.options = { c.options with history }
  tokens_alike : Token.Alike c.command.tokens d.command.tokens
  command_eq : d.command = { c.command with tokens := d.command.tokens }

namespace OpenCommand.Follows

variable {c d : OpenCommand σ}

theorem push (h : c.Follows history d) {s t : Token} (hs : s.spelling = t.spelling) :
    (c.push s).Follows history (d.push t) := by
  refine ⟨h.options_eq,?_,?_⟩
  · show (c.command.tokens ++ [s]).map Token.spelling = (d.command.tokens ++ [t]).map _
    simpa [Token.Alike,hs] using h.tokens_alike
  · exact congrArg (fun k : Command => { k with tokens := d.command.tokens ++ [t] }) h.command_eq

theorem redirect (h : c.Follows history d) {pending pending' : PendingRedirect}
    (hs : pending.token.spelling = pending'.token.spelling)
    (hkind : pending.kind = pending'.kind) (htarget : pending.target = pending'.target) :
    (c.redirect pending).Follows history (d.redirect pending') := by
  have hpush := h.push (s := { pending.token with redirectTarget := some (pending.target.getD []) })
    (t := { pending'.token with redirectTarget := some (pending'.target.getD []) }) hs
  refine ⟨hpush.options_eq,hpush.tokens_alike,?_⟩
  have hcommand := congrArg (fun k : Command => { k with
    redirects := k.redirects ++ [Redirect.mk pending'.kind (pending'.target.getD [])] })
    hpush.command_eq
  unfold OpenCommand.redirect
  rw [hkind,htarget]
  exact hcommand

end OpenCommand.Follows

/-- Phases that correspond when the tokens come from the text of a reference. -/
inductive ParserPhase.Follows (history : List Text) : ParserPhase σ → ParserPhase σ → Prop
  | awaitingVerb : Follows history (.awaitingVerb none) (.awaitingVerb none)
  | inCommand {c d : OpenCommand σ} : c.Follows history d →
    Follows history (.inCommand c) (.inCommand d)
  | redirecting {c d : OpenCommand σ} {pending pending' : PendingRedirect} :
    c.Follows history d → pending.token.spelling = pending'.token.spelling →
      pending.kind = pending'.kind → pending.target = pending'.target →
      Follows history (.awaitingRedirectTarget c pending) (.awaitingRedirectTarget d pending')
  | closed : Follows history .closed .closed
  | done : Follows history .done .done

inductive Parser.Step.Follows (history : List Text) : Parser.Step σ → Parser.Step σ → Prop
  | goOn {phase phase' : ParserPhase σ} : phase.Follows history phase' →
    Follows history (.goOn phase) (.goOn phase')
  | close {c d : OpenCommand σ} {operator : Operator} : c.Follows history d →
    Follows history (.close c operator) (.close d operator)

theorem OpenCommand.opened_follows {o : Options σ} {s t : Token} {kind : Command.Kind}
    (h : s.spelling = t.spelling) :
    Follows history ⟨.opened s kind,o⟩ ⟨.opened t kind,{ o with history }⟩ := by
  refine ⟨rfl,?_,?_⟩
  · show [s].map Token.spelling = [t].map Token.spelling
    simp [h]
  · show Command.opened t kind = { Command.opened s kind with tokens := [t] }
    unfold Command.opened
    rw [Token.rawText_congr h]

theorem OpenCommand.promote_congr (o : Options σ) {s t : Token} (h : s.spelling = t.spelling) :
    (promote o s).spelling = (promote o t).spelling := by
  unfold promote
  rw [Token.kind_congr h,Token.value_congr h]
  split
  · rfl
  · exact h

theorem OpenCommand.lookupName_congr (o : Options σ) {s t : Token}
    (h : s.spelling = t.spelling) : lookupName o s = lookupName o t := by
  unfold lookupName
  rw [Token.kind_congr h,Token.value_congr h]

theorem OpenCommand.ofVerb_follows (o : Options σ) (settings : Settings) {s t : Token}
    (h : s.spelling = t.spelling) :
    (ofVerb o settings s).Follows history (ofVerb { o with history } settings t) := by
  have hpromote := promote_congr o h
  have ht : ofVerb { o with history } settings t =
      if t.kind = .variable then ⟨.opened t .expression,{ o with history }⟩
      else ofSettings { o with history } (promote o t) (settings (lookupName o (promote o t))) :=
    rfl
  rw [ofVerb_eq,ht,Token.kind_congr h,lookupName_congr o hpromote]
  split
  · exact opened_follows h
  · cases settings (lookupName o (promote o t)) with
    | none => exact opened_follows hpromote
    | some grammar => exact opened_follows hpromote

namespace Parser

variable {p q : Parser σ} {s t : Token} {u v : Tokenizer}

theorem settle_follows {phase phase' : ParserPhase σ} (h : phase.Follows history phase')
    (hs : s.spelling = t.spelling) :
    (settle phase s).Follows history (settle phase' t) := by
  cases h with
  | awaitingVerb => exact .awaitingVerb
  | inCommand h => exact .inCommand h
  | closed => exact .closed
  | done => exact .done
  | redirecting h htoken hkind htarget =>
    unfold settle
    dsimp only
    rw [Token.kind_congr hs,htarget]
    split
    · exact .inCommand (h.redirect htoken hkind htarget)
    · exact .redirecting h htoken hkind htarget

/-- Parsers of two sessions that differ in their history, and are in phases that
correspond. -/
structure Follows (history : List Text) (p q : Parser σ) : Prop where
  options_eq : q.options = { p.options with history }
  settings_eq : q.settings = p.settings
  phase : p.phase.Follows history q.phase

theorem stepAwaitingVerb_follows (ho : q.options = { p.options with history })
    (hsettings : q.settings = p.settings) (hs : s.spelling = t.spelling) {r : Step σ}
    (hstep : stepAwaitingVerb p none s = .ok r) :
    ∃ r', stepAwaitingVerb q none t = .ok r' ∧ r.Follows history r' := by
  have hverb : s.isVerb = t.isVerb := by
    unfold Token.isVerb
    rw [Token.kind_congr hs]
  have hopen : (OpenCommand.ofVerb p.options p.settings s).Follows history
      (OpenCommand.ofVerb { p.options with history } p.settings t) :=
    OpenCommand.ofVerb_follows p.options p.settings hs
  unfold stepAwaitingVerb at hstep ⊢
  rw [Token.kind_congr hs,hverb] at hstep
  rw [ho,hsettings]
  split at hstep
  · cases hstep; exact ⟨_,rfl,.goOn .awaitingVerb⟩
  · cases hstep; exact ⟨_,rfl,.goOn .awaitingVerb⟩
  · cases hstep; exact ⟨_,rfl,.goOn .awaitingVerb⟩
  · split at hstep
    · next hv =>
      cases hstep
      rw [if_pos hv]
      exact ⟨_,rfl,.goOn (.inCommand hopen)⟩
    · cases hstep

theorem stepInCommand_follows {c d : OpenCommand σ} (h : c.Follows history d)
    (hs : s.spelling = t.spelling) {r : Step σ} (hstep : stepInCommand p c s = .ok r) :
    ∃ r', stepInCommand q d t = .ok r' ∧ r.Follows history r' := by
  unfold stepInCommand at hstep ⊢
  rw [Token.kind_congr hs,Token.value_congr hs] at hstep
  split at hstep
  · cases hstep; exact ⟨_,rfl,.goOn (.inCommand h)⟩
  · cases hstep; exact ⟨_,rfl,.goOn (.inCommand h)⟩
  · split at hstep
    · cases hstep
      exact ⟨_,rfl,.goOn (.redirecting h hs rfl rfl)⟩
    · split at hstep
      · next heq =>
        cases hstep
        rw [if_pos heq]
        exact ⟨_,rfl,.goOn (.inCommand (h.push hs))⟩
      · next hne =>
        split at hstep
        · cases hstep
        · next hbg =>
          split at hstep
          · cases hstep
            rw [if_neg hne,if_neg hbg]
            exact ⟨_,rfl,.close h⟩
          · cases hstep
  · cases hstep; exact ⟨_,rfl,.goOn (.inCommand (h.push hs))⟩

theorem stepRedirectTarget_follows {c d : OpenCommand σ} {pending pending' : PendingRedirect}
    (h : c.Follows history d) (htoken : pending.token.spelling = pending'.token.spelling)
    (hkind : pending.kind = pending'.kind) (htarget : pending.target = pending'.target)
    (hs : s.spelling = t.spelling) {r : Step σ}
    (hstep : stepRedirectTarget p c pending s = .ok r) :
    ∃ r', stepRedirectTarget q d pending' t = .ok r' ∧ r.Follows history r' := by
  unfold stepRedirectTarget at hstep ⊢
  rw [Token.kind_congr hs,Token.rawText_congr hs] at hstep
  split at hstep
  · cases hstep; exact ⟨_,rfl,.goOn (.redirecting h htoken hkind htarget)⟩
  · cases hstep; exact ⟨_,rfl,.goOn (.redirecting h htoken hkind htarget)⟩
  · cases hstep; exact ⟨_,rfl,.goOn (.redirecting h htoken hkind htarget)⟩
  · cases hstep
  · cases hstep
    exact ⟨_,rfl,.goOn (.redirecting h htoken hkind (by rw [htarget]))⟩

/-- Tokens of one spelling lead from phases that correspond to phases that correspond. -/
theorem step_follows (h : p.Follows history q) (hs : s.spelling = t.spelling) {r : Step σ}
    (hstep : step { p with tokenizer := u, phase := settle p.phase s } s = .ok r) :
    ∃ r', step { q with tokenizer := v, phase := settle q.phase t } t = .ok r' ∧
      r.Follows history r' := by
  have hphase := settle_follows h.phase hs
  generalize settle p.phase s = phase at hphase hstep
  generalize settle q.phase t = phase' at hphase
  cases hphase with
  | awaitingVerb =>
    exact stepAwaitingVerb_follows (p := { p with tokenizer := u, phase := .awaitingVerb none })
      (q := { q with tokenizer := v, phase := .awaitingVerb none }) h.options_eq h.settings_eq
      hs hstep
  | closed =>
    exact stepAwaitingVerb_follows (p := { p with tokenizer := u, phase := .closed })
      (q := { q with tokenizer := v, phase := .closed }) h.options_eq h.settings_eq
      hs hstep
  | done =>
    exact stepAwaitingVerb_follows (p := { p with tokenizer := u, phase := .done })
      (q := { q with tokenizer := v, phase := .done }) h.options_eq h.settings_eq
      hs hstep
  | inCommand hc => exact stepInCommand_follows hc hs hstep
  | redirecting hc htoken hkind htarget =>
    exact stepRedirectTarget_follows hc htoken hkind htarget hs hstep

theorem atEnd_follows {phase phase' : ParserPhase σ} (h : phase.Follows history phase')
    {c : Option (OpenCommand σ)} (ha : atEnd phase = .ok c) :
    ∃ d, atEnd phase' = .ok d ∧ d.isSome = c.isSome ∧
      ∀ e, c = some e → ∃ e', d = some e' ∧ e.Follows history e' := by
  cases h with
  | awaitingVerb => cases ha; exact ⟨none,rfl,rfl,fun _ he => by cases he⟩
  | closed => cases ha; exact ⟨none,rfl,rfl,fun _ he => by cases he⟩
  | done => cases ha; exact ⟨none,rfl,rfl,fun _ he => by cases he⟩
  | @inCommand c d h =>
    cases ha
    refine ⟨some d,rfl,rfl,fun e he => ?_⟩
    cases he
    exact ⟨d,rfl,h⟩
  | @redirecting c d pending pending' h htoken hkind htarget =>
    cases ht : pending.target with
    | none =>
      simp only [atEnd,ht] at ha
      cases ha
    | some target =>
      simp only [atEnd,ht] at ha
      cases ha
      refine ⟨some (d.redirect pending'),?_,rfl,fun e he => ?_⟩
      · simp only [atEnd,← htarget,ht]
      · cases he
        exact ⟨_,rfl,h.redirect htoken hkind htarget⟩

/-- Readers that have come past the same text and differ in the tokens that wait. -/
structure SameText (u v : Tokenizer) : Prop where
  rest_eq : v.rest = u.rest
  expanded_eq : v.expanded = u.expanded
  printOnly_eq : v.printOnly = u.printOnly
  substitution_eq : v.lastSubstitution = u.lastSubstitution

theorem SameText.trans {u v w : Tokenizer} (h : SameText u v) (h' : SameText v w) :
    SameText u w :=
  ⟨h'.rest_eq.trans h.rest_eq,h'.expanded_eq.trans h.expanded_eq,
    h'.printOnly_eq.trans h.printOnly_eq,h'.substitution_eq.trans h.substitution_eq⟩

/-- What a run comes to when the tokens wait on the stack. -/
structure Replayed (history : List Text) (p q : Parser σ)
    (out out' : Option (OpenCommand σ × Option Operator)) (before after : Tokenizer)
    (more : List Token) : Prop where
  follows : p.Follows history q
  out_isSome : out'.isSome = out.isSome
  out_follows : ∀ c operator, out = some (c,operator) →
    ∃ d, out' = some (d,operator) ∧ c.Follows history d
  stack_eq : after.stack = more
  sameText : SameText before after

theorem Reads.replay {p' : Parser σ} {tokens tokens' more : List Token}
    {out : Option (OpenCommand σ × Option Operator)} (h : Reads p tokens out p')
    (hpq : p.Follows history q) (halike : Token.Alike tokens tokens')
    (hstack : q.tokenizer.stack = tokens' ++ more) (hrest : q.tokenizer.rest = [])
    (hmore : (∀ c operator, out ≠ some (c,some operator)) → more = []) :
    ∃ out' q', Reads q tokens' out' q' ∧
      Replayed history p' q' out out' q.tokenizer q'.tokenizer more := by
  induction h generalizing q tokens' with
  | @ends p t c hn ha =>
    cases tokens' with
    | cons t' ts' => cases halike
    | nil =>
      have hnil : more = [] := hmore (by cases c <;> simp)
      subst hnil
      obtain ⟨d,ha',hsome,hfollows⟩ := atEnd_follows hpq.phase ha
      refine ⟨_,_,.ends (Tokenizer.next_none hstack hrest) ha',
        ⟨hpq.options_eq,hpq.settings_eq,.done⟩,?_,?_,hstack,⟨rfl,rfl,rfl,rfl⟩⟩
      · simp [hsome]
      · intro e operator he
        obtain ⟨e',hc,he⟩ := Option.map_eq_some_iff.1 he
        cases he
        obtain ⟨d',hd,hf⟩ := hfollows e hc
        exact ⟨d',by rw [hd]; rfl,hf⟩
  | @closes p t token c operator hn hs =>
    cases tokens' with
    | nil => cases halike
    | cons token' tokens' =>
      obtain ⟨hs',halike⟩ := List.cons.inj halike
      cases tokens' with
      | cons t' ts' => cases halike
      | nil =>
        have hn' : q.tokenizer.next q.grammar q.context = _ := Tokenizer.next_stack hstack
        obtain ⟨r',hstep,hr⟩ := step_follows hpq hs' hs
        cases hr with
        | close hf =>
          refine ⟨_,_,.closes hn' hstep,⟨hpq.options_eq,hpq.settings_eq,.closed⟩,rfl,?_,rfl,
            ⟨rfl,rfl,rfl,rfl⟩⟩
          rintro e _ ⟨⟩
          exact ⟨_,rfl,hf⟩
  | @goesOn p p' t token phase tokens out hn hs _ ih =>
    cases tokens' with
    | nil => cases halike
    | cons token' tokens' =>
      obtain ⟨hs',halike⟩ := List.cons.inj halike
      have hn' : q.tokenizer.next q.grammar q.context = _ := Tokenizer.next_stack hstack
      obtain ⟨r',hstep,hr⟩ := step_follows hpq hs' hs
      cases hr with
      | @goOn _ phase' hf =>
        let u : Tokenizer :=
          { q.tokenizer with stack := tokens' ++ more, previous := some token'.kind }
        have hpq' : Follows history { p with tokenizer := t, phase }
            { q with tokenizer := u, phase := phase' } := ⟨hpq.options_eq,hpq.settings_eq,hf⟩
        obtain ⟨out',q',hreads,hrep⟩ := ih hpq' halike rfl hrest hmore
        refine ⟨out',q',.goesOn hn' hstep hreads,hrep.follows,hrep.out_isSome,
          hrep.out_follows,hrep.stack_eq,?_⟩
        have hsame : SameText q.tokenizer u := ⟨rfl,rfl,rfl,rfl⟩
        exact hsame.trans hrep.sameText

theorem restart_follows (hp : p.phase.current? = none) (hq : q.phase.current? = none)
    (hoptions : q.options = { p.options with history }) (hsettings : q.settings = p.settings) :
    p.restart.Follows history q.restart := by
  refine ⟨hoptions,hsettings,?_⟩
  rw [(restart_between hp).2,(restart_between hq).2]
  exact .awaitingVerb

/-- Commands that correspond, with the same operators behind them. -/
inductive LinksFollow (history : List Text) : List (OpenCommand σ × Option Operator) →
    List (OpenCommand σ × Option Operator) → Prop
  | nil : LinksFollow history [] []
  | cons {c d : OpenCommand σ} {operator : Option Operator}
      {cs ds : List (OpenCommand σ × Option Operator)} :
    c.Follows history d → LinksFollow history cs ds →
      LinksFollow history ((c,operator) :: cs) ((d,operator) :: ds)

theorem ReadsLine.replay {tokens tokens' : List Token} {t : Tokenizer}
    {cs : List (OpenCommand σ × Option Operator)} (h : ReadsLine p tokens cs t)
    (hp : p.phase.current? = none) (hq : q.phase.current? = none)
    (hoptions : q.options = { p.options with history }) (hsettings : q.settings = p.settings)
    (halike : Token.Alike tokens tokens') (hstack : q.tokenizer.stack = tokens')
    (hrest : q.tokenizer.rest = []) :
    ∃ ds t', ReadsLine q tokens' ds t' ∧ LinksFollow history cs ds ∧ SameText q.tokenizer t' := by
  induction h generalizing q tokens' with
  | @empty p p' tokens h =>
    obtain ⟨out',q',hreads,hrep⟩ := h.replay (restart_follows hp hq hoptions hsettings) halike
      (hstack.trans (List.append_nil _).symm) hrest fun _ => rfl
    cases out' with
    | some out' => cases hrep.out_isSome
    | none => exact ⟨[],_,.empty hreads,.nil,hrep.sameText⟩
  | @last p p' tokens c h =>
    obtain ⟨out',q',hreads,hrep⟩ := h.replay (restart_follows hp hq hoptions hsettings) halike
      (hstack.trans (List.append_nil _).symm) hrest fun _ => rfl
    obtain ⟨d,rfl,hd⟩ := hrep.out_follows c none rfl
    exact ⟨[(d,none)],_,.last hreads,.cons hd .nil,hrep.sameText⟩
  | @closed p p' tokens more c operator cs t h _ ih =>
    obtain ⟨first,second,rfl,hfirst,hsecond⟩ := halike.of_append
    obtain ⟨out',q',hreads,hrep⟩ := h.replay (restart_follows hp hq hoptions hsettings) hfirst
      hstack hrest fun hne => absurd rfl (hne c operator)
    obtain ⟨d,rfl,hd⟩ := hrep.out_follows c (some operator) rfl
    obtain ⟨hq₁,hq₂,hq₃⟩ := hreads.session
    obtain ⟨hp₁,hp₂,hp₃⟩ := h.session
    have ho : q'.options = { p'.options with history } := by
      rw [hq₁,hp₁]
      exact hoptions
    have hs : q'.settings = p'.settings := by
      rw [hq₂,hp₂]
      exact hsettings
    obtain ⟨ds,t',hline,hfollow,hsame⟩ := ih hp₃ hq₃ ho hs hsecond hrep.stack_eq
      (hrep.sameText.rest_eq.trans hrest)
    exact ⟨(d,some operator) :: ds,t',.closed hreads hline,.cons hd hfollow,
      hrep.sameText.trans hsame⟩

/-- A run that takes its tokens from those in waiting leaves those behind them. -/
theorem Reads.stack_eq {p' : Parser σ} {tokens : List Token}
    {out : Option (OpenCommand σ × Option Operator)} (h : Reads p tokens out p')
    (hrest : p.tokenizer.rest = []) :
    p.tokenizer.stack = tokens ++ p'.tokenizer.stack ∧ p'.tokenizer.rest = [] ∧
      ((∀ c operator, out ≠ some (c,some operator)) → p'.tokenizer.stack = []) := by
  have hnext {p : Parser σ} {t : Tokenizer} {token : Token} (hrest : p.tokenizer.rest = [])
      (hn : p.tokenizer.next p.grammar p.context = (.ok (some token),t)) :
      p.tokenizer.stack = token :: t.stack ∧ t.rest = [] := by
    cases hs : p.tokenizer.stack with
    | nil => rw [Tokenizer.next_none hs hrest] at hn; cases hn
    | cons token' stack =>
      rw [Tokenizer.next_stack hs] at hn
      cases hn
      exact ⟨rfl,hrest⟩
  induction h with
  | @ends p t c hn _ =>
    cases hs : p.tokenizer.stack with
    | cons token stack => rw [Tokenizer.next_stack hs] at hn; cases hn
    | nil =>
      rw [Tokenizer.next_none hs hrest] at hn
      cases hn
      exact ⟨hs.symm,hrest,fun _ => hs⟩
  | @closes p t token c operator hn _ =>
    obtain ⟨hs,hr⟩ := hnext hrest hn
    exact ⟨hs,hr,fun hne => absurd rfl (hne c operator)⟩
  | @goesOn p p' t token phase tokens out hn _ _ ih =>
    obtain ⟨hs,hr⟩ := hnext hrest hn
    obtain ⟨hs',hr',hend⟩ := ih hr
    exact ⟨hs.trans (congrArg (token :: ·) hs'),hr',hend⟩

theorem ReadsLine.stack_eq {tokens : List Token} {t : Tokenizer}
    {cs : List (OpenCommand σ × Option Operator)} (h : ReadsLine p tokens cs t)
    (hrest : p.tokenizer.rest = []) : p.tokenizer.stack = tokens := by
  induction h with
  | @empty p p' tokens h =>
    obtain ⟨hs,-,hend⟩ := h.stack_eq hrest
    have hnil := hend fun _ _ he => by cases he
    rw [hnil,List.append_nil] at hs
    exact hs
  | @last p p' tokens c h =>
    obtain ⟨hs,-,hend⟩ := h.stack_eq hrest
    have hnil := hend fun _ _ he => by cases he
    rw [hnil,List.append_nil] at hs
    exact hs
  | @closed p p' tokens more c operator cs t h _ ih =>
    obtain ⟨hs,hr,-⟩ := h.stack_eq hrest
    exact hs.trans (congrArg _ (ih hr))

end Parser

/-- A command without its tokens: what it does, and not how it was written. -/
def Command.bare (c : Command) : Command :=
  { c with tokens := [] }

theorem OpenCommand.Follows.compile {c d : OpenCommand σ} (h : c.Follows history d)
    (hplain : c.options.IsPlain) :
    ∃ k k', c.command.compile c.options = pure k ∧ d.command.compile d.options = pure k' ∧
      k'.bare = k.bare := by
  obtain ⟨k,hk⟩ := hplain.compile c.command
  refine ⟨k,{ k with tokens := d.command.tokens },hk,?_,rfl⟩
  rw [h.options_eq,h.command_eq,Command.compile_congr _ _ h.tokens_alike,hk]
  rfl

namespace Parser

variable {p : Parser σ} {cs ds : List (OpenCommand σ × Option Operator)}

theorem ReadsLine.isPlain {tokens : List Token} {t : Tokenizer} (h : ReadsLine p tokens cs t)
    (hp : p.phase.current? = none) (hplain : p.options.IsPlain) :
    ∀ c ∈ cs, c.1.options.IsPlain := by
  intro c hc
  obtain ⟨verb,-,hgrows⟩ := h.opened hp c hc
  obtain ⟨grammar,hgrammar,-⟩ := OpenCommand.ofVerb_grammar p.options p.settings verb
  rw [hgrows.options_eq,hgrammar]
  exact hplain

/-- Compiling leaves alone what is not said of the verb and the arguments. -/
theorem compileAll_keeps {P : Command → Option Operator → Prop}
    (hP : ∀ (k : Command) verb args globArgs operator,
      P { k with verb, args, globArgs } operator ↔ P k operator)
    (cs : List (OpenCommand σ × Option Operator)) (w : σ) :
    (∀ l ∈ (compileAll cs w).1, P l.1 l.2) ↔ ∀ c ∈ cs, P c.1.command c.2 := by
  induction cs generalizing w with
  | nil => exact ⟨fun _ _ hc => (List.not_mem_nil hc).elim,fun _ _ hl => (List.not_mem_nil hl).elim⟩
  | cons c cs ih =>
    obtain ⟨verb,args,globArgs,hk⟩ := Command.compile_keeps c.1.options c.1.command w
    have hlinks : (compileAll (c :: cs) w).1 =
        ((c.1.command.compile c.1.options w).1,c.2) ::
          (compileAll cs (c.1.command.compile c.1.options w).2).1 := by
      rw [compileAll_cons]
      rfl
    rw [hlinks,List.forall_mem_cons,List.forall_mem_cons,ih,hk,hP]

theorem compileAll_tail (cs : List (OpenCommand σ × Option Operator)) (w : σ) :
    ∃ w', (compileAll cs w).1.tail = (compileAll cs.tail w').1 := by
  cases cs with
  | nil => exact ⟨w,rfl⟩
  | cons c cs =>
    refine ⟨(c.1.command.compile c.1.options w).2,?_⟩
    rw [compileAll_cons]
    rfl

theorem LinksFollow.compileAll (h : LinksFollow history cs ds)
    (hplain : ∀ c ∈ cs, c.1.options.IsPlain) :
    ∃ links links', Parser.compileAll cs = pure links ∧ Parser.compileAll ds = pure links' ∧
      links'.map (CommandTree.Link.map Command.bare) =
        links.map (CommandTree.Link.map Command.bare) := by
  induction h with
  | nil => exact ⟨[],[],rfl,rfl,rfl⟩
  | @cons c d operator cs ds hfollows _ ih =>
    obtain ⟨k,k',hk,hk',hbare⟩ := hfollows.compile (hplain _ (.head _))
    obtain ⟨links,links',hlinks,hlinks',hmap⟩ := ih fun c hc => hplain c (.tail _ hc)
    refine ⟨(k,operator) :: links,(k',operator) :: links',?_,?_,?_⟩
    · rw [compileAll_cons,hk,hlinks]
      rfl
    · rw [compileAll_cons,hk',hlinks']
      rfl
    · rw [List.map_cons,List.map_cons,hmap]
      exact congrArg (fun b : Command => (b,operator) :: _) hbare

/-- What the commands of a line come to when they are read again from tokens of the same
spelling. -/
theorem ReadsLine.commands_replay {q : Parser σ} {tokens tokens' : List Token} {t : Tokenizer}
    (h : ReadsLine p tokens cs t) (hplain : p.options.IsPlain) (hp : p.phase.current? = none)
    (hq : q.phase.current? = none) (hoptions : q.options = { p.options with history })
    (hsettings : q.settings = p.settings) (halike : Token.Alike tokens tokens')
    (hstack : q.tokenizer.stack = tokens') (hrest : q.tokenizer.rest = []) :
    ∃ links links' t', (∀ w, p.commands w = ((.ok links,t),w)) ∧
      (∀ w, q.commands w = ((.ok links',t'),w)) ∧ SameText q.tokenizer t' ∧
      links'.map (CommandTree.Link.map Command.bare) =
        links.map (CommandTree.Link.map Command.bare) := by
  obtain ⟨ds,t',hline,hfollow,hsame⟩ := h.replay hp hq hoptions hsettings halike hstack hrest
  obtain ⟨links,links',hlinks,hlinks',hmap⟩ := hfollow.compileAll (h.isPlain hp hplain)
  refine ⟨links,links',t',fun w => ?_,fun w => ?_,hsame,hmap⟩
  · rw [h.commands_eq,hlinks]
    rfl
  · rw [hline.commands_eq,hlinks']
    rfl

/-- A line that is read again from tokens of the same spelling comes to the same tree, but for
the tokens of its commands. -/
theorem ReadsLine.tree_replay {q : Parser σ} {tokens tokens' : List Token} {t : Tokenizer}
    (h : ReadsLine p tokens cs t) (hplain : p.options.IsPlain) (hp : p.phase.current? = none)
    (hq : q.phase.current? = none) (hoptions : q.options = { p.options with history })
    (hsettings : q.settings = p.settings) (halike : Token.Alike tokens tokens')
    (hstack : q.tokenizer.stack = tokens') (hrest : q.tokenizer.rest = [])
    {links : List CommandTree.Link} {w w' : σ} (hcommands : p.commands w = ((.ok links,t),w'))
    {tree : CommandTree} (hlink : linkLine links = .ok (some tree)) :
    ∃ links' tree' t', (∀ w, q.commands w = ((.ok links',t'),w)) ∧ SameText q.tokenizer t' ∧
      linkLine links' = .ok (some tree') ∧
      tree'.map Command.bare = tree.map Command.bare := by
  obtain ⟨links₁,links',t',hread,hagain,hsame,hmap⟩ :=
    h.commands_replay hplain hp hq hoptions hsettings halike hstack hrest
  rw [hread w] at hcommands
  cases hcommands
  obtain ⟨tree',hlink',hbare⟩ := CommandTree.linkLine_congr Command.bare hmap hlink
  exact ⟨links',tree',t',hagain,hsame,hlink',hbare⟩

end Parser

end Follow

end Realm
