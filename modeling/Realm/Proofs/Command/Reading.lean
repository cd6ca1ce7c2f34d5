import Realm.Command.Parser

/-! The parser told token by token: what a run of `read` does when the next token is known,
and a run as a list of the tokens that it takes. -/
namespace Realm

theorem Options.charAlias?_eq_none {σ : Type} {o : Options σ} {c : Char}
    (h : o.aliases.get? [c] = none) : o.charAlias? c = none := by
  unfold charAlias?
  split
  · exact h
  · rfl

namespace Tokenizer

variable {σ : Type} {o : Options σ} {ctx : LexContext} {t t' : Tokenizer} {token : Token}

theorem next_stack {stack : List Token} (hs : t.stack = token :: stack) :
    t.next o ctx = (.ok (some token),{ t with stack, previous := some token.kind }) := by
  unfold next
  rw [hs]

theorem next_none (hs : t.stack = []) (hr : t.rest = []) : t.next o ctx = (.ok none,t) := by
  unfold next
  rw [hs,hr]

theorem next_dispatch {c : Char} {rest : Text} (hs : t.stack = []) (hr : t.rest = c :: rest)
    (hd : t.dispatch o ctx c rest = (.ok token,t')) :
    t.next o ctx = (.ok (some token),{ t' with previous := some token.kind }) := by
  unfold next
  rw [hs,hr]
  simp only [hd]

theorem next_error {e : Error} {c : Char} {rest : Text} (hs : t.stack = [])
    (hr : t.rest = c :: rest) (hd : t.dispatch o ctx c rest = (.error e,t')) :
    t.next o ctx = (.error e,t') := by
  unfold next
  rw [hs,hr]
  simp only [hd]

/-- How a token comes of the character `c`, which `rest` follows. -/
inductive Dispatched (o : Options σ) (ctx : LexContext) (t : Tokenizer) (c : Char) (rest : Text) :
    Token → Tokenizer → Prop
  | replaced {line : Text} {sub : History.Substitution} :
      c = '^' ∧ t.before = [] ∧ ctx.inCommand = false ∧ t.restarted = false ∧
        o.historyLevel = .full ∧ o.history ≠ [] →
      History.quickSubstitute t.source o.history = .ok (line,sub) →
    Dispatched o ctx t c rest (t.restart line sub).1 (t.restart line sub).2
  | marked : c = '!' → Dispatched o ctx t c rest (t.token .word ['!'] 1) (t.skip 1 ['!'])
  | referred {resolved : History.Resolved} {tokens : List Token} : c = '!' →
      History.resolve o.history t.lastSubstitution t.rest = .ok resolved →
      historyTokens { o with historyLevel := .off } ctx none 0 resolved.text = .ok tokens →
    Dispatched o ctx t c rest (t.token .history resolved.text resolved.reference.length)
      { t.skip resolved.reference.length resolved.text with
        lastSubstitution := resolved.substitution.or t.lastSubstitution
        printOnly := t.printOnly || resolved.printOnly
        stack := tokens }
  | scanned {lexeme : Lexeme} : Lexeme.scan o ctx t.previous t.index c rest = .ok lexeme →
    Dispatched o ctx t c rest (t.token lexeme.kind lexeme.value lexeme.width)
      (t.skip lexeme.width (t.rest.take lexeme.width))

theorem dispatched {c : Char} {rest : Text} (h : t.dispatch o ctx c rest = (.ok token,t')) :
    Dispatched o ctx t c rest token t' := by
  unfold dispatch at h
  split at h
  · next hquick =>
    split at h
    · cases h
    · next hsub => cases h; exact .replaced hquick hsub
  · split at h
    · next hmark =>
      unfold readMark at h
      dsimp only at h
      split at h
      · cases h; exact .marked hmark.1
      · split at h
        · cases h
        · next hresolved =>
          split at h
          · cases h
          · next htokens => cases h; exact .referred hmark.1 hresolved htokens
    · split at h
      · cases h
      · next hscan => cases h; exact .scanned hscan

/-- A token that is given out has been waiting, or comes of the next character. -/
theorem next_cases (h : t.next o ctx = (.ok (some token),t')) :
    t.stack = token :: t'.stack ∧
        t' = { t with stack := t'.stack, previous := some token.kind } ∨
      ∃ c rest u, t.stack = [] ∧ t.rest = c :: rest ∧ Dispatched o ctx t c rest token u ∧
        t' = { u with previous := some token.kind } := by
  cases hs : t.stack with
  | cons s stack =>
    rw [next_stack hs] at h
    cases h
    exact .inl ⟨rfl,rfl⟩
  | nil =>
    cases hr : t.rest with
    | nil => rw [next_none hs hr] at h; cases h
    | cons c rest =>
      rcases hd : t.dispatch o ctx c rest with ⟨e | token',u⟩
      · rw [next_error hs hr hd] at h; cases h
      · rw [next_dispatch hs hr hd] at h
        cases h
        exact .inr ⟨c,rest,u,rfl,rfl,dispatched hd,rfl⟩

theorem previous_of_next (h : t.next o ctx = (.ok (some token),t')) :
    t'.previous = some token.kind := by
  rcases next_cases h with ⟨-,ht⟩ | ⟨c,rest,u,-,-,-,ht⟩ <;> rw [ht]

theorem next_ended (h : t.next o ctx = (.ok none,t')) : t' = t ∧ t.stack = [] ∧ t.rest = [] := by
  cases hs : t.stack with
  | cons s stack => rw [next_stack hs] at h; cases h
  | nil =>
    cases hr : t.rest with
    | nil =>
      rw [next_none hs hr] at h
      cases h
      exact ⟨rfl,rfl,rfl⟩
    | cons c rest =>
      rcases hd : t.dispatch o ctx c rest with ⟨e | token',u⟩
      · rw [next_error hs hr hd] at h; cases h
      · rw [next_dispatch hs hr hd] at h; cases h

/-- A reader that gives out some tokens one after the other, each by whatever grammar. -/
inductive Runs (σ : Type) : Tokenizer → List Token → Tokenizer → Prop
  | nil {t : Tokenizer} : Runs σ t [] t
  | cons {o : Options σ} {ctx : LexContext} {t u v : Tokenizer} {token : Token}
      {tokens : List Token} : t.next o ctx = (.ok (some token),u) → Runs σ u tokens v →
    Runs σ t (token :: tokens) v

theorem Runs.append {t u v : Tokenizer} {tokens more : List Token} (h : Runs σ t tokens u)
    (hmore : Runs σ u more v) : Runs σ t (tokens ++ more) v := by
  induction h with
  | nil => exact hmore
  | cons hn _ ih => exact .cons hn (ih hmore)

/-- What holds of a token that a reader gives out, in a state that is kept for as long as the
tokens have a property, holds of all of them. -/
theorem Runs.forall {I : Tokenizer → Prop} {P Q : Token → Prop}
    (hnext : ∀ (o : Options σ) (ctx : LexContext) (t t' : Tokenizer) (token : Token), I t →
      t.next o ctx = (.ok (some token),t') → P token → Q token ∧ I t')
    {t u : Tokenizer} {tokens : List Token} (h : Runs σ t tokens u) (ht : I t)
    (hP : ∀ s ∈ tokens, P s) : ∀ s ∈ tokens, Q s := by
  induction h with
  | nil => exact List.forall_mem_nil _
  | cons hn _ ih =>
    obtain ⟨htoken,hmore⟩ := List.forall_mem_cons.1 hP
    obtain ⟨hQ,hu⟩ := hnext _ _ _ _ _ ht hn htoken
    exact List.forall_mem_cons.2 ⟨hQ,ih hu hmore⟩

end Tokenizer

namespace Parser

variable {σ : Type}

def grammar (p : Parser σ) : Options σ :=
  (p.phase.current?.map (·.options)).getD p.options

def context (p : Parser σ) : LexContext :=
  (p.phase.current?.map (·.context)).getD {}

theorem read_eq (p : Parser σ) :
    p.read =
      match p.tokenizer.next p.grammar p.context with
      | (.error e,t) => (.error e,{ p with tokenizer := t })
      | (.ok none,t) =>
        match atEnd p.phase with
        | .error e => (.error e,{ p with tokenizer := t })
        | .ok c => (.ok (c.map (·,none)),{ p with tokenizer := t, phase := .done })
      | (.ok (some token),t) =>
        match step { p with tokenizer := t, phase := settle p.phase token } token with
        | .error e => (.error e,{ p with tokenizer := t, phase := settle p.phase token })
        | .ok (.goOn phase) => read { p with tokenizer := t, phase }
        | .ok (.close c operator) =>
          (.ok (some (c,some operator)),{ p with tokenizer := t, phase := .closed }) := by
  rw [read,grammar,context]
  split
  · next h => rw [h]
  · next h =>
    rw [h]
    rcases atEnd p.phase with e | _ | c <;> rfl
  · next token t h =>
    rcases hs : step { p with tokenizer := t, phase := settle p.phase token } token with
      e | ⟨phase | ⟨c,operator⟩⟩
    · simp only [h,hs]
    · simp only [h,hs]
    · simp only [h,hs]

def resume (p : Parser σ) :
    Except Error (Step σ) → Except Error (Option (OpenCommand σ × Option Operator)) × Parser σ
  | .error e => (.error e,p)
  | .ok (.goOn phase) => read { p with phase }
  | .ok (.close c operator) => (.ok (some (c,some operator)),{ p with phase := .closed })

section Steps

variable {p : Parser σ} {t : Tokenizer} {token : Token}

theorem read_token (hn : p.tokenizer.next p.grammar p.context = (.ok (some token),t)) :
    p.read = resume { p with tokenizer := t, phase := settle p.phase token }
      (step { p with tokenizer := t, phase := settle p.phase token } token) := by
  rw [read_eq,hn]
  dsimp only
  rcases step { p with tokenizer := t, phase := settle p.phase token } token with
    e | ⟨phase | ⟨c,operator⟩⟩ <;> rfl

theorem read_goesOn {phase : ParserPhase σ}
    (hn : p.tokenizer.next p.grammar p.context = (.ok (some token),t))
    (hs : step { p with tokenizer := t, phase := settle p.phase token } token =
      .ok (.goOn phase)) :
    p.read = read { p with tokenizer := t, phase } := by
  rw [read_eq,hn]
  simp only [hs]

theorem read_closes {c : OpenCommand σ} {operator : Operator}
    (hn : p.tokenizer.next p.grammar p.context = (.ok (some token),t))
    (hs : step { p with tokenizer := t, phase := settle p.phase token } token =
      .ok (.close c operator)) :
    p.read = (.ok (some (c,some operator)),{ p with tokenizer := t, phase := .closed }) := by
  rw [read_eq,hn]
  simp only [hs]

theorem read_ends {c : Option (OpenCommand σ)}
    (hn : p.tokenizer.next p.grammar p.context = (.ok none,t)) (ha : atEnd p.phase = .ok c) :
    p.read = (.ok (c.map (·,none)),{ p with tokenizer := t, phase := .done }) := by
  rw [read_eq,hn]
  simp only [ha]

end Steps

section Placing

variable {p : Parser σ} {c : OpenCommand σ} {pending : PendingRedirect} {token : Token} {s : Step σ}

inductive Placed (c : OpenCommand σ) (token : Token) : Step σ → Prop
  | skipped : token.kind = .history ∨ token.kind = .substitution →
    Placed c token (.goOn (.inCommand c))
  | pushed : token.kind ≠ .history → token.kind ≠ .substitution →
      (token.kind = .operator → token.value = ['=']) →
    Placed c token (.goOn (.inCommand (c.push token)))
  | redirects {kind : Redirect.Kind} : token.kind = .operator →
      Redirect.Kind.ofText? token.value = some kind →
    Placed c token (.goOn (.awaitingRedirectTarget c ⟨token,kind,none⟩))
  | closes {operator : Operator} : token.kind = .operator →
      Operator.ofText? token.value = some operator → Placed c token (.close c operator)

theorem stepInCommand_placed (h : p.stepInCommand c token = .ok s) : Placed c token s := by
  unfold stepInCommand at h
  split at h
  · next hk => cases h; exact .skipped (.inl hk)
  · next hk => cases h; exact .skipped (.inr hk)
  · next hk =>
    split at h
    · next hkind => cases h; exact .redirects hk hkind
    · split at h
      · next he => cases h; exact .pushed (by rw [hk]; decide) (by rw [hk]; decide) fun _ => he
      · split at h
        · cases h
        · split at h
          · next hop => cases h; exact .closes hk hop
          · cases h
  · next hhistory hsubstitution hoperator =>
    cases h
    exact .pushed hhistory hsubstitution fun hk => absurd hk hoperator

theorem step_passes (hp : p.phase = .awaitingVerb none) (hk : token.kind = .blank)
    (t : Tokenizer) :
    step { p with tokenizer := t, phase := settle p.phase token } token =
      .ok (.goOn (.awaitingVerb none)) := by
  rw [hp]
  show stepAwaitingVerb _ none token = _
  unfold stepAwaitingVerb
  rw [hk]

theorem step_opens (hp : p.phase = .awaitingVerb none) (hverb : token.isVerb = true)
    (t : Tokenizer) :
    step { p with tokenizer := t, phase := settle p.phase token } token =
      .ok (.goOn (.inCommand (.ofVerb p.options p.settings token))) := by
  rw [hp]
  show stepAwaitingVerb _ none token = _
  unfold stepAwaitingVerb
  rw [if_pos hverb]
  unfold Token.isVerb at hverb
  split <;> simp_all

theorem stepRedirectTarget_waits (h : p.stepRedirectTarget c pending token = .ok s) :
    ∃ target, s = .goOn (.awaitingRedirectTarget c { pending with target }) := by
  unfold stepRedirectTarget at h
  split at h
  · cases h; exact ⟨_,rfl⟩
  · cases h; exact ⟨_,rfl⟩
  · cases h; exact ⟨_,rfl⟩
  · cases h
  · cases h; exact ⟨_,rfl⟩

end Placing

/-- A run of `read`: the tokens that it takes in turn, what it comes to, and the parser
that is left. -/
inductive Reads : Parser σ → List Token → Option (OpenCommand σ × Option Operator) →
    Parser σ → Prop
  | ends {p : Parser σ} {t : Tokenizer} {c : Option (OpenCommand σ)} :
    p.tokenizer.next p.grammar p.context = (.ok none,t) → atEnd p.phase = .ok c →
      Reads p [] (c.map (·,none)) { p with tokenizer := t, phase := .done }
  | closes {p : Parser σ} {t : Tokenizer} {token : Token} {c : OpenCommand σ}
      {operator : Operator} :
    p.tokenizer.next p.grammar p.context = (.ok (some token),t) →
      step { p with tokenizer := t, phase := settle p.phase token } token =
        .ok (.close c operator) →
      Reads p [token] (some (c,some operator)) { p with tokenizer := t, phase := .closed }
  | goesOn {p p' : Parser σ} {t : Tokenizer} {token : Token} {phase : ParserPhase σ}
      {tokens : List Token} {out : Option (OpenCommand σ × Option Operator)} :
    p.tokenizer.next p.grammar p.context = (.ok (some token),t) →
      step { p with tokenizer := t, phase := settle p.phase token } token =
        .ok (.goOn phase) →
      Reads { p with tokenizer := t, phase } tokens out p' →
      Reads p (token :: tokens) out p'

theorem reads_of_read {p p' : Parser σ} {out : Option (OpenCommand σ × Option Operator)}
    (h : p.read = (.ok out,p')) : ∃ tokens, Reads p tokens out p' := by
  induction hr : p.tokenizer.remaining using
    (WellFounded.induction (r := Tokenizer.Fewer)
      (Prod.lex Nat.lt_wfRel (Prod.lex Nat.lt_wfRel Nat.lt_wfRel)).wf) generalizing p with
  | _ r ih =>
    subst hr
    rw [read_eq] at h
    split at h
    · cases h
    · next t hn =>
      split at h
      · cases h
      · next c ha =>
        cases h
        exact ⟨[],.ends hn ha⟩
    · next token t hn =>
      split at h
      · cases h
      · next phase hs =>
        obtain ⟨tokens,htokens⟩ := ih _ (Tokenizer.next_fewer hn) h rfl
        exact ⟨token :: tokens,.goesOn hn hs htokens⟩
      · next c operator hs =>
        cases h
        exact ⟨[token],.closes hn hs⟩

theorem Reads.read_eq {p p' : Parser σ} {tokens : List Token}
    {out : Option (OpenCommand σ × Option Operator)} (h : Reads p tokens out p') :
    p.read = (.ok out,p') := by
  induction h with
  | ends hn ha => exact read_ends hn ha
  | closes hn hs => exact read_closes hn hs
  | goesOn hn hs _ ih => exact (read_goesOn hn hs).trans ih

/-- A run changes neither the options nor the settings, and leaves no command open. -/
theorem Reads.session {p p' : Parser σ} {tokens : List Token}
    {out : Option (OpenCommand σ × Option Operator)} (h : Reads p tokens out p') :
    p'.options = p.options ∧ p'.settings = p.settings ∧ p'.phase.current? = none := by
  induction h with
  | ends => exact ⟨rfl,rfl,rfl⟩
  | closes => exact ⟨rfl,rfl,rfl⟩
  | goesOn _ _ _ ih => exact ih

theorem Reads.closed {p p' : Parser σ} {tokens : List Token}
    {out : Option (OpenCommand σ × Option Operator)} (h : Reads p tokens out p')
    {c : OpenCommand σ} {operator : Operator} (ho : out = some (c,some operator)) :
    p'.phase = .closed := by
  induction h with
  | @ends _ _ c => rcases c with _ | c <;> cases ho
  | closes => rfl
  | goesOn _ _ _ ih => exact ih ho

section Commands

variable {p p' : Parser σ} {c : OpenCommand σ}

theorem commands_last (h : p.restart.read = (.ok (some (c,none)),p')) :
    p.commands = (do
      let command ← c.command.compile c.options
      pure (.ok [(command,none)],p'.tokenizer)) := by
  rw [commands]
  split
  · next h' => rw [h] at h'; cases h'
  · next h' => rw [h] at h'; cases h'
  · next h' => rw [h] at h'; cases h'; rfl
  · next h' => rw [h] at h'; cases h'

theorem commands_closed {operator : Operator}
    (h : p.restart.read = (.ok (some (c,some operator)),p')) :
    p.commands = (do
      let command ← c.command.compile c.options
      let (rest,t) ← p'.commands
      pure (rest.map ((command,some operator) :: ·),t)) := by
  rw [commands]
  split
  · next h' => rw [h] at h'; cases h'
  · next h' => rw [h] at h'; cases h'
  · next h' => rw [h] at h'; cases h'
  · next h' => rw [h] at h'; cases h'; rfl

theorem commands_closed_fst {operator : Operator} (w : σ)
    (h : p.restart.read = (.ok (some (c,some operator)),p')) :
    ∃ command w', (p.commands w).1 =
      ((p'.commands w').1.1.map ((command,some operator) :: ·),(p'.commands w').1.2) := by
  rw [commands_closed h]
  exact ⟨(c.command.compile c.options w).1,(c.command.compile c.options w).2,rfl⟩

theorem commands_error {e : Error} (h : p.restart.read = (.error e,p')) :
    p.commands = pure (.error e,p'.tokenizer) := by
  rw [commands]
  split
  · next h' => rw [h] at h'; cases h'; rfl
  · next h' => rw [h] at h'; cases h'
  · next h' => rw [h] at h'; cases h'
  · next h' => rw [h] at h'; cases h'

theorem commands_none (h : p.restart.read = (.ok none,p')) :
    p.commands = pure (.ok [],p'.tokenizer) := by
  rw [commands]
  split
  · next h' => rw [h] at h'; cases h'
  · next h' => rw [h] at h'; cases h'; rfl
  · next h' => rw [h] at h'; cases h'
  · next h' => rw [h] at h'; cases h'

theorem commands_ok {links : List CommandTree.Link} {t : Tokenizer} {w w' : σ}
    (h : p.commands w = ((.ok links,t),w')) :
    (∃ p', p.restart.read = (.ok none,p') ∧ links = [] ∧ t = p'.tokenizer) ∨
      ∃ c operator p' rest, p.restart.read = (.ok (some (c,operator)),p') ∧
        links = ((c.command.compile c.options w).1,operator) :: rest ∧
        (operator = none ∧ rest = [] ∧ t = p'.tokenizer ∨ operator ≠ none ∧
          p'.commands (c.command.compile c.options w).2 = ((.ok rest,t),w')) := by
  cases hr : p.restart.read with
  | mk answer p' =>
    match answer, hr with
    | .error e, hr =>
      rw [commands_error hr] at h
      cases h
    | .ok none, hr =>
      rw [commands_none hr] at h
      cases h
      exact .inl ⟨p',rfl,rfl,rfl⟩
    | .ok (some (c,none)), hr =>
      rw [commands_last hr] at h
      cases h
      exact .inr ⟨c,none,p',[],rfl,rfl,.inl ⟨rfl,rfl,rfl⟩⟩
    | .ok (some (c,some operator)), hr =>
      rw [commands_closed hr] at h
      cases hc : c.command.compile c.options w with
      | mk command w₁ =>
        simp only [bind,StateT.bind,hc] at h
        cases hrest : p'.commands w₁ with
        | mk answer w₂ =>
          obtain ⟨result,t₂⟩ := answer
          rw [hrest] at h
          cases result with
          | error e => cases h
          | ok rest =>
            cases h
            exact .inr ⟨c,some operator,p',rest,rfl,by rw [hc],
              .inr ⟨nofun,by rw [hc]; exact hrest⟩⟩

/-- A line that is read to its end: the tokens, the commands with the operators behind them,
and the reader that is left. -/
inductive ReadsLine : Parser σ → List Token → List (OpenCommand σ × Option Operator) →
    Tokenizer → Prop
  | empty {p p' : Parser σ} {tokens : List Token} :
    Reads p.restart tokens none p' → ReadsLine p tokens [] p'.tokenizer
  | last {p p' : Parser σ} {tokens : List Token} {c : OpenCommand σ} :
    Reads p.restart tokens (some (c,none)) p' → ReadsLine p tokens [(c,none)] p'.tokenizer
  | closed {p p' : Parser σ} {tokens more : List Token} {c : OpenCommand σ} {operator : Operator}
      {cs : List (OpenCommand σ × Option Operator)} {t : Tokenizer} :
    Reads p.restart tokens (some (c,some operator)) p' → ReadsLine p' more cs t →
      ReadsLine p (tokens ++ more) ((c,some operator) :: cs) t

def compileAll (cs : List (OpenCommand σ × Option Operator)) :
    StateM σ (List CommandTree.Link) :=
  cs.mapM fun c => do
    let command ← c.1.command.compile c.1.options
    pure (command,c.2)

theorem compileAll_cons (c : OpenCommand σ × Option Operator)
    (cs : List (OpenCommand σ × Option Operator)) :
    compileAll (c :: cs) = (do
      let command ← c.1.command.compile c.1.options
      let links ← compileAll cs
      pure ((command,c.2) :: links)) := by
  simp only [compileAll,List.mapM_cons,bind_assoc,pure_bind]

theorem ReadsLine.commands_eq {tokens : List Token} {cs : List (OpenCommand σ × Option Operator)}
    {t : Tokenizer} (h : ReadsLine p tokens cs t) :
    p.commands = (do
      let links ← compileAll cs
      pure (.ok links,t)) := by
  induction h with
  | empty h => rw [commands_none h.read_eq]; rfl
  | last h =>
    rw [commands_last h.read_eq,compileAll_cons]
    simp only [compileAll,List.mapM_nil,bind_assoc,pure_bind]
  | closed h _ ih =>
    rw [commands_closed h.read_eq,compileAll_cons,ih]
    simp only [bind_assoc,pure_bind]
    rfl

theorem Reads.runs {tokens : List Token} {out : Option (OpenCommand σ × Option Operator)}
    (h : Reads p tokens out p') : p.tokenizer.Runs σ tokens p'.tokenizer := by
  induction h with
  | ends hn =>
    obtain ⟨rfl,-⟩ := Tokenizer.next_ended hn
    exact .nil
  | closes hn => exact .cons hn .nil
  | goesOn hn _ _ ih => exact .cons hn ih

theorem ReadsLine.runs {tokens : List Token} {cs : List (OpenCommand σ × Option Operator)}
    {t : Tokenizer} (h : ReadsLine p tokens cs t) : p.tokenizer.Runs σ tokens t := by
  induction h with
  | empty h => exact h.runs
  | last h => exact h.runs
  | closed h _ ih => exact h.runs.append ih

theorem readsLine_of_commands {links : List CommandTree.Link} {t : Tokenizer} {w w' : σ}
    (h : p.commands w = ((.ok links,t),w')) : ∃ tokens cs, ReadsLine p tokens cs t := by
  induction links generalizing p w with
  | nil =>
    rcases commands_ok h with ⟨p',hread,-,rfl⟩ | ⟨c,operator,p',rest,-,hlinks,-⟩
    · obtain ⟨tokens,hreads⟩ := reads_of_read hread
      exact ⟨tokens,[],.empty hreads⟩
    · cases hlinks
  | cons l links ih =>
    rcases commands_ok h with ⟨p',-,hlinks,-⟩ | ⟨c,operator,p',rest,hread,hlinks,htail⟩
    · cases hlinks
    · cases hlinks
      obtain ⟨tokens,hreads⟩ := reads_of_read hread
      rcases htail with ⟨rfl,-,rfl⟩ | ⟨hop,hcommands⟩
      · exact ⟨tokens,_,.last hreads⟩
      · obtain ⟨operator,rfl⟩ := Option.ne_none_iff_exists'.1 hop
        obtain ⟨more,cs,hline⟩ := ih hcommands
        exact ⟨tokens ++ more,_,.closed hreads hline⟩

theorem commands_congr {q : Parser σ} (h : p.restart.read = q.restart.read) :
    p.commands = q.commands := by
  rcases hq : q.restart.read with ⟨e | (_ | ⟨c,_ | operator⟩),q'⟩
  · rw [commands_error hq,commands_error (h.trans hq)]
  · rw [commands_none hq,commands_none (h.trans hq)]
  · rw [commands_last hq,commands_last (h.trans hq)]
  · rw [commands_closed hq,commands_closed (h.trans hq)]

theorem nextCommand_eq (hd : p.phase ≠ .done) :
    p.nextCommand =
      match p.restart.read with
      | (.error e,p') => pure (.error e,p')
      | (.ok none,p') => pure (.ok none,p')
      | (.ok (some (c,operator)),p') => (do
        let command ← c.command.compile c.options
        pure (.ok (some (command,operator)),p')) := by
  unfold nextCommand
  split
  · next h => exact absurd h hd
  · rfl

theorem nextCommand_closed {operator : Option Operator} (hd : p.phase ≠ .done)
    (h : p.restart.read = (.ok (some (c,operator)),p')) :
    p.nextCommand = (do
      let command ← c.command.compile c.options
      pure (.ok (some (command,operator)),p')) := by
  rw [nextCommand_eq hd,h]

theorem nextCommand_done (hd : p.phase = .done) : p.nextCommand = pure (.ok none,p) := by
  unfold nextCommand
  rw [hd]

/-- The answers to so many requests for the next command. -/
def take : Nat → Parser σ → StateM σ (List (Except Error (Option CommandTree.Link)))
  | 0, _ => pure []
  | n + 1, p => do
    let (r,p) ← p.nextCommand
    let rs ← take n p
    pure (r :: rs)

theorem take_succ {n : Nat} {answer : Except Error (Option CommandTree.Link)}
    {answers : List (Except Error (Option CommandTree.Link))} {w w' w'' : σ}
    (h : p.nextCommand w = ((answer,p'),w')) (hs : take n p' w' = (answers,w'')) :
    take (n + 1) p w = (answer :: answers,w'') := by
  rw [take]
  simp only [bind,StateT.bind,h,hs]
  rfl

end Commands

end Parser

theorem parseLine_commands {σ : Type} {line : Text} {o : Options σ} {settings : Settings}
    {sub : Option History.Substitution} {links : List CommandTree.Link} {t : Tokenizer}
    {tree : Option CommandTree} {w w' : σ}
    (h : (Parser.new line o settings sub).commands w = ((.ok links,t),w'))
    (hl : linkLine links = .ok tree) :
    parseLine line o settings sub w =
      (.ok ⟨tree,t.expanded,t.printOnly,t.lastSubstitution⟩,w') := by
  rw [parseLine]
  simp only [bind,StateT.bind,h,Except.bind,hl]
  rfl

theorem parseLine_last {σ : Type} {line : Text} {o : Options σ} {settings : Settings}
    {sub : Option History.Substitution} {c : OpenCommand σ} {p : Parser σ}
    (h : (Parser.new line o settings sub).restart.read = (.ok (some (c,none)),p)) (w : σ) :
    parseLine line o settings sub w =
      (.ok ⟨some (.node (c.command.compile c.options w).1 none none [] none none),p.tokenizer.expanded,
        p.tokenizer.printOnly,p.tokenizer.lastSubstitution⟩,(c.command.compile c.options w).2) := by
  have hcommands : (Parser.new line o settings sub).commands w =
      ((.ok [((c.command.compile c.options w).1,none)],p.tokenizer),
        (c.command.compile c.options w).2) := by
    rw [Parser.commands_last h]
    rfl
  exact parseLine_commands hcommands rfl

theorem parseLine_fst {σ : Type} (line : Text) (o : Options σ) (settings : Settings)
    (sub : Option History.Substitution) (w : σ) :
    (parseLine line o settings sub w).1 =
      let r := ((Parser.new line o settings sub).commands w).1
      (r.1.bind linkLine).map fun tree =>
        ⟨tree,r.2.expanded,r.2.printOnly,r.2.lastSubstitution⟩ := by
  rw [parseLine]
  simp only [bind,StateT.bind]
  rcases (Parser.new line o settings sub).commands w with ⟨⟨e | links,t⟩,w₁⟩
  · rfl
  · dsimp only [Except.bind]
    cases linkLine links <;> rfl

/-- The tree of a line is made of the commands that are read, compiled one after the other. -/
theorem Parser.ReadsLine.linked {σ : Type} {line : Text} {o : Options σ} {settings : Settings}
    {sub : Option History.Substitution} {parsed : ParsedLine} {tokens : List Token}
    {cs : List (OpenCommand σ × Option Operator)} {t : Tokenizer} {w w' : σ}
    (hline : (Parser.new line o settings sub).ReadsLine tokens cs t)
    (h : parseLine line o settings sub w = (.ok parsed,w')) :
    linkLine (compileAll cs w).1 = .ok parsed.tree := by
  have hfst := parseLine_fst line o settings sub w
  rw [h,hline.commands_eq] at hfst
  change .ok parsed = (linkLine (compileAll cs w).1).map _ at hfst
  cases hl : linkLine (compileAll cs w).1 with
  | error e => rw [hl] at hfst; cases hfst
  | ok tree =>
    rw [hl] at hfst
    cases hfst
    rfl

theorem parseLine_ok {σ : Type} {line : Text} {o : Options σ} {settings : Settings}
    {sub : Option History.Substitution} {parsed : ParsedLine} {w w' : σ}
    (h : parseLine line o settings sub w = (.ok parsed,w')) :
    ∃ links t, (Parser.new line o settings sub).commands w = ((.ok links,t),w') ∧
      linkLine links = .ok parsed.tree ∧ parsed.expanded = t.expanded ∧
      parsed.printOnly = t.printOnly := by
  rw [parseLine] at h
  simp only [bind,StateT.bind] at h
  rcases hc : (Parser.new line o settings sub).commands w with ⟨⟨e | links,t⟩,w₁⟩
  · rw [hc] at h
    cases h
  · rw [hc] at h
    dsimp only [Except.bind] at h
    cases hl : linkLine links with
    | error e => rw [hl] at h; cases h
    | ok tree =>
      rw [hl] at h
      cases h
      exact ⟨links,t,rfl,hl,rfl,rfl⟩

end Realm
