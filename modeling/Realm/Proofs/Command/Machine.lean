import Realm.Proofs.Command.Blame
import Realm.Proofs.Command.Covering

/-! The parser as a machine of loose parts: a stage, a command that may be open and a redirection
that may be pending in it. The parts can be put together in ways that make no sense, and the
machine guards against each of them. The parser never gets there, and it always stops. -/
namespace Realm

inductive Machine.Lapse where
  /-- The reader is before the end of its line, and nothing is left to read. -/
  | pastEnd
  | argumentOutsideCommand
  | redirectionOutsideCommand
  | nothingToClose
deriving DecidableEq, Repr

inductive Machine.Fault where
  | lapse (cause : Machine.Lapse)
  | error (e : Error)

def Tokenizer.nextGuarded {σ : Type} (o : Options σ) (ctx : LexContext) (t : Tokenizer) :
    Except Machine.Fault (Option Token) × Tokenizer :=
  match t.stack with
  | token :: stack => (.ok (some token),{ t with stack, previous := some token.kind })
  | [] =>
    if Text.byteSize t.source ≤ t.index then (.ok none,t)
    else
      match t.rest with
      | [] => (.error (.lapse .pastEnd),t)
      | c :: rest =>
        match dispatch o ctx t c rest with
        | (.error e,t) => (.error (.error e),t)
        | (.ok token,t) => (.ok (some token),{ t with previous := some token.kind })

namespace Machine

variable {σ : Type}

inductive Stage where
  | awaitingVerb
  | inCommand
  | awaitingRedirectTarget
  | done
deriving DecidableEq, Repr

/-- A redirection whose operator is a token of the command already. -/
structure Redirection where
  /-- Where the operator stands among the tokens of the command. -/
  place : Nat
  kind : Redirect.Kind
  target : Text
  /-- A part of the target has been read. -/
  started : Bool

structure Opened (σ : Type) extends OpenCommand σ where
  redirection : Option Redirection

def Opened.complete (c : Opened σ) : Opened σ :=
  match c.redirection with
  | none => c
  | some r =>
    { c with
      command := { c.command with
        tokens := c.command.tokens.modify r.place
          (fun t => { t with redirectTarget := some r.target })
        redirects := c.command.redirects ++ [⟨r.kind,r.target⟩] }
      redirection := none }

def Opened.take (c : Opened σ) (token : Token) : Opened σ :=
  { c with toOpenCommand := c.push token }

end Machine

structure Machine (σ : Type) where
  tokenizer : Tokenizer
  options : Options σ
  settings : Settings
  stage : Machine.Stage
  opened : Option (Machine.Opened σ)

namespace Machine

variable {σ : Type}

def new (line : Text) (options : Options σ) (settings : Settings)
    (lastSubstitution : Option History.Substitution) : Machine σ where
  tokenizer := .new line lastSubstitution
  options := options
  settings := settings
  stage := .awaitingVerb
  opened := none

/-- What the machine comes to: a command with the operator that closes it, or nothing. -/
abbrev Answer (σ : Type) :=
  Except Fault (Option (OpenCommand σ × Option Operator))

def awaitVerb (m : Machine σ) (token : Token) : Except Fault (Machine σ) :=
  match token.kind with
  | .blank | .history | .substitution => .ok m
  | _ =>
    if token.isVerb then
      .ok { m with
        stage := .inCommand
        opened := some ⟨.ofVerb m.options m.settings token,none⟩ }
    else .error (.error (unexpected m.tokenizer.source token))

/-- Take a token inside a command; an operator may close it. -/
def argument (m : Machine σ) (token : Token) : Except Fault (Machine σ × Option Operator) :=
  match m.opened with
  | none => .error (.lapse .argumentOutsideCommand)
  | some c =>
    match token.kind with
    | .history | .substitution => .ok (m,none)
    | .operator =>
      match Redirect.Kind.ofText? token.value with
      | some kind =>
        .ok ({ m with
          stage := .awaitingRedirectTarget
          opened := some ⟨c.push token,some ⟨c.command.tokens.length,kind,[],false⟩⟩ },none)
      | none =>
        if token.value = ['='] then .ok ({ m with opened := some (c.take token) },none)
        else if token.value = ['&'] then .error (.error (.parse .backgroundExecution))
        else
          match Operator.ofText? token.value with
          | some operator => .ok (m,some operator)
          | none => .error (.error (unexpected m.tokenizer.source token))
    | _ => .ok ({ m with opened := some (c.take token) },none)

/-- Take a token where a redirection wants its target. An operator behind the target is given
back to the reader. -/
def redirectTarget (m : Machine σ) (token : Token) : Except Fault (Machine σ) :=
  match m.opened with
  | none => .error (.lapse .redirectionOutsideCommand)
  | some c =>
    let started := c.redirection.any (·.started)
    match token.kind with
    | .history | .substitution => .ok m
    | .blank =>
      if started then .ok { m with stage := .inCommand, opened := some (c.complete.take token) }
      else .ok m
    | .operator =>
      if started then
        .ok { m with
          tokenizer := m.tokenizer.pushBack token
          stage := .inCommand
          opened := some c.complete }
      else .error (.error (unexpected m.tokenizer.source token))
    | _ =>
      .ok { m with opened := some { c with
        redirection := c.redirection.map fun r =>
          { r with target := r.target ++ token.rawText, started := true } } }

def close (m : Machine σ) (operator : Option Operator) : Answer σ × Machine σ :=
  match m.opened with
  | none => (.error (.lapse .nothingToClose),m)
  | some c => (.ok (some (c.toOpenCommand,operator)),{ m with opened := none })

def endOfInput (m : Machine σ) : Answer σ × Machine σ :=
  match m.stage with
  | .awaitingVerb | .done => (.ok none,{ m with stage := .done })
  | .inCommand => close { m with stage := .done } none
  | .awaitingRedirectTarget =>
    if m.opened.any (·.redirection.any (·.started)) then
      close { m with stage := .done, opened := m.opened.map Opened.complete } none
    else (.error (.error (.parse .missingRedirectTarget)),m)

inductive Turn (σ : Type) where
  | goOn (m : Machine σ)
  | stop (answer : Answer σ × Machine σ)

/-- The options by which the next token is read: a command lends its own for as long as it is
open, also where an error has left it behind. -/
def grammar (m : Machine σ) : Options σ :=
  (m.opened.map (·.options)).getD m.options

def context (m : Machine σ) : LexContext :=
  (m.opened.map (·.context)).getD {}

def takeToken (m : Machine σ) (token : Token) : Turn σ :=
  match m.stage with
  | .awaitingVerb =>
    match m.awaitVerb token with
    | .error f => .stop (.error f,m)
    | .ok m => .goOn m
  | .inCommand =>
    match m.argument token with
    | .error f => .stop (.error f,m)
    | .ok (m,none) => .goOn m
    | .ok (m,some operator) => .stop (m.close (some operator))
  | .awaitingRedirectTarget =>
    match m.redirectTarget token with
    | .error f => .stop (.error f,m)
    | .ok m => .goOn m
  | .done => .stop (.ok none,m)

def turn (m : Machine σ) : Turn σ :=
  match m.tokenizer.nextGuarded m.grammar m.context with
  | (.error f,t) => .stop (.error f,{ m with tokenizer := t })
  | (.ok none,t) => .stop (endOfInput { m with tokenizer := t })
  | (.ok (some token),t) => takeToken { m with tokenizer := t } token

section Reader

variable {o : Options σ} {ctx : LexContext} {t t' : Tokenizer} {token : Token}

theorem nextGuarded_eq (o : Options σ) (ctx : LexContext) (t : Tokenizer) :
    t.nextGuarded o ctx = ((t.next o ctx).1.mapError .error,(t.next o ctx).2) := by
  unfold Tokenizer.nextGuarded Tokenizer.next
  cases t.stack with
  | cons token stack => rfl
  | nil =>
    have hindex : Text.byteSize t.source = t.index + Text.byteSize t.rest :=
      Text.byteSize_append _ _
    cases hr : t.rest with
    | nil =>
      rw [hr] at hindex
      exact if_pos (Nat.le_of_eq hindex)
    | cons c rest =>
      have hpos := Token.byteSize_pos (List.cons_ne_nil c rest)
      rw [hr] at hindex
      dsimp only
      rw [if_neg (by omega)]
      rcases Tokenizer.dispatch o ctx t c rest with ⟨e | token,t'⟩ <;> rfl

/-- A token that is given back leaves the reader as far as it was at least. -/
theorem pushBack_remaining (h : t.next o ctx = (.ok (some token),t')) :
    Tokenizer.Fewer (t'.pushBack token).remaining t.remaining ∨
      (t'.pushBack token).remaining = t.remaining := by
  unfold Tokenizer.next at h
  split at h
  · next stack hs =>
    cases h
    right
    simp only [Tokenizer.pushBack,Tokenizer.remaining]
    rw [hs]
    rfl
  · next hs =>
    split at h
    · cases h
    · next c rest hr =>
      split at h
      · cases h
      · next token' t'' hd =>
        cases h
        have hf := Tokenizer.dispatch_fewer hr hd
        simp only [Tokenizer.pushBack,Tokenizer.remaining,Prod.lex_def,hs,List.length_nil,
          Nat.not_lt_zero,and_false,or_false] at hf ⊢
        exact .inl hf

/-- Where a token that is given back is read, the reader is as it was before. -/
theorem next_pushBack (h : t.next o ctx = (.ok (some token),t')) (o' : Options σ)
    (ctx' : LexContext) : (t'.pushBack token).next o' ctx' = (.ok (some token),t') := by
  rw [Tokenizer.next_stack (t := t'.pushBack token) rfl,← Tokenizer.previous_of_next h]
  rfl

end Reader

/-- What is left to do: a redirection can still give a token back. -/
def remaining (m : Machine σ) : (Nat × Nat × Nat) × Nat :=
  (m.tokenizer.remaining,if m.stage = .awaitingRedirectTarget then 1 else 0)

abbrev Fewer : (Nat × Nat × Nat) × Nat → (Nat × Nat × Nat) × Nat → Prop :=
  Prod.Lex Tokenizer.Fewer (· < ·)

section Turns

variable {m m' : Machine σ} {token : Token}

theorem awaitVerb_tokenizer (h : m.awaitVerb token = .ok m') : m'.tokenizer = m.tokenizer := by
  unfold awaitVerb at h
  repeat' split at h
  all_goals cases h
  all_goals rfl

theorem argument_tokenizer {operator : Option Operator}
    (h : m.argument token = .ok (m',operator)) : m'.tokenizer = m.tokenizer := by
  unfold argument at h
  repeat' split at h
  all_goals cases h
  all_goals rfl

/-- A redirection leaves the reader alone, or gives the token back and is over. -/
theorem redirectTarget_tokenizer (h : m.redirectTarget token = .ok m') :
    m'.tokenizer = m.tokenizer ∨
      m'.tokenizer = m.tokenizer.pushBack token ∧ m'.stage = .inCommand := by
  unfold redirectTarget at h
  split at h
  · cases h
  · dsimp only at h
    repeat' split at h
    all_goals cases h
    all_goals first
      | exact .inl rfl
      | exact .inr ⟨rfl,rfl⟩

theorem turn_error {e : Error} {t : Tokenizer}
    (hn : m.tokenizer.next m.grammar m.context = (.error e,t)) :
    m.turn = .stop (.error (.error e),{ m with tokenizer := t }) := by
  rw [turn,nextGuarded_eq,hn]
  rfl

theorem turn_end {t : Tokenizer} (hn : m.tokenizer.next m.grammar m.context = (.ok none,t)) :
    m.turn = .stop (endOfInput { m with tokenizer := t }) := by
  rw [turn,nextGuarded_eq,hn]
  rfl

theorem turn_token {t : Tokenizer}
    (hn : m.tokenizer.next m.grammar m.context = (.ok (some token),t)) :
    m.turn = takeToken { m with tokenizer := t } token := by
  rw [turn,nextGuarded_eq,hn]
  rfl

theorem turn_goOn (h : m.turn = .goOn m') :
    Tokenizer.Fewer m'.tokenizer.remaining m.tokenizer.remaining ∨
      m'.tokenizer.remaining = m.tokenizer.remaining ∧
        m.stage = .awaitingRedirectTarget ∧ m'.stage = .inCommand := by
  rcases hn : m.tokenizer.next m.grammar m.context with ⟨e | (_ | token),t⟩
  · rw [turn_error hn] at h
    cases h
  · rw [turn_end hn] at h
    cases h
  · have hf := Tokenizer.next_fewer hn
    rw [turn_token hn,takeToken] at h
    split at h
    · split at h
      · cases h
      · next ha =>
        cases h
        exact .inl (awaitVerb_tokenizer ha ▸ hf)
    · split at h
      · cases h
      · next ha =>
        cases h
        exact .inl (argument_tokenizer ha ▸ hf)
      · cases h
    · next hstage =>
      split at h
      · cases h
      · next hr =>
        cases h
        rcases redirectTarget_tokenizer hr with ht | ⟨ht,hs⟩
        · exact .inl (ht ▸ hf)
        · rw [ht]
          exact (pushBack_remaining hn).imp_right fun hback => ⟨hback,hstage,hs⟩
    · cases h

theorem turn_fewer (h : m.turn = .goOn m') : Fewer m'.remaining m.remaining := by
  rcases turn_goOn h with hf | ⟨heq,hs,hs'⟩
  · exact .left _ _ hf
  · rw [remaining,remaining,heq,hs',if_neg nofun,if_pos hs]
    exact .right _ Nat.one_pos

theorem turn_closes {c : OpenCommand σ} {operator : Operator}
    (h : m.turn = .stop (.ok (some (c,some operator)),m')) :
    Tokenizer.Fewer m'.tokenizer.remaining m.tokenizer.remaining := by
  rcases hn : m.tokenizer.next m.grammar m.context with ⟨e | (_ | token),t⟩
  · rw [turn_error hn] at h
    cases h
  · rw [turn_end hn] at h
    unfold endOfInput close at h
    repeat' split at h
    all_goals cases h
  · have hf := Tokenizer.next_fewer hn
    rw [turn_token hn,takeToken] at h
    split at h
    · split at h <;> cases h
    · split at h
      · cases h
      · cases h
      · next ha =>
        unfold close at h
        split at h <;> cases h
        exact argument_tokenizer ha ▸ hf
    · split at h <;> cases h
    · cases h

end Turns

def run (m : Machine σ) : Answer σ × Machine σ :=
  match _h : m.turn with
  | .goOn m => m.run
  | .stop answer => answer
termination_by m.remaining
decreasing_by exact turn_fewer _h

/-- The next command, with the operator that closes it. -/
def answer (m : Machine σ) : Answer σ × Machine σ :=
  if m.stage = .done then (.ok none,m) else run { m with stage := .awaitingVerb }

theorem run_closes {m m' : Machine σ} {c : OpenCommand σ} {operator : Operator}
    (h : m.run = (.ok (some (c,some operator)),m')) :
    Tokenizer.Fewer m'.tokenizer.remaining m.tokenizer.remaining := by
  fun_induction run m with
  | case1 m m₁ hturn ih =>
    rcases turn_goOn hturn with hf | ⟨heq,-⟩
    · exact (ih h).trans hf
    · exact heq ▸ ih h
  | case2 m answer hturn =>
    subst h
    exact turn_closes hturn

/-- A command that an operator closes brings the machine closer to the end of the line. -/
theorem answer_fewer {m m' : Machine σ} {c : OpenCommand σ} {operator : Operator}
    (h : m.answer = (.ok (some (c,some operator)),m')) :
    Tokenizer.Fewer m'.tokenizer.remaining m.tokenizer.remaining := by
  unfold answer at h
  split at h
  · cases h
  · have hf := run_closes h
    exact hf

section Simulation

/-- A command whose redirection is pending. The operator is among its tokens before the target
is read. -/
def Opened.pending (c : OpenCommand σ) (redirect : PendingRedirect) : Opened σ :=
  ⟨c.push redirect.token,some
    ⟨c.command.tokens.length,redirect.kind,redirect.target.getD [],redirect.target.isSome⟩⟩

/-- What the parts are while commands are read, told by a phase of the parser. -/
inductive Agrees : Stage → Option (Opened σ) → ParserPhase σ → Prop
  | awaitingVerb {opened : Option (Opened σ)} {abandoned : Option (OpenCommand σ)} :
    opened.map (·.options) = abandoned.map (·.options) →
    opened.map (·.context) = abandoned.map (·.context) →
    Agrees .awaitingVerb opened (.awaitingVerb abandoned)
  | inCommand {c : OpenCommand σ} : Agrees .inCommand (some ⟨c,none⟩) (.inCommand c)
  | awaitingRedirectTarget {c : OpenCommand σ} {redirect : PendingRedirect} :
    Agrees .awaitingRedirectTarget (some (.pending c redirect))
      (.awaitingRedirectTarget c redirect)

/-- A machine and a parser that are about to take the same token. -/
structure Follows (m : Machine σ) (p : Parser σ) : Prop where
  tokenizer : m.tokenizer = p.tokenizer
  options : m.options = p.options
  settings : m.settings = p.settings
  agrees : Agrees m.stage m.opened p.phase

/-- A machine and a parser that wait for the same call. -/
structure Waits (m : Machine σ) (p : Parser σ) : Prop where
  tokenizer : m.tokenizer = p.tokenizer
  options : m.options = p.options
  settings : m.settings = p.settings
  done : m.stage = .done ↔ p.phase = .done
  grammar : p.phase ≠ .done →
    m.opened.map (·.options) = p.phase.current?.map (·.options)
  context : p.phase ≠ .done →
    m.opened.map (·.context) = p.phase.current?.map (·.context)

variable {m m' : Machine σ} {p p' : Parser σ} {token : Token}

@[simp] theorem Opened.complete_pending (c : OpenCommand σ) (redirect : PendingRedirect) :
    (Opened.pending c redirect).complete = ⟨c.redirect redirect,none⟩ := by
  simp [pending,complete,OpenCommand.push,OpenCommand.redirect,List.modify_eq_take_drop]

theorem Agrees.ne_done {stage : Stage} {opened : Option (Opened σ)} {phase : ParserPhase σ}
    (h : Agrees stage opened phase) : stage ≠ .done ∧ phase ≠ .done := by
  cases h <;> exact ⟨nofun,nofun⟩

theorem not_agrees_closed {stage : Stage} {opened : Option (Opened σ)} :
    ¬ Agrees stage opened .closed := by
  intro h
  cases h

theorem Agrees.options {stage : Stage} {opened : Option (Opened σ)} {phase : ParserPhase σ}
    (h : Agrees stage opened phase) :
    opened.map (·.options) = phase.current?.map (·.options) := by
  cases h <;> first | rfl | assumption

theorem Agrees.context {stage : Stage} {opened : Option (Opened σ)} {phase : ParserPhase σ}
    (h : Agrees stage opened phase) :
    opened.map (·.context) = phase.current?.map (·.context) := by
  cases h <;> first | rfl | assumption

theorem Follows.waits (h : Follows m p) : Waits m p where
  tokenizer := h.tokenizer
  options := h.options
  settings := h.settings
  done := by simp only [h.agrees.ne_done]
  grammar _ := h.agrees.options
  context _ := h.agrees.context

theorem Waits.next_eq (h : Waits m p) (hd : p.phase ≠ .done) :
    m.tokenizer.next m.grammar m.context = p.tokenizer.next p.grammar p.context := by
  rw [Machine.grammar,Machine.context,Parser.grammar,Parser.context,h.grammar hd,h.context hd,
    h.options,h.tokenizer]

def Turn.Leads : Turn σ →
    Except Error (Option (OpenCommand σ × Option Operator)) × Parser σ → Prop
  | .goOn m, r => ∃ p, Follows m p ∧ p.read = r
  | .stop (answer,m), r => answer = r.1.mapError .error ∧ Waits m r.2

section Phases

variable {t : Tokenizer} {o : Options σ} {settings : Settings} {token : Token}

theorem waits_done {opened : Option (Opened σ)} :
    Waits ⟨t,o,settings,.done,opened⟩ ⟨t,o,settings,.done⟩ where
  tokenizer := rfl
  options := rfl
  settings := rfl
  done := iff_of_true rfl rfl
  grammar h := absurd rfl h
  context h := absurd rfl h

theorem endOfInput_leads {m : Machine σ} {p : Parser σ} (h : Follows m p)
    (hn : p.tokenizer.next p.grammar p.context = (.ok none,t)) :
    (Turn.stop (endOfInput { m with tokenizer := t })).Leads p.read := by
  obtain ⟨_,o,settings,stage,opened⟩ := m
  obtain ⟨_,_,_,phase⟩ := p
  obtain ⟨rfl,rfl,rfl,ha⟩ := h
  rw [Parser.read_eq,hn]
  dsimp only at ha ⊢
  cases ha with
  | awaitingVerb => exact ⟨rfl,waits_done⟩
  | inCommand => exact ⟨rfl,waits_done⟩
  | @awaitingRedirectTarget c redirect =>
    rw [endOfInput,Parser.atEnd]
    cases ht : redirect.target with
    | none =>
      rw [if_neg (by simp [Opened.pending,ht])]
      exact ⟨rfl,(Follows.mk rfl rfl rfl .awaitingRedirectTarget).waits⟩
    | some target =>
      rw [if_pos (by simp [Opened.pending,ht]),Option.map_some,Opened.complete_pending]
      exact ⟨rfl,waits_done⟩

theorem awaitVerb_leads {m : Machine σ} {p : Parser σ} {abandoned : Option (OpenCommand σ)}
    (h : Follows m p) (hp : p.phase = .awaitingVerb abandoned) :
    (takeToken m token).Leads (p.resume (p.stepAwaitingVerb abandoned token)) := by
  obtain ⟨t,o,settings,stage,opened⟩ := m
  obtain ⟨_,_,_,_⟩ := p
  obtain ⟨rfl,rfl,rfl,ha⟩ := h
  dsimp only at hp ha
  subst hp
  cases ha with
  | awaitingVerb ho hc =>
    have hstay : Follows ⟨t,o,settings,.awaitingVerb,opened⟩
      ⟨t,o,settings,.awaitingVerb abandoned⟩ := ⟨rfl,rfl,rfl,.awaitingVerb ho hc⟩
    unfold takeToken awaitVerb Parser.stepAwaitingVerb
    cases hk : token.kind
    case blank | history | substitution => exact ⟨_,hstay,rfl⟩
    all_goals
      cases hv : token.isVerb with
      | true => exact ⟨_,⟨rfl,rfl,rfl,.inCommand⟩,rfl⟩
      | false => exact ⟨rfl,hstay.waits⟩

theorem waits_closed {opened : Option (Opened σ)} (ho : opened = none) :
    Waits ⟨t,o,settings,.inCommand,opened⟩ ⟨t,o,settings,.closed⟩ where
  tokenizer := rfl
  options := rfl
  settings := rfl
  done := iff_of_false (fun h => by cases h) (fun h => by cases h)
  grammar _ := by rw [ho]; rfl
  context _ := by rw [ho]; rfl

theorem argument_leads {m : Machine σ} {p : Parser σ} {c : OpenCommand σ} (h : Follows m p)
    (hp : p.phase = .inCommand c) :
    (takeToken m token).Leads (p.resume (p.stepInCommand c token)) := by
  obtain ⟨t,o,settings,stage,opened⟩ := m
  obtain ⟨_,_,_,_⟩ := p
  obtain ⟨rfl,rfl,rfl,ha⟩ := h
  dsimp only at hp ha
  subst hp
  cases ha with
  | inCommand =>
    have hstay (c : OpenCommand σ) : Follows ⟨t,o,settings,.inCommand,some ⟨c,none⟩⟩
      ⟨t,o,settings,.inCommand c⟩ := ⟨rfl,rfl,rfl,.inCommand⟩
    unfold takeToken argument Parser.stepInCommand
    cases hk : token.kind
    case history | substitution => exact ⟨_,hstay c,rfl⟩
    case operator =>
      cases hr : Redirect.Kind.ofText? token.value with
      | some kind =>
        have hpending :
          Follows ⟨t,o,settings,.awaitingRedirectTarget,some (.pending c ⟨token,kind,none⟩)⟩
            ⟨t,o,settings,.awaitingRedirectTarget c ⟨token,kind,none⟩⟩ :=
          ⟨rfl,rfl,rfl,.awaitingRedirectTarget⟩
        exact ⟨_,hpending,rfl⟩
      | none =>
        by_cases hassign : token.value = ['=']
        · simp only [hassign,if_true]
          exact ⟨_,hstay _,rfl⟩
        · simp only [hassign,if_false]
          by_cases hbackground : token.value = ['&']
          · simp only [hbackground,if_true]
            exact ⟨rfl,(hstay c).waits⟩
          · simp only [hbackground,if_false]
            cases ho : Operator.ofText? token.value with
            | some operator => exact ⟨rfl,waits_closed rfl⟩
            | none => exact ⟨rfl,(hstay c).waits⟩
    all_goals exact ⟨_,hstay _,rfl⟩

theorem redirectTarget_leads {m : Machine σ} {p : Parser σ} {c : OpenCommand σ}
    {redirect : PendingRedirect} (h : Follows m p)
    (hp : p.phase = .awaitingRedirectTarget c redirect)
    (ht : redirect.target = none ∨ token.kind ≠ .blank ∧ token.kind ≠ .operator) :
    (takeToken m token).Leads (p.resume (p.stepRedirectTarget c redirect token)) := by
  obtain ⟨t,o,settings,stage,opened⟩ := m
  obtain ⟨_,_,_,_⟩ := p
  obtain ⟨rfl,rfl,rfl,ha⟩ := h
  dsimp only at hp ha
  subst hp
  cases ha with
  | awaitingRedirectTarget =>
    have hstay (redirect : PendingRedirect) :
      Follows ⟨t,o,settings,.awaitingRedirectTarget,some (.pending c redirect)⟩
        ⟨t,o,settings,.awaitingRedirectTarget c redirect⟩ := ⟨rfl,rfl,rfl,.awaitingRedirectTarget⟩
    have hwaiting (h : redirect.target = none) :
        (Opened.pending c redirect).redirection.any (·.started) = false := by
      simp [Opened.pending,h]
    unfold takeToken redirectTarget Parser.stepRedirectTarget
    cases hk : token.kind
    case history | substitution => exact ⟨_,hstay _,rfl⟩
    case blank =>
      simp only [hwaiting (ht.resolve_right fun h => h.1 hk)]
      exact ⟨_,hstay _,rfl⟩
    case operator =>
      simp only [hwaiting (ht.resolve_right fun h => h.2 hk)]
      exact ⟨rfl,(hstay _).waits⟩
    all_goals exact ⟨_,hstay { redirect with
      target := some (redirect.target.getD [] ++ token.rawText) },rfl⟩

/-- A blank or an operator ends the target of a redirection. The machine takes the blank at
once, and the operator with its next turn. -/
theorem settled_leads {m : Machine σ} {p : Parser σ} {c : OpenCommand σ}
    {redirect : PendingRedirect} (hp : p.phase = .awaitingRedirectTarget c redirect)
    (h : Follows { m with tokenizer := t } { p with tokenizer := t })
    (hn : p.tokenizer.next p.grammar p.context = (.ok (some token),t))
    (ht : redirect.target ≠ none) (hk : token.kind = .blank ∨ token.kind = .operator) :
    (takeToken { m with tokenizer := t } token).Leads p.read := by
  have hsettle : Parser.settle p.phase token = .inCommand (c.redirect redirect) := by
    rw [hp]
    exact if_pos (by simp [hk,Option.isSome_iff_ne_none.2 ht])
  have hread := Parser.read_token hn
  rw [hsettle] at hread
  obtain ⟨_,o,settings,stage,opened⟩ := m
  obtain ⟨_,_,_,_⟩ := p
  obtain ⟨-,rfl,rfl,ha⟩ := h
  dsimp only at hp ha hread
  subst hp
  cases ha with
  | awaitingRedirectTarget =>
    have hstarted : (Opened.pending c redirect).redirection.any (·.started) = true :=
      Option.isSome_iff_ne_none.2 ht
    rw [hread]
    unfold takeToken redirectTarget
    simp only [hstarted,if_true,Opened.complete_pending]
    rcases hk with hk | hk
    · simp only [hk,Parser.step,Parser.stepInCommand]
      exact ⟨_,⟨rfl,rfl,rfl,.inCommand⟩,rfl⟩
    · simp only [hk]
      have hback : Follows
          ⟨t.pushBack token,o,settings,.inCommand,some ⟨c.redirect redirect,none⟩⟩
          ⟨t.pushBack token,o,settings,.inCommand (c.redirect redirect)⟩ :=
        ⟨rfl,rfl,rfl,.inCommand⟩
      exact ⟨_,hback,Parser.read_token (next_pushBack hn _ _)⟩

end Phases

theorem turn_leads {m : Machine σ} {p : Parser σ} (h : Follows m p) : m.turn.Leads p.read := by
  have hnext := h.waits.next_eq h.agrees.ne_done.2
  have hat (t : Tokenizer) {phase : ParserPhase σ} (hp : p.phase = phase) :
      Follows { m with tokenizer := t } { p with tokenizer := t, phase } :=
    { h with tokenizer := rfl, agrees := hp ▸ h.agrees }
  rcases hn : p.tokenizer.next p.grammar p.context with ⟨e | (_ | token),t⟩
  · rw [turn_error (hnext.trans hn),Parser.read_eq,hn]
    exact ⟨rfl,(hat t rfl).waits⟩
  · rw [turn_end (hnext.trans hn)]
    exact endOfInput_leads h hn
  · rw [turn_token (hnext.trans hn)]
    cases hp : p.phase with
    | awaitingVerb abandoned =>
      rw [Parser.read_token hn,hp]
      exact awaitVerb_leads (hat t hp) rfl
    | inCommand c =>
      rw [Parser.read_token hn,hp]
      exact argument_leads (hat t hp) rfl
    | awaitingRedirectTarget c redirect =>
      by_cases hs : redirect.target ≠ none ∧ (token.kind = .blank ∨ token.kind = .operator)
      · exact settled_leads hp (hat t rfl) hn hs.1 hs.2
      · have hsettle : Parser.settle (.awaitingRedirectTarget c redirect) token =
            .awaitingRedirectTarget c redirect :=
          if_neg (by simpa [Option.isSome_iff_ne_none] using hs)
        rw [Parser.read_token hn,hp,hsettle]
        refine redirectTarget_leads (hat t hp) rfl ?_
        simpa [Decidable.or_iff_not_imp_left] using hs
    | closed => exact absurd h.agrees (hp ▸ not_agrees_closed)
    | done => exact absurd hp h.agrees.ne_done.2

theorem run_leads {m : Machine σ} {p : Parser σ} (h : Follows m p) :
    m.run.1 = p.read.1.mapError .error ∧ Waits m.run.2 p.read.2 := by
  fun_induction run m generalizing p with
  | case1 m m' hturn ih =>
    have hleads := turn_leads h
    rw [hturn] at hleads
    obtain ⟨q,hq,hread⟩ := hleads
    exact hread ▸ ih hq
  | case2 m answer hturn =>
    have hleads := turn_leads h
    rwa [hturn] at hleads

theorem Waits.follows {m : Machine σ} {p : Parser σ} (h : Waits m p) (hd : p.phase ≠ .done) :
    Follows { m with stage := .awaitingVerb } p.restart where
  tokenizer := h.tokenizer
  options := h.options
  settings := h.settings
  agrees := .awaitingVerb (h.grammar hd) (h.context hd)

end Simulation

/-- Read and compile the next command, with the operator that closes it. -/
def nextCommand (m : Machine σ) :
    StateM σ (Except Fault (Option CommandTree.Link) × Machine σ) :=
  match m.answer with
  | (.error f,m) => pure (.error f,m)
  | (.ok none,m) => pure (.ok none,m)
  | (.ok (some (c,operator)),m) => do
    let command ← c.command.compile c.options
    pure (.ok (some (command,operator)),m)

/-- The answers to so many requests for the next command. -/
def take : Nat → Machine σ → StateM σ (List (Except Fault (Option CommandTree.Link)))
  | 0, _ => pure []
  | n + 1, m => do
    let (r,m) ← m.nextCommand
    let rs ← take n m
    pure (r :: rs)

theorem answer_leads {m : Machine σ} {p : Parser σ} (h : Waits m p) (hd : p.phase ≠ .done) :
    ∃ m', m.answer = (p.restart.read.1.mapError .error,m') ∧ Waits m' p.restart.read.2 := by
  have hleads := run_leads (h.follows hd)
  rw [answer,if_neg (mt h.done.1 hd)]
  exact ⟨_,Prod.ext hleads.1 rfl,hleads.2⟩

theorem nextCommand_leads {m : Machine σ} {p : Parser σ} (h : Waits m p) (w : σ) :
    ∃ m', m.nextCommand w =
        ((((p.nextCommand w).1.1).mapError .error,m'),(p.nextCommand w).2) ∧
      Waits m' (p.nextCommand w).1.2 := by
  by_cases hd : p.phase = .done
  · rw [Parser.nextCommand_done hd,nextCommand,answer,if_pos (h.done.2 hd)]
    exact ⟨m,rfl,h⟩
  · obtain ⟨m',hanswer,hwaits⟩ := answer_leads h hd
    rw [Parser.nextCommand_eq hd,nextCommand,hanswer]
    refine ⟨m',?_⟩
    rcases hread : p.restart.read with ⟨e | (_ | ⟨c,operator⟩),q⟩
    all_goals
      rw [hread] at hwaits
      exact ⟨rfl,hwaits⟩

theorem take_leads {m : Machine σ} {p : Parser σ} (h : Waits m p) (n : Nat) (w : σ) :
    take n m w =
      ((Parser.take n p w).1.map (·.mapError .error),(Parser.take n p w).2) := by
  induction n generalizing m p w with
  | zero => rfl
  | succ n ih =>
    obtain ⟨m',hm,hwaits⟩ := nextCommand_leads h w
    simp only [take,Parser.take,bind,StateT.bind,hm,ih hwaits]
    rfl

/-- Read and compile commands up to one that no operator closes. -/
def commands (m : Machine σ) : StateM σ (Except Fault (List CommandTree.Link) × Tokenizer) :=
  match _h : m.answer with
  | (.error f,m) => pure (.error f,m.tokenizer)
  | (.ok none,m) => pure (.ok [],m.tokenizer)
  | (.ok (some (c,none)),m) => do
    let command ← c.command.compile c.options
    pure (.ok [(command,none)],m.tokenizer)
  | (.ok (some (c,some operator)),m) => do
    let command ← c.command.compile c.options
    let (rest,t) ← commands m
    pure (rest.map ((command,some operator) :: ·),t)
termination_by m.tokenizer.remaining
decreasing_by
  have hf := answer_fewer _h
  exact hf

def parseLine (line : Text) (o : Options σ) (settings : Settings)
    (lastSubstitution : Option History.Substitution) : StateM σ (Except Fault ParsedLine) := do
  let (links,t) ← (new line o settings lastSubstitution).commands
  match links.bind fun links => (linkLine links).mapError .error with
  | .error f => pure (.error f)
  | .ok tree => pure (.ok ⟨tree,t.expanded,t.printOnly,t.lastSubstitution⟩)

theorem commands_eq (m : Machine σ) :
    m.commands =
      match m.answer with
      | (.error f,m) => pure (.error f,m.tokenizer)
      | (.ok none,m) => pure (.ok [],m.tokenizer)
      | (.ok (some (c,none)),m) => (do
        let command ← c.command.compile c.options
        pure (.ok [(command,none)],m.tokenizer))
      | (.ok (some (c,some operator)),m) => (do
        let command ← c.command.compile c.options
        let (rest,t) ← commands m
        pure (rest.map ((command,some operator) :: ·),t)) := by
  rw [commands]
  split <;> next h => rw [h]

theorem commands_leads {m : Machine σ} {p : Parser σ} (h : Waits m p) (hd : p.phase ≠ .done)
    (w : σ) :
    m.commands w =
      (((p.commands w).1.1.mapError .error,(p.commands w).1.2),(p.commands w).2) := by
  induction hr : p.tokenizer.remaining using
    (WellFounded.induction (r := Tokenizer.Fewer)
      (Prod.lex Nat.lt_wfRel (Prod.lex Nat.lt_wfRel Nat.lt_wfRel)).wf) generalizing m p w with
  | _ r ih =>
    subst hr
    obtain ⟨m',hanswer,hwaits⟩ := answer_leads h hd
    rcases hread : p.restart.read with ⟨e | (_ | ⟨c,_ | operator⟩),q⟩
    all_goals rw [hread] at hanswer hwaits
    · rw [commands_eq,hanswer,Parser.commands_error hread,← hwaits.tokenizer]
      rfl
    · rw [commands_eq,hanswer,Parser.commands_none hread,← hwaits.tokenizer]
      rfl
    · rw [commands_eq,hanswer,Parser.commands_last hread,← hwaits.tokenizer]
      rfl
    · have hclosed : m.answer = (.ok (some (c,some operator)),m') := hanswer
      obtain ⟨tokens,hreads⟩ := Parser.reads_of_read hread
      have hq : q.phase ≠ .done := by rw [hreads.closed rfl]; exact nofun
      rw [commands_eq,hclosed,Parser.commands_closed hread]
      rcases hc : c.command.compile c.options w with ⟨command,w₁⟩
      have hrest := ih _ (Parser.read_fewer (p := p.restart) hread) hwaits hq w₁ rfl
      rcases hw : q.commands w₁ with ⟨⟨e | links,t⟩,w'⟩
      all_goals
        rw [hw] at hrest
        simp only [bind,StateT.bind,hc,hrest,hw]
        rfl

theorem waits_new (line : Text) (o : Options σ) (settings : Settings)
    (sub : Option History.Substitution) :
    Waits (new line o settings sub) (.new line o settings sub) where
  tokenizer := rfl
  options := rfl
  settings := rfl
  done := iff_of_false nofun nofun
  grammar _ := rfl
  context _ := rfl

theorem bind_linkLine (r : Except Error (List CommandTree.Link)) :
    ((r.mapError Fault.error).bind fun links => (linkLine links).mapError .error) =
      (r.bind linkLine).mapError .error := by
  cases r <;> rfl

theorem parseLine_leads (line : Text) (o : Options σ) (settings : Settings)
    (sub : Option History.Substitution) (w : σ) :
    parseLine line o settings sub w =
      ((Realm.parseLine line o settings sub w).1.mapError .error,
        (Realm.parseLine line o settings sub w).2) := by
  have hc := commands_leads (waits_new line o settings sub) nofun w
  unfold parseLine Realm.parseLine
  simp only [bind,StateT.bind,hc,bind_linkLine]
  rcases (Parser.new line o settings sub).commands w with ⟨⟨r,t⟩,w'⟩
  cases hr : r.bind linkLine with
  | error e => simp only [hr]; rfl
  | ok tree => simp only [hr]; rfl

/-- The faults that no line is to blame for: parts that make no sense together, and commands
that the parser should not have put in one list. -/
def Fault.Internal : Fault → Prop
  | .lapse _ => True
  | .error e => ∃ cause, e = .internal cause

theorem Fault.not_internal {e : Error} (h : e.OfLine) : ¬ (Fault.error e).Internal := by
  rintro ⟨cause,rfl⟩
  exact h

/-- The machine takes finitely many tokens to an answer, and gives finitely many commands before
the end of a line. However often it is asked, also after an error and after the end, it answers
as the parser does and has no internal fault. A whole line has none either, and the commands of
a line can be linked once the last of them has been read. -/
theorem answers_without_lapse (line : Text) (o : Options σ) (settings : Settings)
    (sub : Option History.Substitution) :
    (WellFounded fun m' m : Machine σ => m.turn = .goOn m') ∧
    (∀ n w, take n (new line o settings sub) w =
        ((Parser.take n (.new line o settings sub) w).1.map (·.mapError .error),
          (Parser.take n (.new line o settings sub) w).2) ∧
      ∀ f, .error f ∈ (take n (new line o settings sub) w).1 → ¬ f.Internal) ∧
    (WellFounded fun m' m : Machine σ =>
      ∃ c operator, m.answer = (.ok (some (c,some operator)),m')) ∧
    (∀ w, parseLine line o settings sub w =
        ((Realm.parseLine line o settings sub w).1.mapError .error,
          (Realm.parseLine line o settings sub w).2) ∧
      ∀ f, (parseLine line o settings sub w).1 = .error f → ¬ f.Internal) ∧
    ∀ w links t w', (new line o settings sub).commands w = ((.ok links,t),w') →
      (∀ l, links.getLast? = some l → l.2 = none) →
      ∃ tree, CommandTree.link links = .ok tree := by
  have hwaits := waits_new line o settings sub
  refine ⟨?turns,?calls,?commands,?lines,?links⟩
  case turns =>
    refine Subrelation.wf ?_ (InvImage.wf remaining (Prod.lex
      (Prod.lex Nat.lt_wfRel (Prod.lex Nat.lt_wfRel Nat.lt_wfRel)) Nat.lt_wfRel).wf)
    exact turn_fewer
  case calls =>
    intro n w
    have htake := take_leads hwaits n w
    refine ⟨htake,fun f hf => ?_⟩
    rw [htake] at hf
    obtain ⟨answer,hmem,hanswer⟩ := List.mem_map.1 hf
    cases answer with
    | ok => cases hanswer
    | error e =>
      cases hanswer
      exact Fault.not_internal (Parser.take_ofLine _ hmem e rfl)
  case commands =>
    refine Subrelation.wf ?_ (InvImage.wf (fun m : Machine σ => m.tokenizer.remaining)
      (Prod.lex Nat.lt_wfRel (Prod.lex Nat.lt_wfRel Nat.lt_wfRel)).wf)
    rintro m' m ⟨c,operator,h⟩
    exact answer_fewer h
  case lines =>
    intro w
    have hline := parseLine_leads line o settings sub w
    refine ⟨hline,fun f hf => ?_⟩
    rw [hline] at hf
    cases hp : (Realm.parseLine line o settings sub w).1 with
    | ok => rw [hp] at hf; cases hf
    | error e =>
      rw [hp] at hf
      cases hf
      exact Fault.not_internal (parseLine_ofLine hp)
  case links =>
    intro w links t w' h hlast
    rw [commands_leads hwaits nofun] at h
    rcases hc : (Parser.new line o settings sub).commands w with ⟨⟨e | links',t'⟩,w''⟩
    · rw [hc] at h
      cases h
    · rw [hc] at h
      cases h
      exact ⟨_,CommandTree.link_of_linkable (Parser.link_commands hc hlast)⟩

end Machine

end Realm
