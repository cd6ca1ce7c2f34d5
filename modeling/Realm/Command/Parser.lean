import Realm.Command.Compile
import Realm.Command.Link
import Realm.Tokenizer

/-! The parser of command lines. It reads tokens by the grammar of the command that is
open, so that a verb with a grammar of its own makes plain text of operators in the rest
of its arguments. -/
namespace Realm

/-- A command that is being read, with the options of its verb. -/
structure OpenCommand (σ : Type) where
  command : Command
  options : Options σ

/-- A redirection whose file is being read; the target is there once a part of it is. -/
structure PendingRedirect where
  token : Token
  kind : Redirect.Kind
  target : Option Text

inductive ParserPhase (σ : Type) where
  /-- Between commands. A command that was given up after an error still lends its
  grammar to the tokens before the next verb. -/
  | awaitingVerb (abandoned : Option (OpenCommand σ))
  | inCommand (current : OpenCommand σ)
  | awaitingRedirectTarget (current : OpenCommand σ) (pending : PendingRedirect)
  /-- An operator has closed a command, so that another is due. -/
  | closed
  | done

/-- A parser in the middle of a line. -/
structure Parser (σ : Type) where
  tokenizer : Tokenizer
  options : Options σ
  settings : Settings
  phase : ParserPhase σ

namespace ParserPhase

variable {σ : Type}

/-- The command that has been opened last and not closed. -/
def current? : ParserPhase σ → Option (OpenCommand σ)
  | awaitingVerb abandoned => abandoned
  | inCommand current => some current
  | awaitingRedirectTarget current _ => some current
  | closed | done => none

end ParserPhase

namespace OpenCommand

variable {σ : Type}

def push (c : OpenCommand σ) (token : Token) : OpenCommand σ :=
  { c with command := { c.command with tokens := c.command.tokens ++ [token] } }

def redirect (c : OpenCommand σ) (pending : PendingRedirect) : OpenCommand σ :=
  let target := pending.target.getD []
  let c := c.push { pending.token with redirectTarget := some target }
  { c with command :=
    { c.command with redirects := c.command.redirects ++ [⟨pending.kind,target⟩] } }

def context (c : OpenCommand σ) : LexContext where
  inCommand := true
  expression := c.command.kind = .expression

/-- The name under which settings are looked up: an alias stands for the verb that its
template begins with. -/
def lookupName (o : Options σ) (token : Token) : Text :=
  if token.kind = .alias then
    match (o.aliases.get? token.value).bind fun t => (Text.words t).head? with
    | some verb => verb
    | none => token.value
  else token.value

def ofVerb (o : Options σ) (settings : Settings) (token : Token) : OpenCommand σ :=
  if token.kind = .variable then ⟨.opened token .expression,o⟩
  else
    let token :=
      if token.kind = .word && o.expandAliases && o.aliases.contains token.value then
        { token with kind := .alias }
      else token
    match settings (lookupName o token) with
    | some grammar => ⟨.opened token .shell,o.forCommand grammar⟩
    | none => ⟨.opened token .game,o⟩

end OpenCommand

def unexpected (source : Text) (token : Token) : Error :=
  match token.source with
  | .input =>
    .parse (.unexpectedToken token.rawText (some (Position.ofOffset source token.start)))
  | .history => .parse (.unexpectedToken token.rawText none)

namespace Parser

variable {σ : Type}

def new (line : Text) (options : Options σ) (settings : Settings)
    (lastSubstitution : Option History.Substitution) : Parser σ where
  tokenizer := .new line lastSubstitution
  options := options
  settings := settings
  phase := .awaitingVerb none

/-- What a token does: lead on to another phase, or close the command. -/
inductive Step (σ : Type) where
  | goOn (phase : ParserPhase σ)
  | close (command : OpenCommand σ) (operator : Operator)

def stepAwaitingVerb (p : Parser σ) (abandoned : Option (OpenCommand σ)) (token : Token) :
    Except Error (Step σ) :=
  match token.kind with
  | .blank | .history | .substitution => .ok (.goOn (.awaitingVerb abandoned))
  | _ =>
    if token.isVerb then .ok (.goOn (.inCommand (.ofVerb p.options p.settings token)))
    else .error (unexpected p.tokenizer.source token)

def stepInCommand (p : Parser σ) (c : OpenCommand σ) (token : Token) : Except Error (Step σ) :=
  match token.kind with
  | .history | .substitution => .ok (.goOn (.inCommand c))
  | .operator =>
    match Redirect.Kind.ofText? token.value with
    | some kind => .ok (.goOn (.awaitingRedirectTarget c ⟨token,kind,none⟩))
    | none =>
      if token.value = ['='] then .ok (.goOn (.inCommand (c.push token)))
      else if token.value = ['&'] then .error (.parse .backgroundExecution)
      else
        match Operator.ofText? token.value with
        | some operator => .ok (.close c operator)
        | none => .error (unexpected p.tokenizer.source token)
  | _ => .ok (.goOn (.inCommand (c.push token)))

/-- Take a token that belongs to a redirection: blanks may precede the file name. -/
def stepRedirectTarget (p : Parser σ) (c : OpenCommand σ) (pending : PendingRedirect)
    (token : Token) : Except Error (Step σ) :=
  match token.kind with
  | .history | .substitution | .blank => .ok (.goOn (.awaitingRedirectTarget c pending))
  | .operator => .error (unexpected p.tokenizer.source token)
  | _ =>
    .ok (.goOn (.awaitingRedirectTarget c
      { pending with target := some (pending.target.getD [] ++ token.rawText) }))

def step (p : Parser σ) (token : Token) : Except Error (Step σ) :=
  match p.phase with
  | .awaitingVerb abandoned => p.stepAwaitingVerb abandoned token
  | .inCommand c => p.stepInCommand c token
  | .awaitingRedirectTarget c pending => p.stepRedirectTarget c pending token
  | .closed | .done => p.stepAwaitingVerb none token

/-- A blank or an operator ends the file name of a redirection. -/
def settle (phase : ParserPhase σ) (token : Token) : ParserPhase σ :=
  match phase with
  | .awaitingRedirectTarget c pending =>
    if pending.target.isSome && (token.kind = .blank || token.kind = .operator) then
      .inCommand (c.redirect pending)
    else phase
  | _ => phase

/-- What the end of the line does: close the open command, if there is one. -/
def atEnd (phase : ParserPhase σ) : Except Error (Option (OpenCommand σ)) :=
  match phase with
  | .awaitingVerb _ | .closed | .done => .ok none
  | .inCommand c => .ok (some c)
  | .awaitingRedirectTarget c pending =>
    match pending.target with
    | some _ => .ok (some (c.redirect pending))
    | none => .error (.parse .missingRedirectTarget)

/-- Read tokens until a command is closed or the line ends. -/
def read (p : Parser σ) :
    Except Error (Option (OpenCommand σ × Option Operator)) × Parser σ :=
  let current := p.phase.current?
  let options := (current.map (·.options)).getD p.options
  let ctx := (current.map (·.context)).getD {}
  match _h : p.tokenizer.next options ctx with
  | (.error e,t) => (.error e,{ p with tokenizer := t })
  | (.ok none,t) =>
    match atEnd p.phase with
    | .error e => (.error e,{ p with tokenizer := t })
    | .ok none => (.ok none,{ p with tokenizer := t, phase := .done })
    | .ok (some c) => (.ok (some (c,none)),{ p with tokenizer := t, phase := .done })
  | (.ok (some token),t) =>
    match step { p with tokenizer := t, phase := settle p.phase token } token with
    | .error e => (.error e,{ p with tokenizer := t, phase := settle p.phase token })
    | .ok (.goOn phase) => read { p with tokenizer := t, phase }
    | .ok (.close c operator) =>
      (.ok (some (c,some operator)),{ p with tokenizer := t, phase := .closed })
termination_by p.tokenizer.remaining
decreasing_by exact Tokenizer.next_fewer _h

/-- A command closed by an operator takes at least one token. -/
theorem read_fewer {p p' : Parser σ} {c : OpenCommand σ} {operator : Operator}
    (h : p.read = (.ok (some (c,some operator)),p')) :
    Tokenizer.Fewer p'.tokenizer.remaining p.tokenizer.remaining := by
  induction hr : p.tokenizer.remaining using
    (WellFounded.induction (r := Tokenizer.Fewer)
      (Prod.lex Nat.lt_wfRel (Prod.lex Nat.lt_wfRel Nat.lt_wfRel)).wf) generalizing p with
  | _ r ih =>
    subst hr
    rw [read] at h
    split at h
    · cases h
    · split at h <;> cases h
    · next token t ht =>
      have hf := Tokenizer.next_fewer ht
      split at h
      · cases h
      · exact Tokenizer.Fewer.trans (ih _ hf h rfl) hf
      · cases h
        exact hf

def restart (p : Parser σ) : Parser σ :=
  { p with phase := .awaitingVerb p.phase.current? }

/-- Read and compile the next command, with the operator that closes it. -/
def nextCommand (p : Parser σ) :
    StateM σ (Except Error (Option CommandTree.Link) × Parser σ) :=
  match p.phase with
  | .done => pure (.ok none,p)
  | _ =>
    match p.restart.read with
    | (.error e,p) => pure (.error e,p)
    | (.ok none,p) => pure (.ok none,p)
    | (.ok (some (c,operator)),p) => do
      let command ← c.command.compile c.options
      pure (.ok (some (command,operator)),p)

/-- Read and compile commands up to one that no operator closes. The second component is
the reader after the last token. -/
def commands (p : Parser σ) : StateM σ (Except Error (List CommandTree.Link) × Tokenizer) :=
  match _h : p.restart.read with
  | (.error e,p) => pure (.error e,p.tokenizer)
  | (.ok none,p) => pure (.ok [],p.tokenizer)
  | (.ok (some (c,none)),p) => do
    let command ← c.command.compile c.options
    pure (.ok [(command,none)],p.tokenizer)
  | (.ok (some (c,some operator)),p) => do
    let command ← c.command.compile c.options
    let (rest,t) ← commands p
    pure (rest.map ((command,some operator) :: ·),t)
termination_by p.tokenizer.remaining
decreasing_by
  have hf := read_fewer _h
  exact hf

end Parser

/-- What a line means. -/
structure ParsedLine where
  /-- None for a line of blanks. -/
  tree : Option CommandTree
  /-- The line with history references replaced by their texts. -/
  expanded : Text
  /-- The line is to be shown and not run. -/
  printOnly : Bool
  lastSubstitution : Option History.Substitution

/-- Make a tree of commands; an operator at the end of the line joins nothing. -/
def linkLine (links : List CommandTree.Link) : Except Error (Option CommandTree) :=
  match links.getLast? with
  | some (_,some operator) => .error (.parse (.danglingOperator operator.text))
  | _ => CommandTree.link links

def parseLine {σ : Type} (line : Text) (options : Options σ) (settings : Settings)
    (lastSubstitution : Option History.Substitution) : StateM σ (Except Error ParsedLine) := do
  let (links,t) ← (Parser.new line options settings lastSubstitution).commands
  match links.bind linkLine with
  | .error e => pure (.error e)
  | .ok tree => pure (.ok ⟨tree,t.expanded,t.printOnly,t.lastSubstitution⟩)
end Realm
