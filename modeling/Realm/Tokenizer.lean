import Realm.Token.Lexeme
import Realm.History.Reference

/-! The reader that turns a line into tokens, one at a time, so that the grammar can
change between them. A history reference gives a token of its own, followed by the tokens
of the text that it stands for; a quick substitution replaces the whole line. -/
namespace Realm

open History (Substitution)

/-- A reader in the middle of a line. -/
structure Tokenizer where
  /-- The part of the line that has been read. -/
  before : Text
  /-- The part that is still to be read. -/
  rest : Text
  /-- Tokens to be given out before reading on. -/
  stack : List Token
  previous : Option Token.Kind
  lastSubstitution : Option Substitution
  /-- Some reference asked for the line to be shown and not run. -/
  printOnly : Bool
  /-- A quick substitution has replaced the line. -/
  restarted : Bool
  /-- What has been read, with history references replaced by their texts. -/
  expanded : Text

namespace Tokenizer

def new (line : Text) (lastSubstitution : Option Substitution) : Tokenizer where
  before := []
  rest := line
  stack := []
  previous := none
  lastSubstitution := lastSubstitution
  printOnly := false
  restarted := false
  expanded := []

def source (t : Tokenizer) : Text :=
  t.before ++ t.rest

def index (t : Tokenizer) : Nat :=
  Text.byteSize t.before

def pushBack (t : Tokenizer) (token : Token) : Tokenizer :=
  { t with stack := token :: t.stack }

def token (t : Tokenizer) (kind : Token.Kind) (value : Text) (width : Nat) : Token where
  kind := kind
  value := value
  source := .input
  start := t.index
  stop := t.index + Text.byteSize (t.rest.take width)
  redirectTarget := none

/-- Pass over the next `width` characters, which stand for `expansion`. -/
def skip (t : Tokenizer) (width : Nat) (expansion : Text) : Tokenizer :=
  { t with
    before := t.before ++ t.rest.take width
    rest := t.rest.drop width
    expanded := t.expanded ++ expansion }

/-- The tokens of a text that a history reference stands for; after the first token that
is not blank the text stands inside a command. -/
def historyTokens {σ : Type} (o : Options σ) (ctx : LexContext) (previous : Option Token.Kind)
    (start : Nat) : Text → Except Error (List Token)
  | [] => .ok []
  | c :: t => do
    let lexeme ← Lexeme.scan o ctx previous start c t
    let stop := start + Text.byteSize ((c :: t).take lexeme.width)
    let ctx := if lexeme.kind = .blank then ctx else { ctx with inCommand := true }
    let tokens ← historyTokens o ctx (some lexeme.kind) stop ((c :: t).drop lexeme.width)
    pure (⟨lexeme.kind,lexeme.value,.history,start,stop,none⟩ :: tokens)
termination_by text => text.length
decreasing_by
  have := lexeme.width_pos
  simp only [List.length_drop,List.length_cons]
  omega

/-- Whether an exclamation mark before `rest` is meant as itself: before a blank, an
equals sign or a parenthesis, and at the end of a line that holds anything else. -/
def isLiteralMark (atLineStart : Bool) (rest : Text) : Bool :=
  match rest with
  | [] => !atLineStart
  | c :: _ => Text.isBlank c || c = '=' || c = '('

def allowsReference {σ : Type} (o : Options σ) (atLineStart : Bool) : Bool :=
  o.historyEnabled &&
    match o.historyLevel with
    | .off => false
    | .lineStart => atLineStart
    | .full => true

/-- Read at an exclamation mark; `rest` follows it. -/
def readMark {σ : Type} (o : Options σ) (ctx : LexContext) (t : Tokenizer) (rest : Text) :
    Except Error Token × Tokenizer :=
  let atLineStart := Text.isAllBlank t.before
  if !allowsReference o atLineStart || isLiteralMark atLineStart rest then
    (.ok (t.token .word ['!'] 1),t.skip 1 ['!'])
  else
    match History.resolve o.history t.lastSubstitution t.rest with
    | .error e => (.error e,t)
    | .ok resolved =>
      let t := { t with
        lastSubstitution := resolved.substitution.or t.lastSubstitution
        printOnly := t.printOnly || resolved.printOnly }
      match historyTokens { o with historyLevel := .off } ctx none 0 resolved.text with
      | .error e => (.error e,t)
      | .ok tokens =>
        let width := resolved.reference.length
        (.ok (t.token .history resolved.text width),
          { t.skip width resolved.text with stack := tokens })

/-- Begin afresh on the line that a quick substitution stands for. -/
def restart (t : Tokenizer) (line : Text) (sub : Substitution) : Token × Tokenizer :=
  (⟨.substitution,line,.input,0,0,none⟩,
    { t with
      before := []
      rest := line
      restarted := true
      lastSubstitution := some sub
      expanded := [] })

def dispatch {σ : Type} (o : Options σ) (ctx : LexContext) (t : Tokenizer) (c : Char)
    (rest : Text) : Except Error Token × Tokenizer :=
  if c = '^' ∧ t.before = [] ∧ ctx.inCommand = false ∧ t.restarted = false ∧
      o.historyLevel = .full ∧ o.history ≠ [] then
    match History.quickSubstitute t.source o.history with
    | .error e => (.error e,t)
    | .ok (line,sub) =>
      let r := t.restart line sub
      (.ok r.1,r.2)
  else if c = '!' ∧ (ctx.inCommand = true ∨ o.charAlias? c = none) then
    readMark o ctx t rest
  else
    match Lexeme.scan o ctx t.previous t.index c rest with
    | .error e => (.error e,t)
    | .ok lexeme =>
      (.ok (t.token lexeme.kind lexeme.value lexeme.width),
        t.skip lexeme.width (t.rest.take lexeme.width))

def next {σ : Type} (o : Options σ) (ctx : LexContext) (t : Tokenizer) :
    Except Error (Option Token) × Tokenizer :=
  match t.stack with
  | token :: stack => (.ok (some token),{ t with stack, previous := some token.kind })
  | [] =>
    match t.rest with
    | [] => (.ok none,t)
    | c :: rest =>
      match dispatch o ctx t c rest with
      | (.error e,t) => (.error e,t)
      | (.ok token,t) => (.ok (some token),{ t with previous := some token.kind })

/-- What is left to do: a quick substitution can still come, then the characters of the
line count, and then the tokens in waiting. -/
def remaining (t : Tokenizer) : Nat × Nat × Nat :=
  (if t.restarted then 0 else 1,t.rest.length,t.stack.length)

/-- The order in which `remaining` goes down. -/
abbrev Fewer : Nat × Nat × Nat → Nat × Nat × Nat → Prop :=
  Prod.Lex (· < ·) (Prod.Lex (· < ·) (· < ·))

theorem Fewer.trans {a b c : Nat × Nat × Nat} (h : Fewer a b)
    (h' : Fewer b c) : Fewer a c := by
  have lt {x y z : Nat} := @Nat.lt_trans x y z
  cases h with
  | left b₁ b₂ h =>
    cases h' with
    | left c₁ c₂ h' => exact .left _ _ (lt h h')
    | right c h' => exact .left _ _ h
  | right b h =>
    cases h' with
    | left c₁ c₂ h' => exact .left _ _ h'
    | right c h' =>
      refine .right _ ?_
      cases h with
      | left b₁ b₂ h =>
        cases h' with
        | left c₁ c₂ h' => exact .left _ _ (lt h h')
        | right c h' => exact .left _ _ h
      | right b h =>
        cases h' with
        | left c₁ c₂ h' => exact .left _ _ h'
        | right c h' => exact .right _ (lt h h')

theorem skip_fewer {t : Tokenizer} {c : Char} {rest : Text} (h : t.rest = c :: rest)
    {width : Nat} (hw : 0 < width) (expansion : Text) (stack : List Token)
    (sub : Option Substitution) (printOnly : Bool) :
    Fewer { t.skip width expansion with
      stack, lastSubstitution := sub, printOnly }.remaining t.remaining := by
  apply Prod.Lex.right
  apply Prod.Lex.left
  simp only [skip,h,List.length_drop,List.length_cons]
  omega

theorem dispatch_fewer {σ : Type} {o : Options σ} {ctx : LexContext} {t t' : Tokenizer}
    {c : Char} {rest : Text} {token : Token} (hr : t.rest = c :: rest)
    (h : dispatch o ctx t c rest = (.ok token,t')) : Fewer t'.remaining t.remaining := by
  unfold dispatch at h
  split at h
  · next hc =>
    split at h
    · cases h
    · cases h
      apply Prod.Lex.left
      simp [restart,hc.2.2.2.1]
  · split at h
    · unfold readMark at h
      simp only at h
      split at h
      · cases h
        exact skip_fewer hr (by decide) _ t.stack t.lastSubstitution t.printOnly
      · split at h
        · cases h
        · next resolved hres =>
          split at h
          · cases h
          · next tokens _ =>
            cases h
            exact skip_fewer hr (History.reference_length_pos hres) _ tokens _ _
    · split at h
      · cases h
      · next lexeme _ =>
        cases h
        exact skip_fewer hr lexeme.width_pos _ t.stack t.lastSubstitution t.printOnly

/-- Every token brings the reader closer to the end. -/
theorem next_fewer {σ : Type} {o : Options σ} {ctx : LexContext} {t t' : Tokenizer}
    {token : Token} (h : next o ctx t = (.ok (some token),t')) :
    Fewer t'.remaining t.remaining := by
  unfold next at h
  split at h
  · next token' stack hs =>
    cases h
    apply Prod.Lex.right
    apply Prod.Lex.right
    simp [hs]
  · split at h
    · cases h
    · next c rest hr =>
      split at h
      · cases h
      · next token' t'' hd =>
        cases h
        have hf : Fewer t''.remaining t.remaining := dispatch_fewer hr hd
        exact hf

end Tokenizer

/-- How the context changes after a token when a whole line is read with one grammar. -/
def LexContext.after (ctx : LexContext) (token : Token) : LexContext :=
  match token.kind with
  | .blank | .history | .substitution => ctx
  | .operator => if token.value = ['='] then { ctx with inCommand := true } else {}
  | .variable =>
    if ctx.inCommand then ctx else { inCommand := true, expression := true }
  | _ => { ctx with inCommand := true }

/-- All tokens from here to the end of the line, read with one grammar. -/
def Tokenizer.readAll {σ : Type} (o : Options σ) (ctx : LexContext) (t : Tokenizer) :
    Except Error (List Token) :=
  match _h : t.next o ctx with
  | (.error e,_) => .error e
  | (.ok none,_) => .ok []
  | (.ok (some token),t') => (t'.readAll o (ctx.after token)).map (token :: ·)
termination_by t.remaining
decreasing_by exact next_fewer _h

/-- The tokens of a line, read with one grammar. -/
def tokenize {σ : Type} (o : Options σ) (line : Text) : Except Error (List Token) :=
  (Tokenizer.new line none).readAll o {}

end Realm
