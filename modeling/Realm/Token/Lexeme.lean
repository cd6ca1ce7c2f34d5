import Realm.Token
import Realm.Options
import Realm.Text.Blank

/-! The lexical unit at the beginning of a text. Which characters are special depends on
the grammar and on where in a command the text stands. -/
namespace Realm

structure LexContext where
  /-- A verb has been read and its command is still open. -/
  inCommand : Bool := false
  /-- The open command is an expression. -/
  expression : Bool := false
deriving DecidableEq, Repr

/-- A unit that covers the next `width` characters of a text. -/
structure Lexeme where
  kind : Token.Kind
  value : Text
  width : Nat
  width_pos : 0 < width

namespace Lexeme

def single (kind : Token.Kind) (c : Char) : Lexeme :=
  ⟨kind,[c],1,by decide⟩

def operator (text : Text) (h : 0 < text.length := by decide) : Lexeme :=
  ⟨.operator,text,text.length,h⟩

/-- A run of characters that stands for itself. -/
def run (kind : Token.Kind) (c : Char) (t : Text) : Lexeme :=
  ⟨kind,c :: t,t.length + 1,by omega⟩

/-- A character that can stand inside a word whatever the grammar. -/
def isPlain (c : Char) : Bool :=
  !Text.isBlank c &&
    !(['$','.','=','<','>','|',';','&','\'','"','!','\x60','\\'].contains c)

/-- Digits, and digits after a point, unless a plain character follows. -/
def number? (c : Char) (t : Text) : Option Lexeme :=
  if Text.isDecimalDigit c then
    let whole := t.takeWhile Text.isDecimalDigit
    let rest := t.dropWhile Text.isDecimalDigit
    let fraction :=
      match rest with
      | '.' :: d :: r =>
        if Text.isDecimalDigit d then '.' :: d :: r.takeWhile Text.isDecimalDigit else []
      | _ => []
    match rest.drop fraction.length with
    | d :: _ =>
      if isPlain d then none else some (run .numeric c (whole ++ fraction))
    | [] => some (run .numeric c (whole ++ fraction))
  else none

def name? : Text → Option Text
  | c :: t => if Text.isNameStart c then some (c :: t.takeWhile Text.isNameChar) else none
  | [] => none

def dollar? : Text → Option Lexeme
  | '\x7b' :: t =>
    match name? t with
    | some name =>
      if (t.drop name.length).head? = some '\x7d' then
        some ⟨.variable,name,name.length + 3,Nat.succ_pos _⟩
      else none
    | none => none
  | t => (name? t).map fun name => ⟨.variable,name,name.length + 1,Nat.succ_pos _⟩

/-- The text between quotes and the number of characters it takes with its closing quote.
A backslash protects the quote and another backslash; before any other character it
stays. -/
def quotedBody? (quote : Char) : Text → Option (Text × Nat)
  | [] => none
  | ['\\'] => none
  | '\\' :: c :: t =>
    (quotedBody? quote t).map fun (value,width) =>
      (if c = quote ∨ c = '\\' then c :: value else '\\' :: c :: value,width + 2)
  | c :: t =>
    if c = quote then some ([],1)
    else (quotedBody? quote t).map fun (value,width) => (c :: value,width + 1)

/-- A quoted unit after its opening quote, which stands at byte `start`. -/
def quoted (kind : Token.Kind) (quote : Char) (start : Nat) (t : Text) : Except Error Lexeme :=
  match quotedBody? quote t with
  | some (value,width) => .ok ⟨kind,value,width + 1,by omega⟩
  | none => .error (.parse (.unterminatedString quote start))

/-- A backslash and the character that it protects; a protected line break vanishes. -/
def escape (grammar : Grammar) (start : Nat) : Text → Except Error Lexeme
  | '\n' :: _ => .ok ⟨.word,[],2,by decide⟩
  | c :: _ => .ok ⟨.word,[c],2,by decide⟩
  | [] =>
    if grammar.allowLineSpanning then .error .incomplete
    else .error (.parse (.unterminatedEscape start))

def special (grammar : Grammar) (ctx : LexContext) (start : Nat) (c : Char) (t : Text) :
    Except Error Lexeme :=
  match c with
  | '$' =>
    if grammar.expandEnvironment then .ok ((dollar? t).getD (single .word '$'))
    else .ok (single .word '$')
  | '<' => if grammar.allowFileAccess then .ok (operator ['<']) else .ok (single .word '<')
  | '>' =>
    if grammar.allowFileAccess then
      match t with
      | '>' :: _ => .ok (operator ['>','>'])
      | _ => .ok (operator ['>'])
    else .ok (single .word '>')
  | '|' =>
    if grammar.allowPipelining then
      match t with
      | '|' :: _ => .ok (operator ['|','|'])
      | '&' :: _ => .ok (operator ['|','&'])
      | _ => .ok (operator ['|'])
    else .ok (single .word '|')
  | '&' =>
    if grammar.allowPipelining then
      match t with
      | '&' :: _ => .ok (operator ['&','&'])
      | _ => .ok (operator ['&'])
    else .ok (single .word '&')
  | ';' => if grammar.allowPipelining then .ok (operator [';']) else .ok (single .word ';')
  | '\'' => if grammar.allowQuoting then quoted .string '\'' start t else .ok (single .word '\'')
  | '"' => if grammar.allowQuoting then quoted .string '"' start t else .ok (single .word '"')
  | '\x60' =>
    if grammar.expandBackticks then quoted .backtick '\x60' start t
    else .ok (single .word '\x60')
  | '\\' => if grammar.allowEscaping then escape grammar start t else .ok (single .word '\\')
  | '=' => if ctx.expression then .ok (operator ['=']) else .ok (single .word '=')
  | c => .ok (single .word c)

/-- A member name after its dot, where a variable or a member of it has just been read. -/
def member? (grammar : Grammar) (previous : Option Token.Kind) (c : Char) (t : Text) :
    Option Lexeme :=
  if c = '.' ∧ grammar.expandVariables = true ∧
      (previous = some .variable ∨ previous = some .member) then
    (name? t).map fun name => ⟨.member,name,name.length + 1,Nat.succ_pos _⟩
  else none

/-- The unit at the beginning of the text `c :: t`, which stands at byte `start`. Text
brought in by a history reference is no longer searched for references, so an exclamation
mark is an ordinary character here. -/
def scan {σ : Type} (o : Options σ) (ctx : LexContext) (previous : Option Token.Kind)
    (start : Nat) (c : Char) (t : Text) : Except Error Lexeme :=
  if !ctx.inCommand && (o.charAlias? c).isSome then .ok (single .alias c)
  else
    match member? o.toGrammar previous c t with
    | some lexeme => .ok lexeme
    | none =>
      if Text.isBlank c then .ok (run .blank c (t.takeWhile Text.isBlank))
      else
        match number? c t with
        | some lexeme => .ok lexeme
        | none =>
          if isPlain c then .ok (run .word c (t.takeWhile isPlain))
          else special o.toGrammar ctx start c t

end Lexeme
end Realm
