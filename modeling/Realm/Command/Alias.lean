import Realm.Options
import Realm.Text.Blank

/-! Alias templates. A template is read once into pieces; what an argument or a variable
brings in is copied and never read again, and every argument ends up somewhere. -/
namespace Realm.Alias

inductive Piece where
  | char (c : Char)
  /-- The argument with a number, or the alias itself for zero. -/
  | argument (digits : Text)
  /-- The arguments that no number names. -/
  | others
  | variable (name : Text)
deriving DecidableEq, Repr

/-- The reference at the beginning of a text after a dollar, with what follows it. -/
def reference? : Text → Option (Piece × Text)
  | [] => none
  | c :: t =>
    if Text.isDecimalDigit c then
      some (.argument (c :: t.takeWhile Text.isDecimalDigit),t.dropWhile Text.isDecimalDigit)
    else if c = '*' then some (.others,t)
    else if Text.isNameStart c then
      some (.variable (c :: t.takeWhile Text.isNameChar),t.dropWhile Text.isNameChar)
    else none

theorem length_reference? {t rest : Text} {p : Piece} (h : reference? t = some (p,rest)) :
    rest.length < t.length := by
  unfold reference? at h
  split at h
  · cases h
  · next c t =>
    have h₁ := (List.dropWhile_suffix Text.isDecimalDigit (l := t)).length_le
    have h₂ := (List.dropWhile_suffix Text.isNameChar (l := t)).length_le
    repeat' split at h
    all_goals cases h
    all_goals simp only [List.length_cons]; omega

/-- The pieces of a template, read from left to right. -/
def pieces : Text → List Piece
  | [] => []
  | c :: t =>
    if c = '$' then
      match _h : reference? t with
      | some (piece,rest) => piece :: pieces rest
      | none => .char c :: pieces t
    else .char c :: pieces t
termination_by t => t.length
decreasing_by
  · have := length_reference? _h
    simp only [List.length_cons]
    omega
  · simp
  · simp

def isNamed (ps : List Piece) (n : Nat) : Bool :=
  ps.any fun p =>
    match p with
    | .argument digits => Text.natural? digits = some n
    | _ => false

def unnamed (ps : List Piece) (args : List Text) : List Text :=
  (args.zipIdx 1).filterMap fun (arg,n) => if isNamed ps n then none else some arg

def numbered (name : Text) (args : List Text) (digits : Text) : Text :=
  match Text.natural? digits with
  | some 0 => name
  | some (n + 1) => args[n]?.getD []
  | none => []

variable {σ : Type}

def Piece.expand (o : Options σ) (expandVariables : Bool) (name : Text) (args others : List Text) :
    Piece → StateM σ Text
  | .char c => pure [c]
  | .argument digits => pure (numbered name args digits)
  | .others => pure (Text.join [' '] others)
  | .variable v => if expandVariables then o.valueOf v else pure ('$' :: v)

/-- The line that an alias with some arguments stands for. Where the template does not say
where the unnamed arguments go, they go to the end. -/
def expand (o : Options σ) (expandVariables : Bool) (name template : Text) (args : List Text) :
    StateM σ Text := do
  let ps := pieces template
  let others := unnamed ps args
  let parts ← ps.mapM (Piece.expand o expandVariables name args others)
  if ps.contains .others || others.isEmpty then pure parts.flatten
  else pure (parts.flatten ++ ' ' :: Text.join [' '] others)

/-- Split an expanded line into its verb and arguments. The verb is the leading run of
letters and numbers, or else the leading word. -/
def splitLine (line : Text) : Text × List Text :=
  let line := Text.trimStart line
  match line.takeWhile Text.isAlphanumeric with
  | [] =>
    (line.takeWhile (!Text.isBlank ·),Text.words (line.dropWhile (!Text.isBlank ·)))
  | verb => (verb,Text.words (line.dropWhile Text.isAlphanumeric))

end Realm.Alias
