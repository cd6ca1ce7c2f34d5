import Realm.History.Event
import Realm.History.Designator
import Realm.History.Modifier

/-! Whole history references. -/
namespace Realm.History

/-- What a reference at the beginning of a text stands for. -/
structure Resolved where
  text : Text
  /-- The reference itself, with its exclamation mark. -/
  reference : Text
  /-- The line is to be shown and not run. -/
  printOnly : Bool
  /-- The last substitution that the reference made. -/
  substitution : Option Substitution
deriving DecidableEq, Repr

/-- The part of `input` that is read when `rest` is left. -/
def readPart (input rest : Text) : Text :=
  '!' :: input.take (input.length - rest.length)

/-- Apply the modifiers that follow; `input` is all that follows the exclamation mark. -/
def applyModifiers (input : Text) (p : Progress) :
    Text → Except HistoryError (Progress × Text)
  | ':' :: t =>
    match _h : Modifier.read t with
    | .error .missing => .error (.missingModifier (readPart input t))
    | .error (.unrecognized rest) => .error (.unrecognizedModifier (readPart input rest))
    | .error .missingDelimiter => .error .missingDelimiter
    | .ok (modifier,rest) =>
      match modifier.apply (readPart input rest) p with
      | .error e => .error e
      | .ok p => applyModifiers input p rest
  | rest => .ok (p,rest)
termination_by rest => rest.length
decreasing_by
  have := Modifier.length_read _h
  simp only [List.length_cons]
  omega

/-- The designator that a text begins with, if it is introduced by a colon and a
character that begins designators. -/
def writtenDesignator? : Text → Option (Text × Text)
  | ':' :: c :: t =>
    if Text.isDigit c || c = '^' || c = '$' || c = '*' || c = '-' then
      some (Designator.span (c :: t))
    else none
  | _ => none

def selectWords (reference line designator : Text) : Except HistoryError Text :=
  match (Designator.parse? designator).bind (·.select? line) with
  | some text => .ok text
  | none => .error (.badWordSpecifier reference)

/-- The words of a line that the designator of a reference picks, if it has one, and what
follows. -/
def designatedWords (input line : Text) (w : Event.Written) :
    Except HistoryError (Text × Text) :=
  match w.implied, writtenDesignator? w.rest with
  | some c, _ =>
    (selectWords (readPart input w.rest) line [c]).map fun text => (text,w.rest)
  | none, some (designator,rest) =>
    (selectWords (readPart input rest) line designator).map fun text => (text,rest)
  | none, none => .ok (line,w.rest)

/-- Resolve a reference whose exclamation mark has been read; `last` is the substitution
that it may repeat. -/
def resolveAfterMark (history : List Text) (last : Option Substitution) (input : Text) :
    Except HistoryError Resolved :=
  match Event.read? input with
  | none => .error (.eventNotFound ['!'])
  | some w =>
    match w.event.find? history with
    | none => .error (.eventNotFound (readPart input w.rest))
    | some line =>
      match designatedWords input line w with
      | .error e => .error e
      | .ok (text,rest) =>
        match applyModifiers input ⟨text,false,none,last⟩ rest with
        | .error e => .error e
        | .ok (p,rest) => .ok ⟨p.text,readPart input rest,p.printOnly,p.made⟩

/-- Resolve the reference at the beginning of a text. -/
def resolve (history : List Text) (last : Option Substitution) (input : Text) :
    Except Error Resolved :=
  match resolveAfterMark history last (input.drop 1) with
  | .error e => .error (.history e)
  | .ok r => .ok r

theorem readPart_length_pos (input rest : Text) : 0 < (readPart input rest).length := by
  simp [readPart]

theorem reference_length_pos {history : List Text} {last : Option Substitution} {input : Text}
    {r : Resolved} (h : resolve history last input = .ok r) : 0 < r.reference.length := by
  unfold resolve at h
  split at h
  · cases h
  · next r' hr =>
    cases h
    unfold resolveAfterMark at hr
    repeat' split at hr
    all_goals cases hr
    exact readPart_length_pos _ _

end Realm.History
