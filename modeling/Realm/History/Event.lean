import Realm.History

/-! The part of a reference that names a line of the history. -/
namespace Realm.History

inductive Event where
  /-- The line just before this one. -/
  | previous
  /-- The line with this number, the oldest being one. -/
  | number (n : Nat)
  /-- The line this far back, the previous one being one. -/
  | back (n : Nat)
  /-- The most recent line that holds the text. -/
  | containing (text : Text)
  /-- The most recent line that begins with the text. -/
  | beginning (text : Text)
deriving DecidableEq, Repr

def Event.find? (history : List Text) : Event → Option Text
  | .previous => history.getLast?
  | .number n => if n = 0 then none else history[n - 1]?
  | .back n => if n = 0 || history.length < n then none else history[history.length - n]?
  | .containing text =>
    if text = [] then none else history.reverse.find? (Text.contains text)
  | .beginning text => history.reverse.find? (Text.startsWith text)

def endsEvent (c : Char) : Bool :=
  Text.isBlank c || [':',';','|','&','<','>','"','\'','\x60'].contains c

/-- An event as written: what it names, the designator that some short forms carry, and
what follows it. -/
structure Event.Written where
  event : Event
  implied : Option Char
  rest : Text

/-- Read an event after the exclamation mark; there is none at the end of the text or
before a character that ends events. -/
def Event.read? : Text → Option Event.Written
  | [] => none
  | '!' :: t => some ⟨.previous,none,t⟩
  | '$' :: t => some ⟨.previous,some '$',t⟩
  | '^' :: t => some ⟨.previous,some '^',t⟩
  | '*' :: t => some ⟨.previous,some '*',t⟩
  | '-' :: t =>
    some ⟨.back (Text.digitsValue (t.takeWhile Text.isDigit)),none,t.dropWhile Text.isDigit⟩
  | '?' :: t =>
    match Text.splitFirst? '?' t with
    | some (text,rest) => some ⟨.containing text,none,rest⟩
    | none =>
      some ⟨.containing (t.takeWhile (!Text.isBlank ·)),none,t.dropWhile (!Text.isBlank ·)⟩
  | c :: t =>
    if Text.isDigit c then
      some ⟨.number (Text.digitsValue ((c :: t).takeWhile Text.isDigit)),none,
        (c :: t).dropWhile Text.isDigit⟩
    else if endsEvent c then none
    else
      some ⟨.beginning ((c :: t).takeWhile (!endsEvent ·)),none,
        (c :: t).dropWhile (!endsEvent ·)⟩

end Realm.History
