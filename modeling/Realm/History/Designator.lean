import Realm.History

/-! The part of a reference that picks words of a line. Words are counted from zero. -/
namespace Realm.History

inductive WordIndex where
  | at (n : Nat)
  | last
deriving DecidableEq, Repr

/-- The number of a word, when the last word has number `final`. -/
def WordIndex.resolve (final : Nat) : WordIndex → Nat
  | .at n => n
  | .last => final

inductive Designator where
  /-- All words but the first; there may be none. -/
  | arguments
  /-- From one word to the last. -/
  | toLast (first : WordIndex)
  /-- From the first word to another. -/
  | fromStart (stop : WordIndex)
  /-- From one word to the last but one. -/
  | toPenultimate (first : WordIndex)
  /-- From one word to another. -/
  | range (first stop : WordIndex)
deriving DecidableEq, Repr

def Designator.single (i : WordIndex) : Designator :=
  .range i i

/-- The words with numbers from `first` to `stop`. -/
def slice? (words : List Text) (first stop : Nat) : Option Text :=
  if first ≤ stop ∧ stop < words.length then
    some (Text.join [' '] ((words.take (stop + 1)).drop first))
  else none

/-- The words that a designator picks, joined by spaces; it must pick existing words. -/
def Designator.select? (line : Text) (d : Designator) : Option Text :=
  let words := Text.words line
  match words.length with
  | 0 => none
  | final + 1 =>
    match d with
    | .arguments => if final = 0 then some [] else slice? words 1 final
    | .toLast first => slice? words (first.resolve final) final
    | .fromStart stop => slice? words 0 (stop.resolve final)
    | .toPenultimate first =>
      if final = 0 then none else slice? words (first.resolve final) (final - 1)
    | .range first stop => slice? words (first.resolve final) (stop.resolve final)

/-- Split a designator as written off the text before which it stands: one of three
signs, or digits, hyphens and dollars that may end in a star. -/
def Designator.span : Text → Text × Text
  | [] => ([],[])
  | c :: t =>
    if c = '^' || c = '$' || c = '*' then ([c],t)
    else if Text.isDigit c || c = '-' then
      let inside := fun d => Text.isDigit d || d = '-' || d = '$'
      match t.dropWhile inside with
      | '*' :: rest => (c :: t.takeWhile inside ++ ['*'],rest)
      | rest => (c :: t.takeWhile inside,rest)
    else ([],c :: t)

def WordIndex.parse? (t : Text) : Option WordIndex :=
  if t = ['^'] then some (.at 1)
  else if t = ['$'] then some .last
  else (Text.natural? t).map .at

def Designator.parse? (t : Text) : Option Designator :=
  if t = ['*'] then some .arguments
  else if t.getLast? = some '*' then (WordIndex.parse? t.dropLast).map .toLast
  else if t.head? = some '-' then (WordIndex.parse? t.tail).map .fromStart
  else if t.getLast? = some '-' then (WordIndex.parse? t.dropLast).map .toPenultimate
  else
    match Text.splitFirst? '-' t with
    | some (a,b) => do
      let first ← WordIndex.parse? a
      let stop ← WordIndex.parse? b
      pure (.range first stop)
    | none => (WordIndex.parse? t).map .single

end Realm.History
