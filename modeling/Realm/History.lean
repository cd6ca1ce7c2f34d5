import Realm.Error
import Realm.Text.Blank

/-! History references. A reference begins with an exclamation mark, names an earlier
line (`Event`), may pick words of it (`Designator`) and may change the result by
modifiers (`Modifier`), which apply strictly from left to right. -/
namespace Realm.History

/-- A pattern and what replaces it. -/
structure Substitution where
  pattern : Text
  replacement : Text
deriving DecidableEq, Repr

/-- The replacement with each ampersand standing for the pattern; a backslash before an
ampersand makes it an ordinary one. -/
def Substitution.expansion (s : Substitution) : Text :=
  go s.replacement
where
  go : Text → Text
    | '\\' :: '&' :: t => '&' :: go t
    | '&' :: t => s.pattern ++ go t
    | c :: t => c :: go t
    | [] => []

/-- Replace the first occurrence of the pattern, or all of them; without an occurrence
there is no result. -/
def Substitution.apply? (s : Substitution) (everywhere : Bool) (t : Text) : Option Text :=
  if s.pattern = [] || !Text.contains s.pattern t then none
  else if everywhere then some (Text.replaceAll s.pattern s.expansion t)
  else some (Text.replaceFirst s.pattern s.expansion t)

/-- Turn a line of the form `^old^new^trailing` into the previous line with `old`
replaced by `new`, followed by the trailing text. -/
def quickSubstitute (line : Text) (history : List Text) : Except Error (Text × Substitution) :=
  match history.getLast? with
  | none => .error (.history (.eventNotFound line))
  | some previous =>
    let body := line.drop 1
    let (pattern,remainder) := (Text.splitFirst? '^' body).getD (body,[])
    let (replacement,trailing) := (Text.splitFirst? '^' remainder).getD (remainder,[])
    let sub : Substitution := ⟨pattern,replacement⟩
    match sub.apply? false previous with
    | some text => .ok (text ++ trailing,sub)
    | none =>
      .error (.history (.substitutionFailed (line.take (line.length - trailing.length))))

end Realm.History
