import Realm.Pattern.Thread

/-! Matching by search. Where a thread goes on in two, the preferred one is followed to its
end first. Threads with the same goals at the same place can go the same ways, so only the
first of them is followed at all. Hence the search ends, and a loop is left as soon as a turn
of it has come back to where it began. -/
namespace Realm.Pattern

/-- Goals to which no thread has come yet. The place of a list is how much of the text is
left. -/
abbrev Fresh := List (List (List Goal))

def Fresh.has (fresh : Fresh) (left : Nat) (goals : List Goal) : Bool :=
  (fresh[left]?.getD []).contains goals

def Fresh.strike : Fresh → Nat → List Goal → Fresh
  | [], _, _ => []
  | states :: fresh, 0, goals => states.filter (· ≠ goals) :: fresh
  | states :: fresh, left + 1, goals => states :: strike fresh left goals

theorem Fresh.length_strike_lt (fresh : Fresh) (left : Nat) (goals : List Goal)
    (h : fresh.has left goals) :
    (fresh.strike left goals).flatten.length < fresh.flatten.length := by
  induction fresh generalizing left with
  | nil => simp [has] at h
  | cons states fresh ih =>
    cases left with
    | zero =>
      have hm : goals ∈ states := by simpa [has] using h
      have : (states.filter (· ≠ goals)).length < states.length :=
        List.length_filter_lt_length_iff_exists.2 ⟨goals,hm,by simp⟩
      simp only [strike,List.flatten_cons,List.length_append]
      omega
    | succ left =>
      have := ih left (by simpa [has] using h)
      simp only [strike,List.flatten_cons,List.length_append]
      omega

def search (fresh : Fresh) (threads : List Thread) : Option (Table Text Text) :=
  match threads with
  | [] => none
  | t :: others =>
    if t.goals.isEmpty then some t.captures
    else if _h : fresh.has t.left t.goals then
      search (fresh.strike t.left t.goals) (t.steps ++ others)
    else search fresh others
termination_by 3 * fresh.flatten.length + threads.length
decreasing_by
  · have := fresh.length_strike_lt t.left t.goals _h
    have := t.length_steps_le
    simp only [List.length_append,List.length_cons]
    omega
  · simp only [List.length_cons]
    omega

def starts (p : Pattern) (previous : Option Char) : Text → List Thread
  | [] => [{ goals := [.part p], place := ⟨previous,[]⟩ }]
  | c :: t => { goals := [.part p], place := ⟨previous,c :: t⟩ } :: starts p (some c) t

/-- What the leftmost match remembers, if there is a match anywhere in the text. -/
def captures? (p : Pattern) (t : Text) : Option (Table Text Text) :=
  search (List.replicate (t.length + 1) (p.states [])) (starts p none t)

/-- Whether there is a match anywhere in the text. -/
def isMatch (p : Pattern) (t : Text) : Bool :=
  (p.captures? t).isSome

end Realm.Pattern
