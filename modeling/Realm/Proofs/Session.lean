import Mathlib.Data.List.DropRight
import Realm.Proofs.Repetition

/-! Whole sessions, line by line. What is remembered in the end comes of the lines that were
understood, whatever was refused or held back between them and however often the oldest lines
were dropped on the way. -/
namespace Realm

namespace Shell

variable {σ : Type} {s : Shell σ} {line : Text} {w w' : σ}

theorem process_incomplete
    (h : parseLine (s.textFor line) s.options s.settings s.lastSubstitution w =
      (.error .incomplete,w')) :
    s.process line w = ((.ok .incomplete,{ s with pending := some (s.textFor line) }),w') := by
  rw [process]
  simp only [bind,StateT.bind,h]
  rfl

theorem process_error {e : Error}
    (h : parseLine (s.textFor line) s.options s.settings s.lastSubstitution w = (.error e,w'))
    (he : e ≠ .incomplete) : s.process line w = ((.error e,s.cancel),w') := by
  rw [process]
  simp only [bind,StateT.bind,h]
  cases e
  case incomplete => exact absurd rfl he
  all_goals rfl

theorem inputOf_ne_incomplete (parsed : ParsedLine) : inputOf parsed ≠ .incomplete := by
  unfold inputOf
  split
  · nofun
  · split <;> nofun

end Shell

/-- A line and the state in which it comes in: that of the session, and that of the world in
which variables are looked up. -/
structure Turn (σ : Type) where
  before : Shell σ
  world : σ
  line : Text

namespace Turn

variable {σ : Type}

def answer (t : Turn σ) : Except Error Input :=
  (t.before.process t.line t.world).1.1

def after (t : Turn σ) : Shell σ :=
  (t.before.process t.line t.world).1.2

def worldAfter (t : Turn σ) : σ :=
  (t.before.process t.line t.world).2

/-- How the text is read: the line, behind those that wait for it. -/
def parsed (t : Turn σ) : Except Error ParsedLine :=
  (parseLine (t.before.textFor t.line) t.before.options t.before.settings
    t.before.lastSubstitution t.world).1

/-- The expanded text, unless it is blank, of a line that has been answered by anything but an
error and the wish for more. -/
def remembered? (t : Turn σ) : Option Text :=
  match t.answer, t.parsed with
  | .error _, _ | .ok .incomplete, _ | _, .error _ => none
  | .ok _, .ok parsed => if Text.isAllBlank parsed.expanded then none else some parsed.expanded

theorem outcome (t : Turn σ) :
    (∃ parsed, t.parsed = .ok parsed ∧ t.answer = .ok (Shell.inputOf parsed) ∧
      t.after = t.before.accept parsed) ∨
    (t.answer = .ok .incomplete ∧
      t.after = { t.before with pending := some (t.before.textFor t.line) }) ∨
    (∃ e, t.answer = .error e ∧ t.after = t.before.cancel) := by
  unfold parsed answer after
  rcases hp : parseLine (t.before.textFor t.line) t.before.options t.before.settings
    t.before.lastSubstitution t.world with ⟨result,w⟩
  cases result with
  | ok parsed =>
    rw [Shell.process_ok hp]
    exact .inl ⟨parsed,rfl,rfl,rfl⟩
  | error e =>
    by_cases he : e = .incomplete
    · subst he
      rw [Shell.process_incomplete hp]
      exact .inr (.inl ⟨rfl,rfl⟩)
    · rw [Shell.process_error hp he]
      exact .inr (.inr ⟨e,rfl,rfl⟩)

/-- One turn adds what is remembered of it, and drops what there is no room for. -/
theorem history_after (t : Turn σ) :
    t.after.maxHistory = t.before.maxHistory ∧
      t.after.options.history =
        match t.remembered? with
        | some text => (t.before.options.history ++ [text]).rtake t.before.maxHistory
        | none => t.before.options.history := by
  obtain ⟨parsed,hparsed,hanswer,hafter⟩ | ⟨hanswer,hafter⟩ | ⟨e,hanswer,hafter⟩ := t.outcome
  · have hremembered : t.remembered? =
        if Text.isAllBlank parsed.expanded then none else some parsed.expanded := by
      unfold remembered?
      rw [hanswer,hparsed]
      generalize hinput : Shell.inputOf parsed = input
      cases input with
      | incomplete => exact absurd hinput (Shell.inputOf_ne_incomplete parsed)
      | empty | printOnly line | command tree => rfl
    rw [hafter,hremembered]
    refine ⟨rfl,?_⟩
    simp only [Shell.accept]
    split <;> rfl
  · rw [hafter,remembered?,hanswer]
    exact ⟨rfl,rfl⟩
  · rw [hafter,remembered?,hanswer]
    exact ⟨rfl,rfl⟩

/-- After a line that waits for more, another is taken in as both would be at once. -/
theorem process_after_incomplete {t : Turn σ} (h : t.answer = .ok .incomplete) (next : Text) :
    t.after.process next = t.before.process (t.line ++ '\n' :: next) ∧
      t.after.process next =
        t.before.cancel.process (t.before.textFor t.line ++ '\n' :: next) := by
  obtain ⟨parsed,-,hanswer,-⟩ | ⟨-,hafter⟩ | ⟨e,hanswer,-⟩ := t.outcome
  · exact absurd (Except.ok.inj (hanswer.symm.trans h)) (Shell.inputOf_ne_incomplete parsed)
  · have htext : t.before.textFor (t.line ++ '\n' :: next) =
        t.before.textFor t.line ++ '\n' :: next := by
      unfold Shell.textFor
      cases t.before.pending <;> simp
    constructor
    · unfold Shell.process
      rw [htext,hafter]
      rfl
    · rw [hafter]
      rfl
  · cases hanswer.symm.trans h

end Turn

/-- The part of a long list that is kept does not depend on what is dropped early. -/
theorem rtake_rtake_append {α : Type} (n : Nat) (as bs : List α) :
    (as.rtake n ++ bs).rtake n = (as ++ bs).rtake n := by
  simp only [List.rtake_eq_reverse_take_reverse,List.reverse_append,List.reverse_reverse,
    List.take_append,List.take_take]
  congr 3
  omega

namespace Shell

variable {σ : Type}

/-- A history behind which there are new lines, if it can hold that many. Without a new line
it stays as long as it is. -/
def extended (max : Nat) (history added : List Text) : List Text :=
  if added = [] then history else (history ++ added).rtake max

theorem extended_cons (max : Nat) (history added : List Text) (text : Text) :
    extended max ((history ++ [text]).rtake max) added = extended max history (text :: added) := by
  unfold extended
  rw [if_neg (List.cons_ne_nil text added)]
  split
  · next hnil => rw [hnil]
  · simp [rtake_rtake_append]

/-- Take in lines one after the other: every turn, and the session after the last of them. -/
def takeIn (s : Shell σ) (w : σ) : List Text → List (Turn σ) × Shell σ
  | [] => ([],s)
  | line :: lines =>
    let t : Turn σ := ⟨s,w,line⟩
    let rest := takeIn t.after t.worldAfter lines
    (t :: rest.1,rest.2)

/-- What is remembered after many turns: the end of all that was to be remembered. -/
theorem history_takeIn (s : Shell σ) (w : σ) (lines : List Text) :
    (s.takeIn w lines).2.options.history =
      extended s.maxHistory s.options.history
        ((s.takeIn w lines).1.filterMap Turn.remembered?) := by
  induction lines generalizing s w with
  | nil => rfl
  | cons line lines ih =>
    let t : Turn σ := ⟨s,w,line⟩
    obtain ⟨hmax,hhistory⟩ := t.history_after
    have hrest := ih t.after t.worldAfter
    rw [hmax,hhistory] at hrest
    show (t.after.takeIn t.worldAfter lines).2.options.history =
      extended _ _ ((t :: (t.after.takeIn t.worldAfter lines).1).filterMap Turn.remembered?)
    cases hremembered : t.remembered? with
    | none =>
      rw [hremembered] at hrest
      rw [List.filterMap_cons_none hremembered]
      exact hrest
    | some text =>
      rw [hremembered] at hrest
      rw [List.filterMap_cons_some hremembered]
      exact hrest.trans (extended_cons _ _ _ text)

/-- The history of a whole session, and what the turns in it do that are not remembered: an
error leaves nothing but the loss of lines that waited, and a line that waits for more changes
nothing but what waits, so that the next is taken in as both would be at once. -/
theorem session_history (s : Shell σ) (w : σ) (lines : List Text) :
    let turns := (s.takeIn w lines).1
    let remembered := turns.filterMap Turn.remembered?
    (s.takeIn w lines).2.options.history =
        (if remembered = [] then s.options.history
        else (s.options.history ++ remembered).rtake s.maxHistory) ∧
      ∀ t ∈ turns,
        (∀ e, t.answer = .error e → t.after = { t.before with pending := none }) ∧
        (t.answer = .ok .incomplete →
          t.after = { t.before with pending := some (t.before.textFor t.line) } ∧
          ∀ next,
            t.after.process next = t.before.process (t.line ++ '\n' :: next) ∧
            t.after.process next =
              t.before.cancel.process (t.before.textFor t.line ++ '\n' :: next)) := by
  refine ⟨s.history_takeIn w lines,fun t _ => ⟨fun e h => ?_,fun h => ⟨?_,fun next =>
    Turn.process_after_incomplete h next⟩⟩⟩
  all_goals obtain ⟨parsed,-,hanswer,-⟩ | ⟨hanswer,hafter⟩ | ⟨e',hanswer,hafter⟩ := t.outcome
  · cases hanswer.symm.trans h
  · cases hanswer.symm.trans h
  · exact hafter
  · exact absurd (Except.ok.inj (hanswer.symm.trans h)) (inputOf_ne_incomplete parsed)
  · exact hafter
  · cases hanswer.symm.trans h

end Shell
end Realm
