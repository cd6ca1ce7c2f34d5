import Realm.Pattern
import Realm.Table

/-! Threads: ways through a text, each at some place with goals that are left to be matched.
A thread goes on in at most two, and its goals stay among those of its pattern. -/
namespace Realm.Pattern

structure Place where
  previous : Option Char
  rest : Text
deriving DecidableEq, Repr

def isWordAt (unicode : Bool) : Option Char → Bool
  | some c => if unicode then CharClass.word.holds c else CharClass.asciiWord.holds c
  | none => false

def Look.holds (l : Look) (s : Place) : Bool :=
  let next := s.rest.head?
  let before := (isWordAt · s.previous)
  let after := (isWordAt · next)
  match l with
  | textStart => s.previous = none
  | textEnd => next = none
  | lineStart => s.previous = none || s.previous = some '\n'
  | lineEnd => next = none || next = some '\n'
  | returnLineStart =>
    s.previous = none || s.previous = some '\n' ||
      (s.previous = some '\r' && next ≠ some '\n')
  | returnLineEnd =>
    next = none || next = some '\r' || (next = some '\n' && s.previous ≠ some '\r')
  | wordBoundary u => before u != after u
  | notWordBoundary u => before u == after u
  | wordStart u => !before u && after u
  | wordEnd u => before u && !after u
  | wordStartHalf u => !before u
  | wordEndHalf u => !after u

inductive Goal where
  | part (p : Pattern)
  /-- Any number of further turns of a part. -/
  | again (p : Pattern) (greedy : Bool)
  /-- The end of a group. -/
  | close (name : Text)
  /-- The end of a second alternative, which tells its goals from those of the first. -/
  | join
deriving DecidableEq, Repr

/-- What is left if another turn is taken and if not, the preferred of the two first. -/
def inOrder (greedy : Bool) (turn skip : List Goal) : List (List Goal) :=
  if greedy then [turn,skip] else [skip,turn]

def afterTurn (p : Pattern) (min : Nat) (max : Option Nat) (greedy : Bool) : Goal :=
  if max = none ∧ min ≤ 1 then .again p greedy
  else .part (.repeated p (min - 1) (max.map (· - 1)) greedy)

/-- How to begin a repetition. Without bounds it is a loop; if a turn may match nothing, the
loop takes at least one turn, and the choice whether to enter it stands before it. -/
def beginTurns (p : Pattern) (min : Nat) (max : Option Nat) (greedy : Bool) (k : List Goal) :
    List (List Goal) :=
  let turn := .part p :: afterTurn p min max greedy :: k
  if max = some 0 then if min = 0 then [k] else []
  else if min ≠ 0 then [turn]
  else if max = none ∧ !p.isNullable then [.again p greedy :: k]
  else inOrder greedy turn k

/-- One way through a text. For a group that has begun, `opened` holds the text that was left
at its beginning. -/
structure Thread where
  goals : List Goal
  place : Place
  opened : Table Text Text := []
  captures : Table Text Text := []

namespace Thread

def go (t : Thread) (goals : List Goal) : Thread :=
  { t with goals }

/-- One step into a pattern with goals behind it. -/
def enter (t : Thread) (k : List Goal) : Pattern → List Thread
  | .empty => [t.go k]
  | .chars s =>
    match t.place.rest with
    | c :: rest => if s.holds c then [{ t with goals := k, place := ⟨some c,rest⟩ }] else []
    | [] => []
  | .look l => if l.holds t.place then [t.go k] else []
  | .seq p q => [t.go (.part p :: .part q :: k)]
  | .alt p q => [t.go (.part p :: k),t.go (.part q :: .join :: k)]
  | .group none p => [t.go (.part p :: k)]
  | .group (some name) p =>
    [{ t with
      goals := .part p :: .close name :: k
      opened := t.opened.insert name t.place.rest }]
  | .repeated p min max greedy => (beginTurns p min max greedy k).map t.go

def left (t : Thread) : Nat :=
  t.place.rest.length

def remember (t : Thread) (name : Text) : Thread :=
  let start := (t.opened.get? name).getD []
  let matched := start.take (start.length - t.left)
  { t with captures := t.captures.insert name matched }

/-- The threads in which a thread goes on, the preferred one first. -/
def steps (t : Thread) : List Thread :=
  match t.goals with
  | [] => []
  | .part p :: k => t.enter k p
  | .again p greedy :: k => (inOrder greedy (.part p :: .again p greedy :: k) k).map t.go
  | .close name :: k => [(t.remember name).go k]
  | .join :: k => [t.go k]

end Thread

@[simp] theorem length_inOrder (greedy : Bool) (a b : List Goal) :
    (inOrder greedy a b).length = 2 := by
  cases greedy <;> rfl

theorem length_beginTurns_le (p : Pattern) (min : Nat) (max : Option Nat) (greedy : Bool)
    (k : List Goal) : (beginTurns p min max greedy k).length ≤ 2 := by
  unfold beginTurns
  repeat' split
  all_goals simp

theorem Thread.length_enter_le (t : Thread) (k : List Goal) (p : Pattern) :
    (t.enter k p).length ≤ 2 := by
  cases p with
  | empty => simp [enter]
  | chars s =>
    simp only [enter]
    split
    · split <;> simp
    · simp
  | look l =>
    simp only [enter]
    split <;> simp
  | seq p q => simp [enter]
  | alt p q => simp [enter]
  | group name p => cases name <;> simp [enter]
  | repeated p min max greedy => simpa [enter] using length_beginTurns_le p min max greedy k

theorem Thread.length_steps_le (t : Thread) : t.steps.length ≤ 2 := by
  unfold steps
  split
  · simp
  · exact t.length_enter_le _ _
  · simp
  · simp
  · simp

def leftovers (p : Pattern) (min : Nat) (max : Option Nat) (greedy : Bool) : List Goal :=
  .again p greedy :: (List.range (max.getD min)).map fun n =>
    .part (.repeated p (min - (n + 1)) (max.map (· - (n + 1))) greedy)

theorem afterTurn_mem_leftovers (p : Pattern) (min : Nat) (max : Option Nat) (greedy : Bool)
    (n : Nat) (h : max.map (· - n) ≠ some 0) :
    afterTurn p (min - n) (max.map (· - n)) greedy ∈ leftovers p min max greedy := by
  unfold afterTurn leftovers
  split
  · simp
  · refine List.mem_cons_of_mem _ (List.mem_map.2 ⟨n,?_,?_⟩)
    · cases max <;> simp_all <;> omega
    · cases max <;> simp <;> omega

/-- After any number of turns, a repetition goes on to its end, to its loop or to another
turn. -/
theorem mem_beginTurns {p : Pattern} {min : Nat} {max : Option Nat} {greedy : Bool} {n : Nat}
    {k goals : List Goal} (h : goals ∈ beginTurns p (min - n) (max.map (· - n)) greedy k) :
    goals = k ∨
      ∃ g ∈ leftovers p min max greedy, goals = g :: k ∨ goals = .part p :: g :: k := by
  have ha := afterTurn_mem_leftovers p min max greedy n
  unfold beginTurns at h
  split at h
  · split at h <;> simp_all
  · rename_i hz
    have ha := ha hz
    split at h
    · exact .inr ⟨_,ha,.inr (List.mem_singleton.1 h)⟩
    · split at h
      · exact .inr ⟨_,List.mem_cons_self,.inl (List.mem_singleton.1 h)⟩
      · have : goals = .part p :: afterTurn p (min - n) (max.map (· - n)) greedy :: k ∨
            goals = k := by
          cases greedy <;> simp [inOrder] at h <;> simp [h,or_comm]
        rcases this with h | h
        · exact .inr ⟨_,ha,.inr h⟩
        · exact .inl h

/-- All goals that can be left on the way through a pattern with goals behind it, these
alone left out. -/
def states (p : Pattern) (k : List Goal) : List (List Goal) :=
  (.part p :: k) ::
    match p with
    | empty | chars _ | look _ => []
    | seq p q => p.states (.part q :: k) ++ q.states k
    | alt p q => p.states k ++ (.join :: k) :: q.states (.join :: k)
    | group none p => p.states k
    | group (some name) p => (.close name :: k) :: p.states (.close name :: k)
    | repeated p min max greedy =>
      (leftovers p min max greedy).flatMap fun g => (g :: k) :: p.states (g :: k)

theorem mem_states (p : Pattern) (k : List Goal) : (.part p :: k) ∈ p.states k := by
  cases p with
  | group name p => cases name <;> simp [states]
  | _ => simp [states]

theorem mem_states_repeated {p : Pattern} {min : Nat} {max : Option Nat} {greedy : Bool}
    {k goals : List Goal} :
    goals ∈ (repeated p min max greedy).states k ↔
      goals = .part (.repeated p min max greedy) :: k ∨
        ∃ g ∈ leftovers p min max greedy, goals = g :: k ∨ goals ∈ p.states (g :: k) := by
  simp [states]

theorem Thread.goals_mem_states {t t' : Thread} (h : t' ∈ t.steps) (p : Pattern)
    (k : List Goal) (hs : t.goals ∈ p.states k) : t'.goals ∈ p.states k ∨ t'.goals = k := by
  induction p generalizing k with
  | empty =>
    simp only [states,List.mem_singleton] at hs
    simp only [steps,hs,enter,List.mem_singleton] at h
    simp [h,go]
  | chars s =>
    simp only [states,List.mem_singleton] at hs
    simp only [steps,hs,enter] at h
    split at h
    · split at h <;> simp_all
    · simp at h
  | look l =>
    simp only [states,List.mem_singleton] at hs
    simp only [steps,hs,enter] at h
    split at h
    · simp_all [go]
    · simp at h
  | seq p q ihp ihq =>
    simp only [states,List.mem_cons,List.mem_append] at hs ⊢
    rcases hs with hs | hs | hs
    · simp only [steps,hs,enter,List.mem_singleton] at h
      simp [h,go,mem_states]
    · rcases ihp _ hs with h | h
      · simp [h]
      · simp [h,mem_states]
    · rcases ihq _ hs with h | h <;> simp [h]
  | alt p q ihp ihq =>
    simp only [states,List.mem_cons,List.mem_append] at hs ⊢
    rcases hs with hs | hs | hs | hs
    · simp only [steps,hs,enter,List.mem_cons,List.not_mem_nil,or_false] at h
      rcases h with h | h <;> simp [h,go,mem_states]
    · rcases ihp _ hs with h | h <;> simp [h]
    · simp only [steps,hs,List.mem_singleton] at h
      simp [h,go]
    · rcases ihq _ hs with h | h <;> simp [h]
  | group name p ih =>
    cases name with
    | none =>
      simp only [states,List.mem_cons] at hs ⊢
      rcases hs with hs | hs
      · simp only [steps,hs,enter,List.mem_singleton] at h
        simp [h,go,mem_states]
      · rcases ih _ hs with h | h <;> simp [h]
    | some name =>
      simp only [states,List.mem_cons] at hs ⊢
      rcases hs with hs | hs | hs
      · simp only [steps,hs,enter,List.mem_singleton] at h
        simp [h,mem_states]
      · simp only [steps,hs,List.mem_singleton] at h
        simp [h,go]
      · rcases ih _ hs with h | h <;> simp [h]
  | repeated p min max greedy ih =>
    have turns (n : Nat)
        (hg : t.goals = .part (.repeated p (min - n) (max.map (· - n)) greedy) :: k) :
        t'.goals ∈ (repeated p min max greedy).states k ∨ t'.goals = k := by
      simp only [steps,hg,enter,List.mem_map] at h
      obtain ⟨goals,hb,rfl⟩ := h
      rw [mem_states_repeated]
      rcases mem_beginTurns hb with rfl | ⟨g,hm,rfl | rfl⟩
      · exact .inr rfl
      · exact .inl (.inr ⟨g,hm,.inl rfl⟩)
      · exact .inl (.inr ⟨g,hm,.inr (mem_states p _)⟩)
    rcases mem_states_repeated.1 hs with hs | ⟨g,hm,hs | hs⟩
    · exact turns 0 (by cases max <;> simpa using hs)
    · rcases List.mem_cons.1 hm with rfl | hr
      · simp only [steps,hs,List.mem_map] at h
        obtain ⟨goals,hb,rfl⟩ := h
        rw [mem_states_repeated]
        have : goals = .part p :: .again p greedy :: k ∨ goals = k := by
          cases greedy <;> simp [inOrder] at hb <;> simp [hb,or_comm]
        rcases this with rfl | rfl
        · exact .inl (.inr ⟨_,hm,.inr (mem_states p _)⟩)
        · exact .inr rfl
      · obtain ⟨n,_,rfl⟩ := List.mem_map.1 hr
        exact turns (n + 1) hs
    · rw [mem_states_repeated]
      rcases ih _ hs with h | h
      · exact .inl (.inr ⟨g,hm,.inr h⟩)
      · exact .inl (.inr ⟨g,hm,.inl h⟩)

end Realm.Pattern
