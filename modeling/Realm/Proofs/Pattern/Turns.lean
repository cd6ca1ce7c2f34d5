import Realm.Proofs.Pattern.Reading

/-! Reading a pattern turn by turn. A turn takes a character and what belongs to it, and what is
behind has no part in it. -/
namespace Realm.Pattern

variable {t tail middle rest : Text}

namespace State

section Turns

variable {s s' : State} {c : Char}

theorem local_readRepetition (min : Nat) (max : Option Nat) : Local (s.readRepetition min max) :=
  local_readLaziness.filterMap (g := s.repeatLast? min max)

theorem skipBlanks_suffix_of_blank {flags : Flags}
    (hblank : (flags.ignoreBlanks && (Text.isBlank c || c = '#')) = true) (t : Text) :
    skipBlanks flags (c :: t) <:+ t := by
  simp only [Bool.and_eq_true,Bool.or_eq_true,decide_eq_true_eq] at hblank
  rw [skipBlanks,if_pos hblank.1,skipBlanks.go,if_neg Bool.false_ne_true]
  split
  · exact skipBlanks_go_suffix false t
  · next hb =>
    rw [if_pos (hblank.2.resolve_left hb)]
    exact skipBlanks_go_suffix true t

theorem local_blanks (hblank : (s.flags.ignoreBlanks && (Text.isBlank c || c = '#')) = true) :
    Local fun t => some (s,skipBlanks s.flags (c :: t)) := by
  refine ((local_skipBlanks s.flags).map (g := fun _ => s)).behind fun t x h => ?_
  have hrest : skipBlanks s.flags (c :: t) = c :: t := (Prod.mk.inj (Option.some.inj h)).2
  have hlength := (skipBlanks_suffix_of_blank hblank t).length_le
  rw [hrest,List.length_cons] at hlength
  omega

theorem local_still (s : Option State) : Local fun t => s.map (·,t) := by
  cases s with
  | none => exact .none
  | some s => exact .pure s

/-- What is behind a turn has no part in it, unless the turn is an escape. -/
theorem local_turn? (hc : c ≠ '\\') : Local (s.turn? c) := by
  unfold turn?
  split
  · next hblank => exact local_blanks hblank
  split
  · exact ((local_skipBlanks s.flags).bind fun _ => local_readGroupStart).filterMap
  · exact local_still _
  · exact .pure _
  · exact local_readSet.filterMap (g := s.pushSet?)
  · exact local_readRepetition 0 none
  · exact local_readRepetition 1 none
  · exact local_readRepetition 0 (some 1)
  · exact ((local_skipBlanks s.flags).bind fun _ => local_readBounds).bind fun bounds =>
      (local_skipBlanks s.flags).bind fun _ => local_readRepetition bounds.1 bounds.2
  · exact absurd rfl hc
  · exact local_still _
  all_goals exact .pure _

theorem not_blanks {flags : Flags} (hc : (Text.isBlank c || c = '#') = false) :
    ¬(flags.ignoreBlanks && (Text.isBlank c || c = '#')) = true := by
  rw [hc,Bool.and_false]
  exact Bool.false_ne_true

@[simp] theorem turn?_escape (t : Text) :
    s.turn? '\\' t = (readEscaped s.flags t).map fun r => (s.push r.1,r.2) := by
  rw [turn?,if_neg (not_blanks rfl)]

theorem turn?_suffix (h : s.turn? c t = some (s',rest)) : rest <:+ t := by
  by_cases hc : c = '\\'
  · rw [hc,turn?_escape] at h
    obtain ⟨r,hr,heq⟩ := Option.map_eq_some_iff.1 h
    cases heq
    exact readEscaped_suffix hr
  · exact (local_turn? hc).suffix h

/-- What is behind a turn has no part in it, unless that is all that follows a brace. -/
theorem turn?_cut (h : s.turn? c (t ++ tail) = some (s',middle ++ tail))
    (hmiddle : middle ≠ ['\x7b']) : s.turn? c t = some (s',middle) := by
  by_cases hc : c = '\\'
  · rw [hc,turn?_escape] at h
    obtain ⟨⟨p,left⟩,hr,heq⟩ := Option.map_eq_some_iff.1 h
    obtain ⟨rfl,rfl⟩ := Prod.mk.inj heq
    rw [hc,turn?_escape,readEscaped_cut hr hmiddle]
    rfl
  · exact (local_turn? hc).cut h

/-- Patterns are read turn by turn. -/
theorem read_cons (s : State) (c : Char) (t : Text) :
    s.read (c :: t) = (s.turn? c t).bind fun r => r.1.read r.2 := by
  rw [read]
  cases hturn : s.turn? c t with
  | none => rfl
  | some r =>
    dsimp only
    rw [drop_of_suffix (turn?_suffix hturn)]
    rfl

@[simp] theorem read_nil (s : State) :
    s.read [] = if s.outer.isEmpty then some s.level.finish else none := by
  rw [read]

@[simp] theorem turn?_close (t : Text) : s.turn? ')' t = s.leave?.map (·,t) := by
  rw [turn?,if_neg (not_blanks rfl)]

@[simp] theorem turn?_end (t : Text) :
    s.turn? '$' t = some (s.push (.look (endLook s.flags)),t) := by
  rw [turn?,if_neg (not_blanks rfl)]

@[simp] theorem read_brace (s : State) : s.read ['\x7b'] = none := by
  have hturn : s.turn? '\x7b' [] = none := by
    rw [turn?,if_neg (not_blanks rfl),List.suffix_nil.1 (skipBlanks_suffix s.flags [])]
    rfl
  rw [read_cons,hturn]
  rfl

end Turns

end State

end Realm.Pattern
