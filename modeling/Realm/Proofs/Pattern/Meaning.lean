import Realm.Pattern.Search

/-! What patterns match, and that the search finds it. A pattern matches the text between two
places. The goals of a thread are met by the text up to a place exactly when its steps lead there,
and threads that are passed over because others have had the same goals at the same place could
not have come further. -/
namespace Realm.Pattern

/-- The text between two places is matched by a pattern. -/
inductive Spans : Pattern → Place → Place → Prop
  | empty {s : Place} : Spans .empty s s
  | chars {set : CharSet} {c : Char} {rest : Text} {previous : Option Char} :
    set.holds c = true → Spans (.chars set) ⟨previous,c :: rest⟩ ⟨some c,rest⟩
  | look {l : Look} {s : Place} : l.holds s = true → Spans (.look l) s s
  | seq {p q : Pattern} {a b c : Place} : Spans p a b → Spans q b c → Spans (.seq p q) a c
  | left {p q : Pattern} {a b : Place} : Spans p a b → Spans (.alt p q) a b
  | right {p q : Pattern} {a b : Place} : Spans q a b → Spans (.alt p q) a b
  | group {name : Option Text} {p : Pattern} {a b : Place} : Spans p a b →
    Spans (.group name p) a b
  | noTurn {p : Pattern} {max : Option Nat} {greedy : Bool} {s : Place} :
    Spans (.repeated p 0 max greedy) s s
  | turn {p : Pattern} {min : Nat} {max : Option Nat} {greedy : Bool} {a b c : Place} :
    max ≠ some 0 → Spans p a b → Spans (.repeated p (min - 1) (max.map (· - 1)) greedy) b c →
    Spans (.repeated p min max greedy) a c

/-- A place of a text: the part before it is not looked at any more, except for its last
character. -/
def IsPlace (t : Text) (s : Place) : Prop :=
  ∃ before, t = before ++ s.rest ∧ s.previous = before.getLast?

section Places

variable {t : Text} {s s' : Place}

theorem isPlace_start (t : Text) : IsPlace t ⟨none,t⟩ :=
  ⟨[],rfl,rfl⟩

theorem IsPlace.start (h : IsPlace t s) (hnone : s.previous = none) : s = ⟨none,t⟩ := by
  obtain ⟨before,rfl,hlast⟩ := h
  rw [hnone] at hlast
  rw [List.getLast?_eq_none_iff.1 hlast.symm,List.nil_append,← hnone]

theorem IsPlace.ext (h : IsPlace t s) (h' : IsPlace t s')
    (hleft : s.rest.length = s'.rest.length) : s = s' := by
  obtain ⟨before,rfl,hlast⟩ := h
  obtain ⟨before',heq,hlast'⟩ := h'
  obtain ⟨rfl,hrest⟩ := List.append_inj' heq hleft
  cases s
  cases s'
  rw [Place.mk.injEq]
  exact ⟨hlast.trans hlast'.symm,hrest⟩

theorem IsPlace.advance {c : Char} {rest : Text} {previous : Option Char}
    (h : IsPlace t ⟨previous,c :: rest⟩) : IsPlace t ⟨some c,rest⟩ := by
  obtain ⟨before,rfl,-⟩ := h
  exact ⟨before ++ [c],List.append_cons ..,List.getLast?_concat.symm⟩

theorem IsPlace.length_le (h : IsPlace t s) : s.rest.length ≤ t.length := by
  obtain ⟨before,rfl,-⟩ := h
  rw [List.length_append]
  exact Nat.le_add_left _ _

theorem Spans.middle {p : Pattern} (h : Spans p s s') :
    ∃ middle, s.rest = middle ++ s'.rest ∧ s'.previous = middle.getLast?.or s.previous := by
  induction h with
  | empty | look _ | noTurn => exact ⟨[],rfl,rfl⟩
  | chars _ => exact ⟨[_],rfl,rfl⟩
  | left _ ih | right _ ih | group _ ih => exact ih
  | seq _ _ ihp ihq | turn _ _ _ ihp ihq =>
    obtain ⟨front,hfront,hlast⟩ := ihp
    obtain ⟨back,hback,hlast'⟩ := ihq
    refine ⟨front ++ back,by rw [hfront,hback,List.append_assoc],?_⟩
    rw [hlast',hlast,List.getLast?_append,Option.or_assoc]

end Places

section Goals

/-- Goals are met one after the other by the text between two places. -/
inductive Meets : List Goal → Place → Place → Prop
  | nil {s : Place} : Meets [] s s
  | part {p : Pattern} {k : List Goal} {a b c : Place} : Spans p a b → Meets k b c →
    Meets (.part p :: k) a c
  | again {p : Pattern} {greedy : Bool} {k : List Goal} {a b c : Place} :
    Spans (.repeated p 0 none greedy) a b → Meets k b c → Meets (.again p greedy :: k) a c
  | close {name : Text} {k : List Goal} {a b : Place} : Meets k a b →
    Meets (.close name :: k) a b
  | join {k : List Goal} {a b : Place} : Meets k a b → Meets (.join :: k) a b

variable {p : Pattern} {k : List Goal} {min : Nat} {max : Option Nat} {greedy : Bool}
  {a b : Place}

@[simp] theorem mem_inOrder {turn skip goals : List Goal} :
    goals ∈ inOrder greedy turn skip ↔ goals = turn ∨ goals = skip := by
  cases greedy <;> simp [inOrder,or_comm]

/-- What is left of a repetition after a turn is a repetition with one turn less. -/
theorem meets_afterTurn (h : Meets (afterTurn p min max greedy :: k) a b) :
    ∃ c, Spans (.repeated p (min - 1) (max.map (· - 1)) greedy) a c ∧ Meets k c b := by
  unfold afterTurn at h
  split at h
  · next hloop =>
    obtain ⟨rfl,hmin⟩ := hloop
    rw [Nat.sub_eq_zero_of_le hmin]
    cases h with
    | again hspans hk => exact ⟨_,hspans,hk⟩
  · cases h with
    | part hspans hk => exact ⟨_,hspans,hk⟩

theorem meets_beginTurns {goals : List Goal} (hmem : goals ∈ beginTurns p min max greedy k)
    (h : Meets goals a b) : Meets (.part (.repeated p min max greedy) :: k) a b := by
  have hturn (hmax : max ≠ some 0) (h : Meets (.part p :: afterTurn p min max greedy :: k) a b) :
      Meets (.part (.repeated p min max greedy) :: k) a b := by
    cases h with
    | part hspans hk =>
      obtain ⟨c,hmore,hk⟩ := meets_afterTurn hk
      exact .part (.turn hmax hspans hmore) hk
  unfold beginTurns at hmem
  split at hmem
  · split at hmem
    · next hmin =>
      rw [List.mem_singleton.1 hmem] at h
      rw [hmin]
      exact .part .noTurn h
    · cases hmem
  · next hmax =>
    split at hmem
    · rw [List.mem_singleton.1 hmem] at h
      exact hturn hmax h
    · next hmin =>
      obtain rfl : min = 0 := Decidable.not_not.1 hmin
      split at hmem
      · next hloop =>
        rw [List.mem_singleton.1 hmem] at h
        rw [hloop.1]
        cases h with
        | again hspans hk => exact .part hspans hk
      · rcases mem_inOrder.1 hmem with rfl | rfl
        · exact hturn hmax h
        · exact .part .noTurn h

theorem Thread.meets_of_enter {t u : Thread} (hu : u ∈ t.enter k p)
    (h : Meets u.goals u.place b) : Meets (.part p :: k) t.place b := by
  cases p with
  | empty =>
    cases List.mem_singleton.1 hu
    exact .part .empty h
  | chars set =>
    rw [enter] at hu
    split at hu
    · next c rest hrest =>
      split at hu
      · next hc =>
        cases List.mem_singleton.1 hu
        have hplace : t.place = ⟨t.place.previous,c :: rest⟩ := by rw [← hrest]
        rw [hplace]
        exact .part (.chars hc) h
      · cases hu
    · cases hu
  | look l =>
    rw [enter] at hu
    split at hu
    · next hl =>
      cases List.mem_singleton.1 hu
      exact .part (.look hl) h
    · cases hu
  | seq p q =>
    cases List.mem_singleton.1 hu
    cases h with
    | part hp hk =>
      cases hk with
      | part hq hk => exact .part (.seq hp hq) hk
  | alt p q =>
    simp only [enter,List.mem_cons,List.not_mem_nil,or_false] at hu
    rcases hu with rfl | rfl
    · cases h with
      | part hp hk => exact .part (.left hp) hk
    · cases h with
      | part hq hk =>
        cases hk with
        | join hk => exact .part (.right hq) hk
  | group name p =>
    cases name with
    | none =>
      cases List.mem_singleton.1 hu
      cases h with
      | part hp hk => exact .part (.group hp) hk
    | some name =>
      cases List.mem_singleton.1 hu
      cases h with
      | part hp hk =>
        cases hk with
        | close hk => exact .part (.group hp) hk
  | repeated p min max greedy =>
    obtain ⟨goals,hmem,rfl⟩ := List.mem_map.1 hu
    exact meets_beginTurns hmem h

theorem Thread.meets_of_steps {t u : Thread} (hu : u ∈ t.steps) (h : Meets u.goals u.place b) :
    Meets t.goals t.place b := by
  rw [steps] at hu
  split at hu
  · cases hu
  · next hgoals =>
    rw [hgoals]
    exact meets_of_enter hu h
  · next p greedy k hgoals =>
    rw [hgoals]
    obtain ⟨goals,hmem,rfl⟩ := List.mem_map.1 hu
    rcases mem_inOrder.1 hmem with rfl | rfl
    · cases h with
      | part hp hk =>
        cases hk with
        | again hmore hk => exact .again (.turn (Option.some_ne_none 0).symm hp hmore) hk
    · exact .again .noTurn h
  · next hgoals =>
    cases List.mem_singleton.1 hu
    rw [hgoals]
    exact .close h
  · next hgoals =>
    cases List.mem_singleton.1 hu
    rw [hgoals]
    exact .join h

end Goals

section Steps

def Thread.state (t : Thread) : List Goal × Place :=
  (t.goals,t.place)

theorem Thread.states_steps {t u : Thread} (h : t.state = u.state) :
    t.steps.map state = u.steps.map state := by
  obtain ⟨goals,place,opened,captures⟩ := t
  obtain ⟨goals',place',opened',captures'⟩ := u
  obtain ⟨rfl,rfl⟩ := Prod.mk.inj h
  cases goals with
  | nil => rfl
  | cons goal k =>
    cases goal with
    | part p =>
      cases p with
      | chars set =>
        simp only [steps,enter]
        split
        · split <;> rfl
        · rfl
      | look l =>
        simp only [steps,enter]
        split <;> rfl
      | group name p => cases name <;> rfl
      | repeated p min max greedy =>
        simp only [steps,enter,List.map_map]
        rfl
      | _ => rfl
    | again p greedy =>
      simp only [steps,List.map_map]
      rfl
    | _ => rfl

theorem Thread.isPlace_steps {text : Text} {t u : Thread} (hu : u ∈ t.steps)
    (h : IsPlace text t.place) : IsPlace text u.place := by
  have hgo {lists : List (List Goal)} (hu : u ∈ lists.map t.go) : IsPlace text u.place := by
    obtain ⟨goals,-,rfl⟩ := List.mem_map.1 hu
    exact h
  rw [steps] at hu
  split at hu
  · cases hu
  · next p k _ =>
    cases p with
    | chars set =>
      rw [enter] at hu
      split at hu
      · next c rest hrest =>
        split at hu
        · cases List.mem_singleton.1 hu
          have hplace : t.place = ⟨t.place.previous,c :: rest⟩ := by rw [← hrest]
          rw [hplace] at h
          exact h.advance
        · cases hu
      · cases hu
    | look l =>
      rw [enter] at hu
      split at hu
      · cases List.mem_singleton.1 hu
        exact h
      · cases hu
    | group name p => cases name <;> cases List.mem_singleton.1 hu <;> exact h
    | empty | seq =>
      cases List.mem_singleton.1 hu
      exact h
    | alt p q =>
      simp only [enter,List.mem_cons,List.not_mem_nil,or_false] at hu
      rcases hu with rfl | rfl <;> exact h
    | repeated => exact hgo hu
  · exact hgo hu
  · cases List.mem_singleton.1 hu
    exact h
  · cases List.mem_singleton.1 hu
    exact h

inductive Leads : List Goal × Place → List Goal × Place → Prop
  | refl {s : List Goal × Place} : Leads s s
  | step {t u : Thread} {s : List Goal × Place} : u ∈ t.steps → Leads u.state s → Leads t.state s

theorem Leads.trans {s s' s'' : List Goal × Place} (h : Leads s s') (h' : Leads s' s'') :
    Leads s s'' := by
  induction h with
  | refl => exact h'
  | step hu _ ih => exact .step hu (ih h')

variable {p : Pattern} {k goals : List Goal} {min : Nat} {max : Option Nat} {greedy : Bool}
  {a b : Place} {s : List Goal × Place}

/-- Beginning a repetition is a choice, unless its bounds or its form leave none. -/
theorem beginTurns_choice (hmax : max ≠ some 0) (hbare : ¬ (max = none ∧ p.isNullable = false)) :
    beginTurns p 0 max greedy k =
      inOrder greedy (.part p :: afterTurn p 0 max greedy :: k) k := by
  rw [beginTurns,if_neg hmax,if_neg (not_not_intro rfl),if_neg (by simpa using hbare)]

theorem leads_beginTurns (hmem : goals ∈ beginTurns p min max greedy k)
    (h : Leads (goals,a) s) : Leads (.part (.repeated p min max greedy) :: k,a) s :=
  .step (t := ⟨.part (.repeated p min max greedy) :: k,a,[],[]⟩) (List.mem_map_of_mem hmem) h

theorem leads_again (hmem : goals ∈ inOrder greedy (.part p :: .again p greedy :: k) k)
    (h : Leads (goals,a) s) : Leads (.again p greedy :: k,a) s :=
  .step (t := ⟨.again p greedy :: k,a,[],[]⟩) (List.mem_map_of_mem hmem) h

theorem leads_again_none : Leads (.again p greedy :: k,a) (k,a) :=
  leads_again (mem_inOrder.2 (.inr rfl)) .refl

theorem leads_noTurn : Leads (.part (.repeated p 0 max greedy) :: k,a) (k,a) := by
  by_cases hmax : max = some 0
  · exact leads_beginTurns (by simp [beginTurns,hmax]) .refl
  · by_cases hbare : max = none ∧ p.isNullable = false
    · have hloop : Leads (.again p greedy :: k,a) (k,a) := leads_again_none
      exact leads_beginTurns (by simp [beginTurns,hbare]) hloop
    · refine leads_beginTurns ?_ .refl
      rw [beginTurns_choice hmax hbare]
      exact mem_inOrder.2 (.inr rfl)

/-- A repetition that may have a turn begins with it, in its loop if it is bare. -/
theorem leads_turn (hmax : max ≠ some 0)
    (hturn : Leads (.part p :: afterTurn p min max greedy :: k,a) s)
    (hagain : min = 0 → max = none → Leads (.again p greedy :: k,a) s) :
    Leads (.part (.repeated p min max greedy) :: k,a) s := by
  by_cases hmin : min = 0
  · by_cases hbare : max = none ∧ p.isNullable = false
    · exact leads_beginTurns (by simp [beginTurns,hmin,hbare]) (hagain hmin hbare.1)
    · refine leads_beginTurns ?_ hturn
      rw [hmin,beginTurns_choice hmax hbare]
      exact mem_inOrder.2 (.inl rfl)
  · exact leads_beginTurns (by simp [beginTurns,hmin,hmax]) hturn

/-- Threads go through what a pattern matches, whatever is behind it, and so do those that are in
the loop of a repetition without bounds. -/
theorem Spans.leads (h : Spans p a b) (k : List Goal) :
    Leads (.part p :: k,a) (k,b) ∧
      ∀ q greedy, p = .repeated q 0 none greedy → Leads (.again q greedy :: k,a) (k,b) := by
  induction h generalizing k with
  | @empty s =>
    exact ⟨.step (t := ⟨.part .empty :: k,s,[],[]⟩) (.head _) .refl,fun _ _ heq => by cases heq⟩
  | @chars set c rest previous hc =>
    have hstep : ⟨k,⟨some c,rest⟩,[],[]⟩ ∈
        (⟨.part (.chars set) :: k,⟨previous,c :: rest⟩,[],[]⟩ : Thread).steps := by
      simp only [Thread.steps,Thread.enter,hc,if_true]
      exact .head _
    exact ⟨.step hstep .refl,fun _ _ heq => by cases heq⟩
  | @look l s hl =>
    have hstep : ⟨k,s,[],[]⟩ ∈ (⟨.part (.look l) :: k,s,[],[]⟩ : Thread).steps := by
      simp only [Thread.steps,Thread.enter,hl,if_true]
      exact .head _
    exact ⟨.step hstep .refl,fun _ _ heq => by cases heq⟩
  | @seq p q a b c _ _ ihp ihq =>
    refine ⟨.step (t := ⟨.part (.seq p q) :: k,a,[],[]⟩) (.head _) ?_,fun _ _ heq => by cases heq⟩
    exact (ihp (.part q :: k)).1.trans (ihq k).1
  | @left p q a b _ ih =>
    refine ⟨.step (t := ⟨.part (.alt p q) :: k,a,[],[]⟩) (.head _) ?_,fun _ _ heq => by cases heq⟩
    exact (ih k).1
  | @right p q a b _ ih =>
    refine ⟨?_,fun _ _ heq => by cases heq⟩
    refine .step (t := ⟨.part (.alt p q) :: k,a,[],[]⟩) (.tail _ (.head _)) ?_
    exact (ih (.join :: k)).1.trans (.step (t := ⟨.join :: k,b,[],[]⟩) (.head _) .refl)
  | @group name p a b _ ih =>
    refine ⟨?_,fun _ _ heq => by cases heq⟩
    cases name with
    | none => exact .step (t := ⟨.part (.group none p) :: k,a,[],[]⟩) (.head _) (ih k).1
    | some name =>
      refine .step (t := ⟨.part (.group (some name) p) :: k,a,[],[]⟩) (.head _) ?_
      exact (ih (.close name :: k)).1.trans
        (.step (t := ⟨.close name :: k,b,[],[]⟩) (.head _) .refl)
  | @noTurn p max greedy s =>
    refine ⟨leads_noTurn,?_⟩
    rintro _ _ ⟨⟩
    exact leads_again_none
  | @turn p min max greedy a b c hmax _ _ ihp ih =>
    have hloop (hmin : min ≤ 1) (hnone : max = none) :
        Leads (.again p greedy :: k,b) (k,c) := by
      refine (ih k).2 p greedy ?_
      rw [hnone,Nat.sub_eq_zero_of_le hmin]
      rfl
    have hturn : Leads (.part p :: afterTurn p min max greedy :: k,a) (k,c) := by
      refine (ihp _).1.trans ?_
      unfold afterTurn
      split
      · next h => exact hloop h.2 h.1
      · exact (ih k).1
    have hagain (hmin : min = 0) (hnone : max = none) : Leads (.again p greedy :: k,a) (k,c) :=
      leads_again (mem_inOrder.2 (.inl rfl))
        ((ihp _).1.trans (hloop (Nat.le_trans (Nat.le_of_eq hmin) (Nat.zero_le 1)) hnone))
    refine ⟨leads_turn hmax hturn hagain,?_⟩
    rintro _ _ ⟨⟩
    exact hagain rfl rfl

end Steps

section Search

variable {text : Text} {p : Pattern} {fresh : Fresh} {threads : List Thread}

/-- A thread that the search brings to its end meets its goals. -/
theorem meets_of_search {found : Table Text Text} (h : search fresh threads = some found) :
    ∃ t ∈ threads, ∃ b, Meets t.goals t.place b := by
  fun_induction search fresh threads with
  | case1 => cases h
  | case2 fresh t others hnil =>
    rw [List.isEmpty_iff] at hnil
    refine ⟨t,.head _,t.place,?_⟩
    rw [hnil]
    exact .nil
  | case3 fresh t others _ _ ih =>
    obtain ⟨u,hmem,b,hmeets⟩ := ih h
    rcases List.mem_append.1 hmem with hu | hu
    · exact ⟨t,.head _,b,Thread.meets_of_steps hu hmeets⟩
    · exact ⟨u,.tail _ hu,b,hmeets⟩
  | case4 fresh t others _ _ ih =>
    obtain ⟨u,hmem,hu⟩ := ih h
    exact ⟨u,.tail _ hmem,hu⟩

@[simp] theorem Fresh.has_strike {left left' : Nat} {goals goals' : List Goal} :
    (fresh.strike left goals).has left' goals' = true ↔
      fresh.has left' goals' = true ∧ (left',goals') ≠ (left,goals) := by
  induction fresh generalizing left left' with
  | nil => simp [strike,has]
  | cons states fresh ih =>
    cases left with
    | zero => cases left' <;> simp [strike,has]
    | succ left =>
      cases left' with
      | zero => simp [strike,has]
      | succ left' => simpa [strike,has] using @ih left left'

/-- Whether a thread has come to a state that is not the end of the search. -/
def Passed (fresh : Fresh) (s : List Goal × Place) : Prop :=
  s.1 ≠ [] ∧ fresh.has s.2.rest.length s.1 = false

/-- When a search has come to nothing, threads have passed all states that it began with, and with
each state that was new also those to which it leads. -/
theorem exists_passed (h : search fresh threads = none)
    (hplaces : ∀ t ∈ threads, IsPlace text t.place) :
    ∃ fresh' : Fresh, (∀ t ∈ threads, Passed fresh' t.state) ∧
      (∀ left goals, fresh'.has left goals = true → fresh.has left goals = true) ∧
      ∀ t : Thread, IsPlace text t.place → fresh.has t.left t.goals = true →
        fresh'.has t.left t.goals = false → ∀ u ∈ t.steps, Passed fresh' u.state := by
  fun_induction search fresh threads with
  | case1 fresh =>
    refine ⟨fresh,List.forall_mem_nil _,fun _ _ h => h,fun t _ hhas hnot => ?_⟩
    rw [hhas] at hnot
    cases hnot
  | case2 => cases h
  | case3 fresh t others hgoals hhas ih =>
    obtain ⟨hplace,hothers⟩ := List.forall_mem_cons.1 hplaces
    obtain ⟨fresh',hpassed,hsub,hclosed⟩ := ih h
      (List.forall_mem_append.2 ⟨fun u hu => Thread.isPlace_steps hu hplace,hothers⟩)
    obtain ⟨hsteps,hothers⟩ := List.forall_mem_append.1 hpassed
    refine ⟨fresh',List.forall_mem_cons.2 ⟨⟨?_,?_⟩,hothers⟩,?_,?_⟩
    · rintro hnil
      exact hgoals (List.isEmpty_iff.2 hnil)
    · exact Bool.eq_false_iff.2 fun h' => (Fresh.has_strike.1 (hsub _ _ h')).2 rfl
    · exact fun left goals h' => (Fresh.has_strike.1 (hsub left goals h')).1
    · intro t' hplace' hhas' hnot u hu
      by_cases hsame : (t'.left,t'.goals) = (t.left,t.goals)
      · -- The state that has just been struck off: there is but one place with so much left.
        obtain ⟨hleft,hgoals'⟩ := Prod.mk.inj hsame
        have hstate : t'.state = t.state := Prod.ext hgoals' (hplace'.ext hplace hleft)
        have hmem : u.state ∈ t.steps.map Thread.state := by
          rw [← Thread.states_steps hstate]
          exact List.mem_map_of_mem hu
        obtain ⟨v,hv,hvu⟩ := List.mem_map.1 hmem
        rw [← hvu]
        exact hsteps v hv
      · exact hclosed t' hplace' (Fresh.has_strike.2 ⟨hhas',hsame⟩) hnot u hu
  | case4 fresh t others hgoals hhas ih =>
    obtain ⟨-,hothers⟩ := List.forall_mem_cons.1 hplaces
    obtain ⟨fresh',hpassed,hsub,hclosed⟩ := ih h hothers
    refine ⟨fresh',List.forall_mem_cons.2 ⟨⟨?_,?_⟩,hpassed⟩,hsub,hclosed⟩
    · rintro hnil
      exact hgoals (List.isEmpty_iff.2 hnil)
    · exact Bool.eq_false_iff.2 fun h' => hhas (hsub _ _ h')

/-- A search begins at each place of the text, with the whole pattern to be matched. -/
theorem mem_starts {before t : Text} {u : Thread} (h : u ∈ starts p before.getLast? t) :
    u.goals = [.part p] ∧ IsPlace (before ++ t) u.place := by
  induction t generalizing before with
  | nil =>
    cases List.mem_singleton.1 h
    exact ⟨rfl,before,rfl,rfl⟩
  | cons c t ih =>
    rcases List.mem_cons.1 h with rfl | h
    · exact ⟨rfl,before,rfl,rfl⟩
    · have hlast : some c = (before ++ [c]).getLast? := List.getLast?_concat.symm
      rw [hlast] at h
      obtain ⟨hgoals,hplace⟩ := ih h
      rw [List.append_assoc] at hplace
      exact ⟨hgoals,hplace⟩

theorem exists_start {previous : Option Char} (before rest : Text) :
    ∃ u ∈ starts p previous (before ++ rest),
      u.state = ([.part p],⟨before.getLast?.or previous,rest⟩) := by
  induction before generalizing previous with
  | nil => cases rest <;> exact ⟨_,.head _,rfl⟩
  | cons c before ih =>
    obtain ⟨u,hu,hstate⟩ := @ih (some c)
    refine ⟨u,.tail _ hu,hstate.trans ?_⟩
    rw [List.getLast?_cons]
    cases before.getLast? <;> rfl

@[simp] theorem Fresh.has_replicate {n left : Nat} {states : List (List Goal)} {goals : List Goal} :
    Fresh.has (List.replicate (n + 1) states) left goals = true ↔ left ≤ n ∧ goals ∈ states := by
  by_cases h : left < n + 1
  · simp [has,h,Nat.le_of_lt_succ h]
  · simp [has,h,show ¬ left ≤ n by omega]

/-- The search finds a match exactly if the pattern matches some part of the text. -/
theorem isSome_captures? {t : Text} :
    (p.captures? t).isSome = true ↔ ∃ a b, IsPlace t a ∧ Spans p a b := by
  constructor
  · intro h
    obtain ⟨found,hfound⟩ := Option.isSome_iff_exists.1 h
    obtain ⟨u,hu,b,hmeets⟩ := meets_of_search hfound
    obtain ⟨hgoals,hplace⟩ := @mem_starts p [] t u hu
    rw [hgoals] at hmeets
    cases hmeets with
    | part hspans _ => exact ⟨_,_,hplace,hspans⟩
  · rintro ⟨a,b,⟨before,hbefore,hlast⟩,hspans⟩
    refine Option.isSome_iff_ne_none.2 fun hnone => ?_
    have hstarts (u : Thread) (hu : u ∈ starts p none t) := @mem_starts p [] t u hu
    obtain ⟨fresh,hpassed,-,hclosed⟩ := exists_passed hnone fun u hu => (hstarts u hu).2
    -- All that a passed state of the pattern leads to is passed.
    have hleads {s s' : List Goal × Place} (hs : Leads s s') : s.1 ∈ p.states [] →
        IsPlace t s.2 → Passed fresh s → Passed fresh s' := by
      induction hs with
      | refl => exact fun _ _ h => h
      | @step v u s' hu _ ih =>
        intro hmem hplace hpass
        have hplace' := Thread.isPlace_steps hu hplace
        have hpass' := hclosed v hplace
          (Fresh.has_replicate.2 ⟨hplace.length_le,hmem⟩) hpass.2 u hu
        exact ih ((Thread.goals_mem_states hu p [] hmem).resolve_right hpass'.1) hplace' hpass'
    obtain ⟨u,hu,hstate⟩ := @exists_start p none before a.rest
    rw [← hbefore] at hu
    have hpass := hpassed u hu
    rw [Option.or_none,← hlast] at hstate
    rw [hstate] at hpass
    exact (hleads (hspans.leads []).1 (mem_states p []) ⟨before,hbefore,hlast⟩ hpass).1 rfl

end Search

end Realm.Pattern
