import Realm.Proofs.Pattern.Meaning
import Realm.Proofs.Pattern.Turns
import Realm.Proofs.Regex

/-! What becomes of a pattern that is read inside of a group. The reader inside goes the same way
as the reader of the pattern alone, until the pattern ends or closes the group itself. From this
patterns are all that is documented of regular expressions. -/
namespace Realm.Pattern

variable {t : Text}

namespace State

section Enclosed

variable {s : State} {w : OpenGroup} {c : Char}

/-- The same reader inside of one more group, which is around all others. -/
def within (s : State) (w : OpenGroup) : State :=
  { s with outer := s.outer ++ [w] }

@[simp] theorem enter?_within (start : GroupStart) :
    (s.within w).enter? start = (s.enter? start).map (·.within w) := by
  cases start with
  | group kind inner =>
    dsimp only [enter?,within]
    by_cases hnames : kind.names.any s.names.contains = true
    · rw [if_pos hnames,if_pos hnames]
      rfl
    · rw [if_neg hnames,if_neg hnames]
      rfl
  | directive flags => rfl

theorem leave?_within (h : s.outer ≠ []) :
    (s.within w).leave? = s.leave?.map (·.within w) := by
  obtain ⟨flags,level,outer,names⟩ := s
  cases outer with
  | nil => exact absurd rfl h
  | cons o outer => rfl

@[simp] theorem readRepetition_within (min : Nat) (max : Option Nat) (t : Text) :
    (s.within w).readRepetition min max t =
      (s.readRepetition min max t).map fun r => (r.1.within w,r.2) := by
  unfold readRepetition repeatLast?
  dsimp only [within]
  cases s.level.repeat? min max (readLaziness s.flags t).1 <;> rfl

@[simp] theorem pushSet?_within (set : CharSet) :
    (s.within w).pushSet? set = (s.pushSet? set).map (·.within w) := by
  unfold pushSet?
  dsimp only [within]
  cases ofSet? s.flags set <;> rfl

/-- A turn is the same inside of one more group, unless it ends that group. -/
theorem turn?_within (h : c = ')' → s.outer ≠ []) (t : Text) :
    (s.within w).turn? c t = (s.turn? c t).map fun r => (r.1.within w,r.2) := by
  have hflags : (s.within w).flags = s.flags := rfl
  have hpush (r : Option (Pattern × Text)) :
      (r.map fun r => ((s.within w).push r.1,r.2)) =
        (r.map fun r => (s.push r.1,r.2)).map fun r => (r.1.within w,r.2) := by
    cases r <;> rfl
  unfold turn?
  rw [hflags]
  by_cases hblank : (s.flags.ignoreBlanks && (Text.isBlank c || c = '#')) = true
  · rw [if_pos hblank,if_pos hblank]
    rfl
  rw [if_neg hblank,if_neg hblank]
  split
  · change (readGroupStart s.flags (skipBlanks s.flags t)).bind _ = Option.map _ (Option.bind _ _)
    cases readGroupStart s.flags (skipBlanks s.flags t) with
    | none => rfl
    | some r =>
      simp only [Option.bind_some,enter?_within,Option.map_map]
      rfl
  · rw [leave?_within (h rfl)]
    change Option.map _ (Option.map _ s.leave?) = Option.map _ (Option.map _ s.leave?)
    cases s.leave? <;> rfl
  · rfl
  · dsimp only
    cases readSet s.flags t with
    | none => rfl
    | some r =>
      simp only [Option.bind_some,pushSet?_within,Option.map_map]
      rfl
  · exact readRepetition_within _ _ _
  · exact readRepetition_within _ _ _
  · exact readRepetition_within _ _ _
  · change (readBounds s.flags (skipBlanks s.flags t)).bind _ = Option.map _ (Option.bind _ _)
    cases readBounds s.flags (skipBlanks s.flags t) with
    | none => rfl
    | some r => exact readRepetition_within _ _ _
  · exact hpush (readEscaped s.flags t)
  · simp only [pushSet?_within,Option.map_map]
    rfl
  all_goals rfl

/-- What is read inside of a group is a pattern up to the parenthesis that ends the group. With
the parenthesis it is none; any other group ends there as well, and the reader goes on outside
of it. -/
theorem read_within {p : Pattern} (h : (s.within w).read t = some p) :
    ∃ inside behind q names, t = inside ++ ')' :: behind ∧ s.read inside = some q ∧
      ∀ front back, behind = front ++ back → s.read (inside ++ ')' :: front) = none ∧
        ∀ w : OpenGroup, (s.within w).read (inside ++ ')' :: front) =
          State.read ⟨w.flags,w.level.push (w.kind.enclose q),[],names⟩ front := by
  have hbrace {s : State} {t : Text} {q : Pattern} (h : s.read t = some q) : t ≠ ['\x7b'] := by
    rintro rfl
    rw [read_brace] at h
    cases h
  induction hn : t.length using Nat.strongRecOn generalizing s t with
  | _ n ih =>
    cases t with
    | nil =>
      rw [read_nil,if_neg (by simp [within])] at h
      cases h
    | cons c t =>
      by_cases hclose : c = ')' ∧ s.outer = []
      · obtain ⟨rfl,houter⟩ := hclose
        refine ⟨[],t,s.level.finish,s.names,rfl,by rw [read_nil,houter]; rfl,
          fun front _ _ => ⟨?_,fun w => ?_⟩⟩
        · simp [read_cons,leave?,houter]
        · simp [read_cons,leave?,within,houter]
      · have hopen : c = ')' → s.outer ≠ [] := fun hc ho => hclose ⟨hc,ho⟩
        rw [read_cons,turn?_within hopen] at h
        obtain ⟨⟨_,_⟩,hmap,hread⟩ := Option.bind_eq_some_iff.1 h
        obtain ⟨⟨s',left⟩,hturn,heq⟩ := Option.map_eq_some_iff.1 hmap
        obtain ⟨rfl,rfl⟩ := Prod.mk.inj heq
        have hleft := turn?_suffix hturn
        have hlength := hleft.length_le
        rw [List.length_cons] at hn
        obtain ⟨inside,behind,q,names,rfl,hq,hends⟩ := ih left.length (by omega) hread rfl
        obtain ⟨d,rfl⟩ := hleft
        refine ⟨c :: (d ++ inside),behind,q,names,by simp,?_,fun front back hback => ?_⟩
        · rw [← List.append_assoc] at hturn
          rw [read_cons,turn?_cut hturn (hbrace hq)]
          exact hq
        · obtain ⟨hnone,hgroups⟩ := hends front back hback
          subst hback
          -- The turn is the same without what is cut off behind the parenthesis.
          have hturn : s.turn? c ((d ++ (inside ++ ')' :: front)) ++ back) =
              some (s',(inside ++ ')' :: front) ++ back) := by
            simpa using hturn
          have hcut : s.turn? c (d ++ (inside ++ ')' :: front)) =
              some (s',inside ++ ')' :: front) :=
            turn?_cut hturn fun heq => by cases inside <;> simp at heq
          rw [List.cons_append,List.append_assoc]
          refine ⟨?_,fun w => ?_⟩
          · rw [read_cons,hcut]
            exact hnone
          · rw [read_cons,turn?_within hopen,hcut]
            exact hgroups w

theorem read_grouped {q p : Pattern} {tail : Text} (hq : s.read t = some q) (htail : ')' ∉ tail)
    (h : (s.within w).read (t ++ ')' :: tail) = some p) :
    ∃ names, ∀ (w : OpenGroup) (front back : Text), tail = front ++ back →
      (s.within w).read (t ++ ')' :: front) =
        State.read ⟨w.flags,w.level.push (w.kind.enclose q),[],names⟩ front := by
  obtain ⟨inside,behind,q',names,heq,hq',hends⟩ := read_within h
  rcases List.append_eq_append_iff.1 heq with ⟨front,rfl,hfront⟩ | ⟨back,rfl,hback⟩
  · cases front with
    | nil =>
      obtain ⟨-,rfl⟩ := List.cons.inj hfront
      rw [List.append_nil,hq] at hq'
      cases hq'
      rw [List.append_nil] at hends
      exact ⟨names,fun w front back heq => (hends front back heq).2 w⟩
    | cons c front =>
      obtain ⟨-,rfl⟩ := List.cons.inj hfront
      exact absurd (by simp) htail
  · cases back with
    | nil =>
      obtain ⟨-,rfl⟩ := List.cons.inj hback
      rw [List.append_nil,hq'] at hq
      cases hq
      rw [List.append_nil]
      exact ⟨names,fun w front back heq => (hends front back heq).2 w⟩
    | cons c back =>
      obtain ⟨rfl,hbehind⟩ := List.cons.inj hback
      rw [(hends back _ hbehind).1] at hq
      cases hq

end Enclosed

end State

def plainGroup : OpenGroup :=
  ⟨.plain,{},{}⟩

def firstGroup : OpenGroup :=
  ⟨.plain,{},⟨[],[.part (.look .textStart)]⟩⟩

theorem read?_plainGroup (t : Text) :
    read? ("(?:".toList ++ t) = (State.within ⟨{},{},[],[]⟩ plainGroup).read t := by
  have hopen : State.turn? ⟨{},{},[],[]⟩ '(' ('?' :: ':' :: t) =
      some (State.within ⟨{},{},[],[]⟩ plainGroup,t) := by
    rw [State.turn?,if_neg (State.not_blanks rfl)]
    rfl
  change State.read ⟨{},{},[],[]⟩ ('(' :: '?' :: ':' :: t) = _
  rw [State.read_cons,hopen]
  rfl

theorem read?_firstGroup (t : Text) :
    read? ("^(?:".toList ++ t) = (State.within ⟨{},{},[],[]⟩ firstGroup).read t := by
  have hstart : State.turn? ⟨{},{},[],[]⟩ '^' ('(' :: '?' :: ':' :: t) =
      some (State.push ⟨{},{},[],[]⟩ (.look .textStart),'(' :: '?' :: ':' :: t) := by
    rw [State.turn?,if_neg (State.not_blanks rfl)]
    rfl
  have hopen : (State.push ⟨{},{},[],[]⟩ (.look .textStart)).turn? '(' ('?' :: ':' :: t) =
      some (State.within ⟨{},{},[],[]⟩ firstGroup,t) := by
    rw [State.turn?,if_neg (State.not_blanks rfl)]
    rfl
  change State.read ⟨{},{},[],[]⟩ ('^' :: '(' :: '?' :: ':' :: t) = _
  simp [State.read_cons,hstart,hopen]

section Spans

variable {p q : Pattern} {a b : Place}

@[simp] theorem spans_seq : Spans (.seq p q) a b ↔ ∃ c, Spans p a c ∧ Spans q c b := by
  constructor
  · intro h
    cases h with
    | seq hp hq => exact ⟨_,hp,hq⟩
  · rintro ⟨c,hp,hq⟩
    exact .seq hp hq

@[simp] theorem spans_look {l : Look} : Spans (.look l) a b ↔ l.holds a = true ∧ a = b := by
  constructor
  · intro h
    cases h with
    | look h => exact ⟨h,rfl⟩
  · rintro ⟨h,rfl⟩
    exact .look h

@[simp] theorem textStart_holds : Look.textStart.holds a = true ↔ a.previous = none :=
  decide_eq_true_iff

@[simp] theorem textEnd_holds : Look.textEnd.holds a = true ↔ a.rest = [] :=
  decide_eq_true_iff.trans List.head?_eq_none_iff

def begun (p : Pattern) : Pattern :=
  sequence [.part p,.part (.look .textStart)]

@[simp] theorem spans_begun : Spans p.begun a b ↔ a.previous = none ∧ Spans p a b := by
  have hseq : Spans (.seq (.look .textStart) p) a b ↔ a.previous = none ∧ Spans p a b := by
    simp only [spans_seq,spans_look,textStart_holds]
    constructor
    · rintro ⟨_,⟨hstart,rfl⟩,hp⟩
      exact ⟨hstart,hp⟩
    · rintro ⟨hstart,hp⟩
      exact ⟨a,⟨hstart,rfl⟩,hp⟩
  cases p with
  | empty =>
    refine spans_look.trans (and_congr textStart_holds ⟨?_,?_⟩)
    · rintro rfl
      exact .empty
    · intro h
      cases h
      rfl
  | _ => exact hseq

def anchored (p : Pattern) : Pattern :=
  .seq (.look .textStart) (.seq p (.look .textEnd))

@[simp] theorem spans_anchored :
    Spans p.anchored a b ↔ b.rest = [] ∧ a.previous = none ∧ Spans p a b := by
  simp only [anchored,spans_seq,spans_look,textStart_holds,textEnd_holds]
  constructor
  · rintro ⟨_,⟨hstart,rfl⟩,_,hp,hend,rfl⟩
    exact ⟨hend,hstart,hp⟩
  · rintro ⟨hend,hstart,hp⟩
    exact ⟨a,⟨hstart,rfl⟩,b,hp,hend,rfl⟩

end Spans

section Documented

variable {q : Pattern} {t : Text}

theorem grouped_eq (t : Text) : Regex.grouped t = "(?:".toList ++ (t ++ [')']) := by
  simp [Regex.grouped]

theorem start_grouped_eq (t : Text) : '^' :: Regex.grouped t = "^(?:".toList ++ (t ++ [')']) := by
  simp [Regex.grouped]

theorem whole_grouped_eq (t : Text) :
    '^' :: Regex.grouped t ++ ['$'] = "^(?:".toList ++ (t ++ [')','$']) := by
  simp [Regex.grouped]

theorem read?_grouped (hq : read? t = some q) (h : (read? (Regex.grouped t)).isSome = true) :
    read? (Regex.grouped t) = some q := by
  obtain ⟨p,hp⟩ := Option.isSome_iff_exists.1 h
  rw [grouped_eq,read?_plainGroup] at hp ⊢
  obtain ⟨names,hread⟩ := State.read_grouped hq (by simp) hp
  rw [hread plainGroup [] [] rfl,State.read_nil]
  rfl

theorem read?_start (hq : read? t = some q) (h : (read? ('^' :: Regex.grouped t)).isSome = true) :
    read? ('^' :: Regex.grouped t) = some q.begun := by
  obtain ⟨p,hp⟩ := Option.isSome_iff_exists.1 h
  rw [start_grouped_eq,read?_firstGroup] at hp ⊢
  obtain ⟨names,hread⟩ := State.read_grouped hq (by simp) hp
  rw [hread firstGroup [] [] rfl,State.read_nil]
  rfl

theorem read?_whole (hq : read? t = some q)
    (h : (read? ('^' :: Regex.grouped t ++ ['$'])).isSome = true) :
    read? (Regex.grouped t) = some q ∧ read? ('^' :: Regex.grouped t) = some q.begun ∧
      read? ('^' :: Regex.grouped t ++ ['$']) = some q.anchored := by
  obtain ⟨p,hp⟩ := Option.isSome_iff_exists.1 h
  rw [whole_grouped_eq,read?_firstGroup] at hp ⊢
  obtain ⟨names,hread⟩ := State.read_grouped hq (by simp) hp
  refine ⟨?_,?_,?_⟩
  · rw [grouped_eq,read?_plainGroup,hread plainGroup [] ['$'] rfl,State.read_nil]
    rfl
  · rw [start_grouped_eq,read?_firstGroup,hread firstGroup [] ['$'] rfl,State.read_nil]
    rfl
  · rw [hread firstGroup ['$'] [] rfl,State.read_cons,State.turn?_end,Option.bind_some,
      State.read_nil]
    rfl

/-- A pattern matches a part of a text between what is before it and what is behind it. -/
def Matches (p : Pattern) (before middle after : Text) : Prop :=
  Spans p ⟨before.getLast?,middle ++ after⟩ ⟨(before ++ middle).getLast?,after⟩

/-- Patterns are what is documented of regular expressions. -/
theorem documented : Regex.Documented Matches where
  search p t := by
    refine isSome_captures?.trans ⟨?_,?_⟩
    · rintro ⟨⟨_,rest⟩,⟨_,after⟩,⟨before,rfl,rfl⟩,hspans⟩
      obtain ⟨middle,hrest,hlast⟩ := hspans.middle
      obtain rfl : rest = middle ++ after := hrest
      refine ⟨before,middle,after,(List.append_assoc ..).symm,?_⟩
      rw [Matches,List.getLast?_append,← hlast]
      exact hspans
    · rintro ⟨before,middle,after,rfl,hspans⟩
      exact ⟨_,_,⟨before,List.append_assoc ..,rfl⟩,hspans⟩
  closes t h := by
    obtain ⟨p,hp⟩ := Option.isSome_iff_exists.1 h
    obtain ⟨inside,behind,q,-,heq,hq,-⟩ := State.read_within ((read?_firstGroup t).symm.trans hp)
    exact ⟨inside,behind,heq,Option.isSome_of_eq_some hq⟩
  parts t ht h := by
    obtain ⟨q,hq⟩ := Option.isSome_iff_exists.1 ht
    obtain ⟨hgroup,hstart,-⟩ := read?_whole hq h
    exact ⟨Option.isSome_of_eq_some hgroup,Option.isSome_of_eq_some hstart⟩
  group t q r hq hr before middle after := by
    cases (read?_grouped hq (Option.isSome_of_eq_some hr)).symm.trans hr
    exact Iff.rfl
  start t q r ht hq hr before middle after := by
    obtain ⟨p,hp⟩ := Option.isSome_iff_exists.1 ht
    cases (read?_grouped hp (Option.isSome_of_eq_some hq)).symm.trans hq
    cases (read?_start hp (Option.isSome_of_eq_some hr)).symm.trans hr
    exact spans_begun.trans (and_congr_left' List.getLast?_eq_none_iff)
  stop t q r ht hq hr before middle after := by
    obtain ⟨p,hp⟩ := Option.isSome_iff_exists.1 ht
    obtain ⟨-,hbegun,hanchored⟩ := read?_whole hp (Option.isSome_of_eq_some hr)
    cases hbegun.symm.trans hq
    cases hanchored.symm.trans hr
    exact spans_anchored.trans (and_congr_right' spans_begun.symm)

end Documented

end Realm.Pattern
