import Realm.Proofs.History.Written
import Realm.Proofs.Path

/-! What the parts of a history reference mean, told by how lines, words and texts are put
together. The functions that evaluate a reference find what its parts mean, and find nothing
where they mean nothing. -/
namespace Realm

section Texts

variable {p t a b : Text}

theorem Text.startsWith_iff : Text.startsWith p t = true ↔ p <+: t := by
  rw [startsWith,Option.isSome_iff_exists]
  exact exists_congr fun r => stripPrefix?_eq_some_iff.trans eq_comm

structure Text.CutAt (p t a b : Text) : Prop where
  eq : t = a ++ p ++ b
  first : ∀ a' b', t = a' ++ p ++ b' → a.length ≤ a'.length

theorem Text.cutAt_of_cut? (h : cut? p t = some (a,b)) : CutAt p t a b := by
  refine ⟨eq_of_cut? h,?_⟩
  induction t generalizing a with
  | nil =>
    have := eq_of_cut? h
    have ha : a = [] := by
      rw [List.append_assoc] at this
      exact (List.append_eq_nil_iff.1 this.symm).1
    intro a' b' _
    simp [ha]
  | cons c t ih =>
    intro a' b' heq
    simp only [cut?] at h
    split at h
    · cases h
      exact Nat.zero_le _
    · next hnone =>
      obtain ⟨⟨x,y⟩,hx,he⟩ := Option.map_eq_some_iff.1 h
      cases he
      cases a' with
      | nil =>
        have hsome : stripPrefix? p (c :: t) = some b' := stripPrefix?_eq_some_iff.2 heq
        rw [hnone] at hsome
        cases hsome
      | cons d a' =>
        cases heq
        exact Nat.succ_le_succ (ih hx a' b' rfl)

theorem Text.contains_iff : Text.contains p t = true ↔ p <:+: t := by
  rw [contains]
  induction t with
  | nil => by_cases hp : p = [] <;> simp [cut?,hp]
  | cons c t ih =>
    rw [List.infix_cons_iff,← ih,← startsWith_iff,startsWith,cut?]
    split
    · next hs => simp [hs]
    · next hs => simp [hs]

theorem Text.CutAt.cut? (h : CutAt p t a b) : Text.cut? p t = some (a,b) := by
  have hcontains : Text.contains p t = true := contains_iff.2 ⟨a,b,h.eq.symm⟩
  obtain ⟨⟨x,y⟩,hcut⟩ := Option.isSome_iff_exists.1 hcontains
  have hxy := cutAt_of_cut? hcut
  have hlength : a.length = x.length :=
    Nat.le_antisymm (h.first x y hxy.eq) (hxy.first a b h.eq)
  have heq := h.eq.symm.trans hxy.eq
  rw [List.append_assoc,List.append_assoc] at heq
  obtain ⟨rfl,hrest⟩ := List.append_inj heq hlength
  rw [hcut,(List.append_inj hrest rfl).2]

/-- Every occurrence that is found from left to right is replaced. -/
inductive Text.Replaces (p new : Text) : Text → Text → Prop
  | done {t : Text} : ¬ p <:+: t → Replaces p new t t
  | more {t a b t' : Text} : CutAt p t a b → Replaces p new b t' →
    Replaces p new t (a ++ new ++ t')

theorem Text.replaceFrom_skip (new : Text) (n : Nat) :
    replaceFrom p new n t = replaceFrom p new 0 (t.drop n) := by
  induction n generalizing t with
  | zero => rfl
  | succ n ih =>
    cases t with
    | nil => simp [replaceFrom]
    | cons c t => rw [replaceFrom,ih,List.drop_succ_cons]

theorem Text.replaceAll_of_notMem {new : Text} (h : ¬ p <:+: t) : replaceAll p new t = t := by
  rw [replaceAll]
  induction t with
  | nil => rfl
  | cons c t ih =>
    rw [List.infix_cons_iff,not_or] at h
    rw [replaceFrom,if_neg (by rw [startsWith_iff]; exact h.1),ih h.2]

theorem Text.replaceAll_of_cutAt {new : Text} (hp : p ≠ []) (h : CutAt p t a b) :
    replaceAll p new t = a ++ new ++ replaceAll p new b := by
  obtain ⟨rfl,hfirst⟩ := h
  rw [replaceAll,replaceAll]
  induction a with
  | nil =>
    obtain ⟨c,q,rfl⟩ := List.exists_cons_of_ne_nil hp
    simp only [List.nil_append,List.cons_append]
    have hstarts : startsWith (c :: q) (c :: (q ++ b)) = true := startsWith_iff.2 ⟨b,rfl⟩
    rw [replaceFrom,if_pos hstarts,replaceFrom_skip]
    simp
  | cons c a ih =>
    have hnot : ¬ startsWith p (c :: (a ++ p ++ b)) = true := by
      rw [startsWith_iff]
      rintro ⟨b',hb⟩
      have := hfirst [] b' hb.symm
      exact absurd this (by simp)
    rw [List.cons_append,List.cons_append,replaceFrom,if_neg hnot,ih]
    · rfl
    · intro a' b' heq
      exact Nat.le_of_succ_le_succ (hfirst (c :: a') b' (congrArg (c :: ·) heq))

theorem Text.Replaces.eq {new t' : Text} (hp : p ≠ []) (h : Replaces p new t t') :
    t' = replaceAll p new t := by
  induction h with
  | done hnot => rw [replaceAll_of_notMem hnot]
  | more hcut _ ih => rw [replaceAll_of_cutAt hp hcut,ih]

theorem Text.replaces (new : Text) (hp : p ≠ []) (t : Text) :
    Replaces p new t (replaceAll p new t) := by
  induction hn : t.length using Nat.strongRecOn generalizing t with
  | _ n ih =>
    by_cases h : p <:+: t
    · obtain ⟨⟨a,b⟩,hcut⟩ := Option.isSome_iff_exists.1 (contains_iff.2 h)
      have hcut := cutAt_of_cut? hcut
      have hpos := List.length_pos_iff.2 hp
      have hlt : b.length < n := by
        rw [← hn,hcut.eq,List.length_append,List.length_append]
        omega
      rw [replaceAll_of_cutAt hp hcut]
      exact .more hcut (ih _ hlt b rfl)
    · rw [replaceAll_of_notMem h]
      exact .done h

end Texts

namespace History

/-- A substitution turns one text into another; there must be something to replace. -/
inductive Substitution.Turns (s : Substitution) : Bool → Text → Text → Prop
  | first {t a b : Text} : s.pattern ≠ [] → Text.CutAt s.pattern t a b →
    Turns s false t (a ++ s.expansion ++ b)
  | all {t t' : Text} : s.pattern ≠ [] → s.pattern <:+: t →
    Text.Replaces s.pattern s.expansion t t' → Turns s true t t'

theorem Substitution.turns_iff {s : Substitution} {everywhere : Bool} {t t' : Text} :
    s.apply? everywhere t = some t' ↔ s.Turns everywhere t t' := by
  constructor
  · intro h
    unfold Substitution.apply? at h
    split at h
    · cases h
    · next hp =>
      simp only [Bool.or_eq_true,decide_eq_true_eq,Bool.not_eq_true',not_or,
        Bool.not_eq_false] at hp
      obtain ⟨hp,hcontains⟩ := hp
      cases everywhere with
      | false =>
        obtain ⟨⟨a,b⟩,hcut⟩ := Option.isSome_iff_exists.1 hcontains
        rw [if_neg Bool.false_ne_true,Text.replaceFirst,hcut] at h
        cases h
        exact .first hp (Text.cutAt_of_cut? hcut)
      | true =>
        rw [if_pos rfl] at h
        cases h
        exact .all hp (Text.contains_iff.1 hcontains) (Text.replaces _ hp t)
  · intro h
    have hsome {t : Text} (hp : s.pattern ≠ []) (h : s.pattern <:+: t) :
        (s.pattern = [] || !Text.contains s.pattern t) = false := by
      simp [hp,Text.contains_iff.2 h]
    unfold Substitution.apply?
    cases h with
    | first hp hcut =>
      simp [hsome hp ⟨_,_,hcut.eq.symm⟩,Text.replaceFirst,hcut.cut?]
    | all hp hinfix hreplaces =>
      simp [hsome hp hinfix,hreplaces.eq hp]

inductive HeadOf : Text → Text → Prop
  | whole {t : Text} : '/' ∉ t → HeadOf t t
  | top {base : Text} : '/' ∉ base → HeadOf ('/' :: base) ['/']
  | before {dir base : Text} : dir ≠ [] → '/' ∉ base → HeadOf (dir ++ '/' :: base) dir

inductive TailOf : Text → Text → Prop
  | whole {t : Text} : '/' ∉ t → TailOf t t
  | after {dir base : Text} : '/' ∉ base → TailOf (dir ++ '/' :: base) base

/-- A path with an extension: the last dot of the last component, where it does not begin the
component. -/
inductive Extended : Text → Text → Text → Prop
  | intro {stem ext : Text} {c : Char} : c ≠ '/' → '.' ∉ ext → '/' ∉ ext →
    Extended (stem ++ c :: '.' :: ext) (stem ++ [c]) ('.' :: ext)

theorem headOf_iff {t head : Text} : headOf t = head ↔ HeadOf t head := by
  constructor
  · rintro rfl
    unfold headOf
    split
    · next h =>
      obtain ⟨rfl,hbase⟩ := Path.splitLast?_eq_some.1 h
      exact .top hbase
    · next hdir h =>
      obtain ⟨rfl,hbase⟩ := Path.splitLast?_eq_some.1 h
      exact .before hdir hbase
    · next h => exact .whole (Path.splitLast?_eq_none.1 h)
  · intro h
    unfold headOf
    cases h with
    | whole h => rw [Path.splitLast?_eq_none.2 h]
    | top h =>
      have := Path.splitLast?_append h []
      rw [List.nil_append] at this
      rw [this]
    | before hdir h =>
      rw [Path.splitLast?_append h]
      split
      · next he => cases he; exact absurd rfl hdir
      · next he => cases he; rfl
      · next he => cases he

theorem tailOf_iff {t last : Text} : tailOf t = last ↔ TailOf t last := by
  constructor
  · rintro rfl
    unfold tailOf
    split
    · next h =>
      obtain ⟨rfl,hbase⟩ := Path.splitLast?_eq_some.1 h
      exact .after hbase
    · next h => exact .whole (Path.splitLast?_eq_none.1 h)
  · intro h
    unfold tailOf
    cases h with
    | whole h => rw [Path.splitLast?_eq_none.2 h]
    | after h => rw [Path.splitLast?_append h]

def IsDirectory (dir : Text) : Prop :=
  dir = [] ∨ ∃ d, dir = d ++ ['/']

theorem exists_base (t : Text) : ∃ dir base, t = dir ++ base ∧ IsDirectory dir ∧ '/' ∉ base := by
  cases h : Text.splitLast? '/' t with
  | none => exact ⟨[],t,rfl,.inl rfl,Path.splitLast?_eq_none.1 h⟩
  | some r =>
    obtain ⟨dir,base⟩ := r
    obtain ⟨rfl,hbase⟩ := Path.splitLast?_eq_some.1 h
    exact ⟨dir ++ ['/'],base,List.append_cons ..,.inr ⟨dir,rfl⟩,hbase⟩

theorem extend_eq_some {dir root ext : Text} {r : Option (Text × Text)} :
    (match r with
      | some (c :: stem,e) => some (dir ++ c :: stem,'.' :: e)
      | _ => none) = some (root,ext) ↔
      ∃ c stem e, r = some (c :: stem,e) ∧ root = dir ++ c :: stem ∧ ext = '.' :: e := by
  constructor
  · intro h
    split at h <;> cases h
    exact ⟨_,_,_,rfl,rfl,rfl⟩
  · rintro ⟨c,stem,e,rfl,rfl,rfl⟩
    rfl

theorem splitExtension?_append {dir base root ext : Text} (hdir : IsDirectory dir)
    (hbase : '/' ∉ base) :
    splitExtension? (dir ++ base) = some (root,ext) ↔
      ∃ c stem e, Text.splitLast? '.' base = some (c :: stem,e) ∧ root = dir ++ c :: stem ∧
        ext = '.' :: e := by
  unfold splitExtension?
  rcases hdir with rfl | ⟨d,rfl⟩
  · rw [List.nil_append,Path.splitLast?_eq_none.2 hbase]
    exact extend_eq_some
  · rw [← List.append_cons,Path.splitLast?_append hbase]
    exact extend_eq_some

theorem splitExtension?_iff {t root ext : Text} :
    splitExtension? t = some (root,ext) ↔ Extended t root ext := by
  constructor
  · intro h
    obtain ⟨dir,base,rfl,hdir,hbase⟩ := exists_base t
    obtain ⟨c,stem,e,hsplit,rfl,rfl⟩ := (splitExtension?_append hdir hbase).1 h
    obtain ⟨rfl,he⟩ := Path.splitLast?_eq_some.1 hsplit
    obtain ⟨front,d,hfront⟩ : ∃ front d, c :: stem = front ++ [d] :=
      ⟨_,_,(List.dropLast_concat_getLast (List.cons_ne_nil c stem)).symm⟩
    rw [hfront] at hbase ⊢
    simp only [List.append_assoc,List.singleton_append,List.mem_append,List.mem_cons,
      not_or] at hbase ⊢
    rw [← List.append_assoc dir,← List.append_assoc dir]
    exact .intro (Ne.symm hbase.2.1) he hbase.2.2.2
  · rintro ⟨hc,hdot,hslash⟩
    next stem e c =>
    obtain ⟨dir,base,rfl,hdir,hbase⟩ := exists_base stem
    have hnot : '/' ∉ base ++ c :: '.' :: e := by simp [hbase,Ne.symm hc,hslash]
    have hsplit : Text.splitLast? '.' (base ++ c :: '.' :: e) = some (base ++ [c],e) := by
      rw [List.append_cons]
      exact Path.splitLast?_append hdot _
    obtain ⟨d,front,hfront⟩ := List.exists_cons_of_ne_nil (List.concat_ne_nil c base)
    rw [hfront] at hsplit
    rw [List.append_assoc,List.append_assoc]
    exact (splitExtension?_append hdir hnot).2 ⟨d,front,e,hsplit,by rw [hfront],rfl⟩

theorem splitExtension?_eq_none {t : Text} :
    splitExtension? t = none ↔ ∀ root ext, ¬ Extended t root ext := by
  simp only [← splitExtension?_iff,Option.eq_none_iff_forall_ne_some,Prod.forall,ne_eq]

/-- One change of the text, with the record of the substitutions. -/
inductive Change.Makes : Change → Progress → Progress → Prop
  | head {p : Progress} {text : Text} : HeadOf p.text text → Makes .head p { p with text }
  | tail {p : Progress} {text : Text} : TailOf p.text text → Makes .tail p { p with text }
  | root {p : Progress} {text ext : Text} : Extended p.text text ext →
    Makes .root p { p with text }
  | noRoot {p : Progress} : (∀ text ext, ¬ Extended p.text text ext) → Makes .root p p
  | extension {p : Progress} {root text : Text} : Extended p.text root text →
    Makes .extension p { p with text }
  | noExtension {p : Progress} : (∀ root ext, ¬ Extended p.text root ext) →
    Makes .extension p { p with text := [] }
  | printOnly {p : Progress} : Makes .printOnly p { p with printOnly := true }
  | again {p : Progress} {everywhere : Bool} {s : Substitution} {text : Text} :
    p.last = some s → s.Turns everywhere p.text text → Makes (.again everywhere) p { p with text }
  | substitute {p : Progress} {everywhere : Bool} {f : Fields} {text : Text} :
    f.substitution.Turns everywhere p.text text →
    Makes (.substitute everywhere f) p
      { p with text, made := some f.substitution, last := some f.substitution }

theorem apply_iff {reference : Text} {change : Change} {p q : Progress} :
    change.modifier.apply reference p = .ok q ↔ change.Makes p q := by
  cases change with
  | head =>
    constructor
    · rintro ⟨⟩
      exact .head (headOf_iff.1 rfl)
    · rintro ⟨⟩
      next h => rw [← headOf_iff.2 h]; rfl
  | tail =>
    constructor
    · rintro ⟨⟩
      exact .tail (tailOf_iff.1 rfl)
    · rintro ⟨⟩
      next h => rw [← tailOf_iff.2 h]; rfl
  | root =>
    constructor
    · rintro ⟨⟩
      cases h : splitExtension? p.text with
      | none =>
        have hroot : rootOf p.text = p.text := by rw [rootOf,h]
        rw [hroot]
        exact .noRoot (splitExtension?_eq_none.1 h)
      | some r =>
        have hroot : rootOf p.text = r.1 := by rw [rootOf,h]
        rw [hroot]
        exact .root (splitExtension?_iff.1 h)
    · intro h
      cases h with
      | root h => simp [Change.modifier,Modifier.apply,rootOf,splitExtension?_iff.2 h]
      | noRoot h => simp [Change.modifier,Modifier.apply,rootOf,splitExtension?_eq_none.2 h]
  | extension =>
    constructor
    · rintro ⟨⟩
      cases h : splitExtension? p.text with
      | none =>
        have hext : extensionOf p.text = [] := by rw [extensionOf,h]
        rw [hext]
        exact .noExtension (splitExtension?_eq_none.1 h)
      | some r =>
        have hext : extensionOf p.text = r.2 := by rw [extensionOf,h]
        rw [hext]
        exact .extension (splitExtension?_iff.1 h)
    · intro h
      cases h with
      | extension h => simp [Change.modifier,Modifier.apply,extensionOf,splitExtension?_iff.2 h]
      | noExtension h =>
        simp [Change.modifier,Modifier.apply,extensionOf,splitExtension?_eq_none.2 h]
  | printOnly =>
    constructor
    · rintro ⟨⟩
      exact .printOnly
    · rintro ⟨⟩
      rfl
  | again everywhere =>
    rw [Change.modifier,Modifier.apply]
    constructor
    · intro h
      split at h
      · cases h
      · next hlast =>
        split at h <;> cases h
        next hturns => exact .again hlast (Substitution.turns_iff.1 hturns)
    · rintro ⟨⟩
      next hlast hturns =>
      rw [hlast]
      dsimp only
      rw [Substitution.turns_iff.2 hturns]
  | substitute everywhere f =>
    rw [Change.modifier,Modifier.apply,if_neg f.ne_nil]
    dsimp only
    constructor
    · intro h
      split at h <;> cases h
      next hturns => exact .substitute (Substitution.turns_iff.1 hturns)
    · rintro ⟨⟩
      next hturns =>
      have hsub := Substitution.turns_iff.2 hturns
      rw [Fields.substitution] at hsub
      rw [hsub]
      rfl

inductive MakeAll : List Change → Progress → Progress → Prop
  | nil {p : Progress} : MakeAll [] p p
  | cons {change : Change} {changes : List Change} {p q r : Progress} :
    change.Makes p q → MakeAll changes q r → MakeAll (change :: changes) p r

/-- The lines that a name stands for: which one of the history it is, the newest last. -/
inductive Name.Names : Name → List Text → Text → Prop
  | previous {older : List Text} {line : Text} : Names .previous (older ++ [line]) line
  | number {older newer : List Text} {line : Text} {n : Numeral} : older.length + 1 = n.value →
    Names (.number n) (older ++ line :: newer) line
  | back {older newer : List Text} {line : Text} {n : Numeral} : newer.length + 1 = n.value →
    Names (.back n) (older ++ line :: newer) line
  | beginning {older newer : List Text} {line : Text} {s : Opening} : s.text <+: line →
    (∀ l ∈ newer, ¬ s.text <+: l) → Names (.beginning s) (older ++ line :: newer) line
  | containing {older newer : List Text} {line : Text} {s : Fragment} : s.text <:+: line →
    (∀ l ∈ newer, ¬ s.text <:+: l) → Names (.containing s) (older ++ line :: newer) line

theorem find?_reverse {history : List Text} {p : Text → Bool} {line : Text} :
    history.reverse.find? p = some line ↔
      ∃ older newer, history = older ++ line :: newer ∧ p line = true ∧
        ∀ l ∈ newer, p l = false := by
  rw [List.find?_eq_some_iff_append]
  constructor
  · rintro ⟨hline,newer,older,heq,hnewer⟩
    refine ⟨older.reverse,newer.reverse,?_,hline,?_⟩
    · rw [← List.reverse_reverse history,heq]
      simp
    · simpa using hnewer
  · rintro ⟨older,newer,rfl,hline,hnewer⟩
    refine ⟨hline,newer.reverse,older.reverse,by simp,?_⟩
    simpa using hnewer

theorem getElem?_append {history : List Text} {i : Nat} {line : Text} :
    history[i]? = some line ↔
      ∃ older newer, history = older ++ line :: newer ∧ older.length = i := by
  constructor
  · intro h
    obtain ⟨hi,hline⟩ := List.getElem?_eq_some_iff.1 h
    refine ⟨history.take i,history.drop (i + 1),?_,by simp; omega⟩
    rw [← hline,← List.drop_eq_getElem_cons hi,List.take_append_drop]
  · rintro ⟨older,newer,rfl,rfl⟩
    simp

theorem find?_name {history : List Text} {name : Name} {line : Text} :
    name.event.find? history = some line ↔ name.Names history line := by
  cases name with
  | previous =>
    rw [Name.event,Event.find?,List.getLast?_eq_some_iff]
    constructor
    · rintro ⟨older,rfl⟩
      exact .previous
    · rintro ⟨⟩
      exact ⟨_,rfl⟩
  | number n =>
    rw [Name.event,Event.find?]
    constructor
    · intro h
      split at h
      · cases h
      · obtain ⟨older,newer,rfl,hlength⟩ := getElem?_append.1 h
        exact .number (by omega)
    · intro h
      cases h with
      | number hn =>
        rw [if_neg (by omega)]
        exact getElem?_append.2 ⟨_,_,rfl,by omega⟩
  | back n =>
    rw [Name.event,Event.find?]
    constructor
    · intro h
      split at h
      · cases h
      · next hn =>
        obtain ⟨older,newer,rfl,hlength⟩ := getElem?_append.1 h
        simp only [Bool.or_eq_true,decide_eq_true_eq,not_or,List.length_append,
          List.length_cons] at hn hlength
        exact .back (by omega)
    · intro h
      cases h with
      | back hn =>
        rw [if_neg (by simp; omega)]
        exact getElem?_append.2 ⟨_,_,rfl,by simp; omega⟩
  | beginning s =>
    rw [Name.event,Event.find?,find?_reverse]
    simp only [Text.startsWith_iff,Bool.eq_false_iff,ne_eq]
    constructor
    · rintro ⟨older,newer,rfl,hline,hnewer⟩
      exact .beginning hline hnewer
    · intro h
      cases h with
      | beginning hline hnewer => exact ⟨_,_,rfl,hline,hnewer⟩
  | containing s =>
    rw [Name.event,Event.find?,if_neg s.ne_nil,find?_reverse]
    simp only [Text.contains_iff,Bool.eq_false_iff,ne_eq]
    constructor
    · rintro ⟨older,newer,rfl,hline,hnewer⟩
      exact .containing hline hnewer
    · intro h
      cases h with
      | containing hline hnewer => exact ⟨_,_,rfl,hline,hnewer⟩

/-- A number as the place of a word: how many words come before it, in 64 bits. -/
def Numeral.Counts (n : Numeral) (words : List Text) : Prop :=
  words.length = n.value ∧ n.value < 0x10000000000000000

inductive Choice.Picks : Choice → List Text → List Text → Prop
  | first {w v : Text} {after : List Text} : Picks (.sign .first) (w :: v :: after) [v]
  | last {before : List Text} {w : Text} : Picks (.sign .last) (before ++ [w]) [w]
  | arguments {w : Text} {after : List Text} : Picks (.sign .arguments) (w :: after) after
  | word {n : Numeral} {before after : List Text} {w : Text} : n.Counts before →
    Picks (.word n) (before ++ w :: after) [w]
  | range {n m : Numeral} {before picked after : List Text} {w : Text} : n.Counts before →
    m.Counts (before ++ picked) →
    Picks (.range n m) (before ++ (picked ++ w :: after)) (picked ++ [w])
  | butLast {n : Numeral} {before picked : List Text} {w v : Text} : n.Counts before →
    Picks (.butLast n) (before ++ (picked ++ [w,v])) (picked ++ [w])
  | upTo {m : Numeral} {picked after : List Text} {w : Text} : m.Counts picked →
    Picks (.upTo m) (picked ++ w :: after) (picked ++ [w])
  | onward {n : Numeral} {before picked : List Text} {w : Text} : n.Counts before →
    Picks (.onward n) (before ++ (picked ++ [w])) (picked ++ [w])

theorem slice?_iff {words : List Text} {first stop : Nat} {text : Text} :
    slice? words first stop = some text ↔
      ∃ before picked w after, words = before ++ (picked ++ w :: after) ∧ before.length = first ∧
        before.length + picked.length = stop ∧ text = Text.join [' '] (picked ++ [w]) := by
  have htake (front after : List Text) (w : Text) :
      (front ++ w :: after).take (front.length + 1) = front ++ [w] := by
    rw [List.append_cons,← List.length_singleton (a := w),← List.length_append]
    exact List.take_left
  rw [slice?]
  constructor
  · intro h
    split at h <;> cases h
    next hle =>
    obtain ⟨hfirst,hstop⟩ := hle
    obtain ⟨w,hw⟩ : ∃ w, words[stop]? = some w := ⟨_,List.getElem?_eq_getElem hstop⟩
    obtain ⟨front,after,rfl,rfl⟩ := getElem?_append.1 hw
    refine ⟨front.take first,front.drop first,w,after,?_,by simp; omega,by simp; omega,?_⟩
    · rw [← List.append_assoc,List.take_append_drop]
    · rw [htake,List.drop_append_of_le_length hfirst]
  · rintro ⟨before,picked,w,after,rfl,rfl,rfl,rfl⟩
    rw [if_pos (by simp),← List.append_assoc,← List.length_append,htake,List.append_assoc,
      List.drop_left]

theorem place?_eq_some {n : Numeral} {i : WordIndex} :
    n.place? = some i ↔ i = .at n.value ∧ n.value < 0x10000000000000000 := by
  unfold Numeral.place?
  split
  · next h => simp [h,eq_comm]
  · next h => simp [h]

theorem select?_eq_some {d : Designator} {line text : Text} :
    d.select? line = some text ↔ ∃ final, (Text.words line).length = final + 1 ∧
      (match d with
      | .arguments => if final = 0 then some [] else slice? (Text.words line) 1 final
      | .toLast first => slice? (Text.words line) (first.resolve final) final
      | .fromStart stop => slice? (Text.words line) 0 (stop.resolve final)
      | .toPenultimate first =>
        if final = 0 then none else slice? (Text.words line) (first.resolve final) (final - 1)
      | .range first stop =>
        slice? (Text.words line) (first.resolve final) (stop.resolve final)) = some text := by
  unfold Designator.select?
  dsimp only
  cases (Text.words line).length with
  | zero => simp
  | succ final => cases d <;> simp

theorem picks_of_select? {choice : Choice} {d : Designator} {line text : Text}
    (hd : choice.designator? = some d) (h : d.select? line = some text) :
    ∃ picked, choice.Picks (Text.words line) picked ∧ text = Text.join [' '] picked := by
  -- A run of words that ends with the line has nothing after it.
  have hends {before picked after : List Text} {w : Text} {final : Nat}
      (hlength : (before ++ (picked ++ w :: after)).length = final + 1)
      (hstop : before.length + picked.length = final) : after = [] := by
    simp only [List.length_append,List.length_cons] at hlength
    exact List.length_eq_zero_iff.1 (by omega)
  obtain ⟨final,hlength,h⟩ := select?_eq_some.1 h
  generalize Text.words line = words at hlength h ⊢
  cases choice with
  | sign sign =>
    cases sign with
    | first =>
      cases hd
      obtain ⟨before,picked,w,after,rfl,hbefore,hpicked,rfl⟩ := slice?_iff.1 h
      obtain ⟨u,rfl⟩ := List.length_eq_one_iff.1 hbefore
      obtain rfl := List.length_eq_zero_iff.1 (Nat.add_left_cancel hpicked : picked.length = 0)
      exact ⟨[w],.first,rfl⟩
    | last =>
      cases hd
      obtain ⟨before,picked,w,after,rfl,hbefore,hpicked,rfl⟩ := slice?_iff.1 h
      obtain rfl := hends hlength hpicked
      obtain rfl := List.length_eq_zero_iff.1
        (Nat.add_left_cancel (hpicked.trans hbefore.symm) : picked.length = 0)
      exact ⟨[w],.last,rfl⟩
    | arguments =>
      cases hd
      dsimp only at h
      split at h
      · next hfinal =>
        subst hfinal
        cases h
        obtain ⟨w,rfl⟩ := List.length_eq_one_iff.1 hlength
        exact ⟨[],.arguments,rfl⟩
      · obtain ⟨before,picked,w,after,rfl,hbefore,hpicked,rfl⟩ := slice?_iff.1 h
        obtain ⟨u,rfl⟩ := List.length_eq_one_iff.1 hbefore
        obtain rfl := hends hlength (by rw [hbefore]; exact hpicked)
        exact ⟨_,.arguments,rfl⟩
  | word n =>
    obtain ⟨i,hi,rfl⟩ := Option.map_eq_some_iff.1 hd
    obtain ⟨rfl,hn⟩ := place?_eq_some.1 hi
    obtain ⟨before,picked,w,after,rfl,hbefore,hpicked,rfl⟩ := slice?_iff.1 h
    obtain rfl := List.length_eq_zero_iff.1
      (Nat.add_left_cancel (hpicked.trans hbefore.symm) : picked.length = 0)
    exact ⟨[w],.word ⟨hbefore,hn⟩,rfl⟩
  | range n m =>
    obtain ⟨i,hi,hd⟩ := Option.bind_eq_some_iff.1 hd
    obtain ⟨j,hj,rfl⟩ := Option.map_eq_some_iff.1 hd
    obtain ⟨rfl,hn⟩ := place?_eq_some.1 hi
    obtain ⟨rfl,hm⟩ := place?_eq_some.1 hj
    obtain ⟨before,picked,w,after,rfl,hbefore,hpicked,rfl⟩ := slice?_iff.1 h
    exact ⟨_,.range ⟨hbefore,hn⟩ ⟨List.length_append.trans hpicked,hm⟩,rfl⟩
  | butLast n =>
    obtain ⟨i,hi,rfl⟩ := Option.map_eq_some_iff.1 hd
    obtain ⟨rfl,hn⟩ := place?_eq_some.1 hi
    dsimp only at h
    split at h
    · cases h
    · obtain ⟨before,picked,w,after,rfl,hbefore,hpicked,rfl⟩ := slice?_iff.1 h
      have hafter : after.length = 1 := by
        simp only [List.length_append,List.length_cons] at hlength
        omega
      obtain ⟨v,rfl⟩ := List.length_eq_one_iff.1 hafter
      exact ⟨_,.butLast ⟨hbefore,hn⟩,rfl⟩
  | upTo m =>
    obtain ⟨i,hi,rfl⟩ := Option.map_eq_some_iff.1 hd
    obtain ⟨rfl,hm⟩ := place?_eq_some.1 hi
    obtain ⟨before,picked,w,after,rfl,hbefore,hpicked,rfl⟩ := slice?_iff.1 h
    obtain rfl := List.length_eq_zero_iff.1 hbefore
    exact ⟨_,.upTo ⟨(Nat.zero_add _).symm.trans hpicked,hm⟩,rfl⟩
  | onward n =>
    obtain ⟨i,hi,rfl⟩ := Option.map_eq_some_iff.1 hd
    obtain ⟨rfl,hn⟩ := place?_eq_some.1 hi
    obtain ⟨before,picked,w,after,rfl,hbefore,hpicked,rfl⟩ := slice?_iff.1 h
    obtain rfl := hends hlength hpicked
    exact ⟨_,.onward ⟨hbefore,hn⟩,rfl⟩

theorem select?_of_picks {choice : Choice} {line : Text} {picked : List Text}
    (h : choice.Picks (Text.words line) picked) :
    ∃ d, choice.designator? = some d ∧ d.select? line = some (Text.join [' '] picked) := by
  simp only [select?_eq_some]
  generalize Text.words line = words at h ⊢
  have hplace {n : Numeral} {before : List Text} (h : n.Counts before) :
      n.place? = some (.at n.value) := place?_eq_some.2 ⟨rfl,h.2⟩
  cases h with
  | @first w v after =>
    exact ⟨_,rfl,after.length + 1,rfl,slice?_iff.2 ⟨[w],[],v,after,rfl,rfl,rfl,rfl⟩⟩
  | @last before w =>
    exact ⟨_,rfl,before.length,by simp,slice?_iff.2 ⟨before,[],w,[],rfl,rfl,rfl,rfl⟩⟩
  | @arguments w =>
    refine ⟨_,rfl,picked.length,rfl,?_⟩
    rcases List.eq_nil_or_concat picked with rfl | ⟨front,v,rfl⟩
    · rfl
    · rw [List.concat_eq_append]
      dsimp only
      rw [if_neg (by simp)]
      exact slice?_iff.2 ⟨[w],front,v,[],rfl,rfl,by simp; omega,rfl⟩
  | @word n before after w hn =>
    refine ⟨_,by rw [Choice.designator?,hplace hn]; rfl,before.length + after.length,
      by simp; omega,?_⟩
    exact slice?_iff.2 ⟨before,[],w,after,rfl,hn.1,hn.1,rfl⟩
  | @range n m before picked after w hn hm =>
    refine ⟨_,by rw [Choice.designator?,hplace hn,hplace hm]; rfl,
      before.length + picked.length + after.length,by simp; omega,?_⟩
    exact slice?_iff.2 ⟨before,picked,w,after,rfl,hn.1,List.length_append.symm.trans hm.1,rfl⟩
  | @butLast n before picked w v hn =>
    refine ⟨_,by rw [Choice.designator?,hplace hn]; rfl,before.length + picked.length + 1,
      by simp; omega,?_⟩
    dsimp only
    rw [if_neg (by omega)]
    exact slice?_iff.2 ⟨before,picked,w,[v],rfl,hn.1,rfl,rfl⟩
  | @upTo m picked after w hm =>
    refine ⟨_,by rw [Choice.designator?,hplace hm]; rfl,picked.length + after.length,
      by simp; omega,?_⟩
    exact slice?_iff.2 ⟨[],picked,w,after,rfl,rfl,(Nat.zero_add _).trans hm.1,rfl⟩
  | @onward n before picked w hn =>
    refine ⟨_,by rw [Choice.designator?,hplace hn]; rfl,before.length + picked.length,
      by simp; omega,?_⟩
    exact slice?_iff.2 ⟨before,picked,w,[],rfl,hn.1,rfl,rfl⟩

theorem select?_choice {choice : Choice} {line text : Text} :
    choice.designator?.bind (·.select? line) = some text ↔
      ∃ picked, choice.Picks (Text.words line) picked ∧ text = Text.join [' '] picked := by
  rw [Option.bind_eq_some_iff]
  constructor
  · rintro ⟨d,hd,h⟩
    exact picks_of_select? hd h
  · rintro ⟨picked,h,rfl⟩
    exact select?_of_picks h

end History

end Realm
