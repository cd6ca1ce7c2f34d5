import Mathlib.Data.List.Infix
import Realm.Proofs.Command.Plain
import Realm.Proofs.Text

/-! The lines that alias templates stand for. A template is read once from left to right; each
reference gives way to what it stands for, which is not read again, and every argument has its
place: where a number names it, or among the others. -/
namespace Realm.Alias

section References

/-- The digits of a reference, with what is behind them. -/
structure IsNumber (digits rest : Text) : Prop where
  ne_nil : digits ≠ []
  digits : ∀ c ∈ digits, Text.isDecimalDigit c = true
  stop : ∀ c ∈ rest.head?, Text.isDecimalDigit c = false

structure IsVariable (name rest : Text) : Prop where
  start : ∃ c ∈ name.head?, Text.isNameStart c = true
  chars : ∀ c ∈ name, Text.isNameChar c = true
  stop : ∀ c ∈ rest.head?, Text.isNameChar c = false

def BeginsReference (t : Text) : Prop :=
  ∃ c ∈ t.head?, Text.isDecimalDigit c = true ∨ c = '*' ∨ Text.isNameStart c = true

/-- A template names the argument with a number. Digits of other scripts and numbers of more than 64
bits are references too, but to no argument. -/
def Names (template : Text) (n : Nat) : Prop :=
  ∃ before digits after, template = before ++ '$' :: (digits ++ after) ∧ IsNumber digits after ∧
    Text.natural? digits = some n

variable {c : Char} {t rest digits name template before after : Text} {p : Piece} {n : Nat}

theorem not_isDecimalDigit_of_isNameStart (h : Text.isNameStart c = true) :
    Text.isDecimalDigit c = false := by
  rcases Bool.or_eq_true_iff.1 h with halpha | hline
  · exact (Text.letter_class halpha).2.2.1
  · rw [beq_iff_eq.1 hline]
    decide +kernel

theorem isNameChar_of_isNameStart (h : Text.isNameStart c = true) :
    Text.isNameChar c = true := by
  simp_all [Text.isNameStart,Text.isNameChar,Char.isAlphanum]
  exact h.imp_left .inl

theorem reference?_number (h : IsNumber digits rest) :
    reference? (digits ++ rest) = some (.argument digits,rest) := by
  cases digits with
  | nil => exact absurd rfl h.ne_nil
  | cons c digits =>
    obtain ⟨hc,hdigits⟩ := List.forall_mem_cons.1 h.digits
    obtain ⟨htake,hdrop⟩ := Text.span_append hdigits h.stop
    rw [List.cons_append,reference?,if_pos hc,htake,hdrop]

@[simp] theorem reference?_star (t : Text) : reference? ('*' :: t) = some (.others,t) := by
  rw [reference?,if_neg (by decide +kernel),if_pos rfl]

theorem reference?_variable (h : IsVariable name rest) :
    reference? (name ++ rest) = some (.variable name,rest) := by
  obtain ⟨c,hhead,hc⟩ := h.start
  cases name with
  | nil => cases hhead
  | cons d name =>
    cases hhead
    have hstar : c ≠ '*' := by rintro rfl; exact absurd hc (by decide)
    obtain ⟨htake,hdrop⟩ := Text.span_append (List.forall_mem_cons.1 h.chars).2 h.stop
    simp [reference?,not_isDecimalDigit_of_isNameStart hc,hstar,hc,htake,hdrop]

theorem reference?_eq_none : reference? t = none ↔ ¬BeginsReference t := by
  cases t with
  | nil => simp [reference?,BeginsReference]
  | cons c t =>
    simp only [reference?,BeginsReference,List.head?_cons,Option.mem_some_iff,exists_eq_left']
    split
    · next h => simp [h]
    · split
      · next h => simp [h]
      · split <;> simp_all

/-- A reference is a number, a star or a variable, as far as its characters go. -/
theorem reference?_cases (h : reference? t = some (p,rest)) :
    (∃ digits, p = .argument digits ∧ t = digits ++ rest ∧ IsNumber digits rest) ∨
      (p = .others ∧ t = '*' :: rest) ∨
      ∃ name, p = .variable name ∧ t = name ++ rest ∧ IsVariable name rest := by
  have hstop (p : Char → Bool) (t : Text) (c : Char) (h : c ∈ (t.dropWhile p).head?) :
      p c = false := by
    have hfirst := List.head?_dropWhile_not p t
    rw [Option.mem_def.1 h] at hfirst
    simpa using hfirst
  unfold reference? at h
  split at h
  · cases h
  · next c t =>
    split at h
    · next hc =>
      cases h
      refine .inl ⟨_,rfl,by simp,List.cons_ne_nil _ _,List.forall_mem_cons.2 ⟨hc,?_⟩,hstop _ _⟩
      exact List.all_eq_true.1 List.all_takeWhile
    · split at h
      · next hc =>
        cases h
        exact .inr (.inl ⟨rfl,by rw [hc]⟩)
      · split at h
        · next hc =>
          cases h
          refine .inr (.inr ⟨_,rfl,by simp,⟨c,rfl,hc⟩,List.forall_mem_cons.2
            ⟨isNameChar_of_isNameStart hc,?_⟩,hstop _ _⟩)
          exact List.all_eq_true.1 List.all_takeWhile
        · cases h

theorem reference?_suffix (h : reference? t = some (p,rest)) : rest <:+ t := by
  rcases reference?_cases h with ⟨_,-,rfl,-⟩ | ⟨-,rfl⟩ | ⟨_,-,rfl,-⟩
  · exact List.suffix_append _ _
  · exact List.suffix_cons _ _
  · exact List.suffix_append _ _

theorem reference?_append (t after : Text) : reference? (t ++ '$' :: after) =
    (reference? t).map fun r => (r.1,r.2 ++ '$' :: after) := by
  have hstop {q : Char → Bool} (hq : q '$' = false) {rest : Text}
      (h : ∀ c ∈ rest.head?, q c = false) : ∀ c ∈ (rest ++ '$' :: after).head?, q c = false := by
    cases rest with
    | nil => simpa using hq
    | cons d rest => exact h
  cases hread : reference? t with
  | none =>
    refine reference?_eq_none.2 fun ⟨c,hc,hbegins⟩ => ?_
    cases t with
    | nil =>
      cases hc
      revert hbegins
      decide +kernel
    | cons d t => exact reference?_eq_none.1 hread ⟨c,hc,hbegins⟩
  | some r =>
    obtain ⟨p,rest⟩ := r
    rcases reference?_cases hread with ⟨digits,rfl,rfl,h⟩ | ⟨rfl,rfl⟩ | ⟨name,rfl,rfl,h⟩
    · rw [List.append_assoc]
      exact reference?_number ⟨h.ne_nil,h.digits,hstop (by decide +kernel) h.stop⟩
    · exact reference?_star _
    · rw [List.append_assoc]
      exact reference?_variable ⟨h.start,h.chars,hstop (by decide) h.stop⟩

@[simp] theorem pieces_nil : pieces [] = [] := by
  rw [pieces]

theorem pieces_reference (h : reference? t = some (p,rest)) :
    pieces ('$' :: t) = p :: pieces rest := by
  rw [pieces,if_pos rfl]
  split
  · next h' =>
    rw [h] at h'
    cases h'
    rfl
  · next h' =>
    rw [h] at h'
    cases h'

theorem pieces_char (h : c = '$' → ¬BeginsReference t) :
    pieces (c :: t) = .char c :: pieces t := by
  rw [pieces]
  split
  · next hc =>
    have hnone := reference?_eq_none.2 (h hc)
    split
    · next h' =>
      rw [hnone] at h'
      cases h'
    · rw [hc]
  · rfl

theorem pieces_append (before t : Text) :
    pieces (before ++ '$' :: t) = pieces before ++ pieces ('$' :: t) := by
  fun_induction pieces before with
  | case1 => rfl
  | case2 b piece rest hread ih =>
    have h : reference? (b ++ '$' :: t) = some (piece,rest ++ '$' :: t) := by
      rw [reference?_append,hread]
      rfl
    rw [List.cons_append,pieces_reference h,ih]
    rfl
  | case3 b hnone ih =>
    have h : reference? (b ++ '$' :: t) = none := by rw [reference?_append,hnone]; rfl
    rw [List.cons_append,pieces_char fun _ => reference?_eq_none.1 h,ih]
    rfl
  | case4 c b hc ih =>
    rw [List.cons_append,pieces_char fun h => absurd h hc,ih]
    rfl

/-- A reference has its place among the pieces where it stands in the template. -/
theorem pieces_occurrence (before : Text) (h : reference? t = some (p,after)) :
    pieces (before ++ '$' :: t) = pieces before ++ p :: pieces after := by
  rw [pieces_append,pieces_reference h]

theorem exists_of_mem_pieces (hp : p ∈ pieces template) (hchar : ∀ c, p ≠ .char c) :
    ∃ before t after, template = before ++ '$' :: t ∧ reference? t = some (p,after) := by
  fun_induction pieces template with
  | case1 => cases hp
  | case2 t piece rest hread ih =>
    rcases List.mem_cons.1 hp with rfl | hp
    · exact ⟨[],t,rest,rfl,hread⟩
    · obtain ⟨before,t',after,rfl,h⟩ := ih hp
      obtain ⟨taken,rfl⟩ := reference?_suffix hread
      exact ⟨'$' :: (taken ++ before),t',after,by simp,h⟩
  | case3 t _ ih =>
    obtain ⟨before,t',after,rfl,h⟩ := ih (List.mem_of_ne_of_mem (hchar _) hp)
    exact ⟨'$' :: before,t',after,rfl,h⟩
  | case4 c t _ ih =>
    obtain ⟨before,t',after,rfl,h⟩ := ih (List.mem_of_ne_of_mem (hchar _) hp)
    exact ⟨c :: before,t',after,rfl,h⟩

theorem isNamed_iff : isNamed (pieces template) n = true ↔ Names template n := by
  constructor
  · intro h
    obtain ⟨p,hp,hn⟩ := List.any_eq_true.1 h
    cases p with
    | argument digits =>
      obtain ⟨before,t,after,rfl,hread⟩ := exists_of_mem_pieces hp fun _ => Piece.noConfusion
      rcases reference?_cases hread with ⟨_,heq,rfl,hdigits⟩ | ⟨heq,-⟩ | ⟨_,heq,-⟩
      · cases heq
        exact ⟨before,digits,after,rfl,hdigits,of_decide_eq_true hn⟩
      · cases heq
      · cases heq
    | _ => cases hn
  · rintro ⟨before,digits,after,rfl,h,hn⟩
    rw [pieces_occurrence before (reference?_number h)]
    simp [isNamed,hn]

theorem others_mem_pieces : .others ∈ pieces template ↔ ['$','*'] <:+: template := by
  constructor
  · intro h
    obtain ⟨before,t,after,rfl,hread⟩ := exists_of_mem_pieces h fun _ => Piece.noConfusion
    rcases reference?_cases hread with ⟨_,heq,-⟩ | ⟨-,rfl⟩ | ⟨_,heq,-⟩
    · cases heq
    · exact ⟨before,after,by simp⟩
    · cases heq
  · rintro ⟨before,after,rfl⟩
    have heq : before ++ ['$','*'] ++ after = before ++ '$' :: '*' :: after := by simp
    rw [heq,pieces_occurrence before (reference?_star after)]
    simp

end References

section Arguments

/-- The arguments from a number on that a template does not name, in their order. -/
inductive Leaves (template : Text) : Nat → List Text → List Text → Prop
  | nil {n : Nat} : Leaves template n [] []
  | named {n : Nat} {arg : Text} {args others : List Text} : Names template n →
    Leaves template (n + 1) args others → Leaves template n (arg :: args) others
  | other {n : Nat} {arg : Text} {args others : List Text} : ¬Names template n →
    Leaves template (n + 1) args others → Leaves template n (arg :: args) (arg :: others)

variable {template arg : Text} {args others : List Text} {n : Nat}

theorem leaves_unnamed (template : Text) (args : List Text) :
    Leaves template 1 args (unnamed (pieces template) args) := by
  unfold unnamed
  generalize 1 = n
  induction args generalizing n with
  | nil => exact .nil
  | cons arg args ih =>
    rw [List.zipIdx_cons,List.filterMap_cons]
    by_cases h : isNamed (pieces template) n = true
    · simpa [h] using .named (isNamed_iff.1 h) (ih (n + 1))
    · simpa [h] using .other (mt isNamed_iff.2 h) (ih (n + 1))

theorem Leaves.mem {i : Nat} (h : Leaves template n args others) (harg : args[i]? = some arg)
    (hn : ¬Names template (n + i)) : arg ∈ others := by
  induction h generalizing i with
  | nil => cases harg
  | @named n _ _ _ hnamed _ ih =>
    cases i with
    | zero => exact absurd hnamed hn
    | succ i => exact ih harg (by rwa [Nat.add_right_comm])
  | @other n _ _ _ _ _ ih =>
    cases i with
    | zero =>
      cases harg
      exact .head _
    | succ i => exact .tail _ (ih harg (by rwa [Nat.add_right_comm]))

theorem infix_join (h : arg ∈ args) : arg <:+: Text.join [' '] args := by
  induction args with
  | nil => cases h
  | cons x xs ih =>
    cases xs with
    | nil =>
      obtain rfl := List.mem_singleton.1 h
      simp [Text.join]
    | cons y ys =>
      rw [Text.join,List.intercalate_cons_cons]
      rcases List.mem_cons.1 h with rfl | h
      · exact ⟨[],_,(List.append_assoc ..).symm⟩
      · exact (ih h).trans (List.suffix_append _ _).isInfix

end Arguments

section Rewriting

variable {σ : Type}

/-- A template, or the end of one, is rewritten from left to right. References give way to what
they stand for: the name of the alias for the number zero, an argument for its number, the others
for a star and a value for the name of a variable, if variables are expanded. -/
inductive Rewrites (o : Options σ) (expandVariables : Bool) (name : Text)
    (args others : List Text) : Text → σ → Text → σ → Prop
  | nil {s : σ} : Rewrites o expandVariables name args others [] s [] s
  | number {digits t out : Text} {s s' : σ} : IsNumber digits t →
    Rewrites o expandVariables name args others t s out s' →
    Rewrites o expandVariables name args others ('$' :: (digits ++ t)) s
      (((Text.natural? digits).bind ((name :: args)[·]?)).getD [] ++ out) s'
  | star {t out : Text} {s s' : σ} : Rewrites o expandVariables name args others t s out s' →
    Rewrites o expandVariables name args others ('$' :: '*' :: t) s
      (Text.join [' '] others ++ out) s'
  | value {v t out : Text} {s s' : σ} : expandVariables = true → IsVariable v t →
    Rewrites o expandVariables name args others t (o.valueOf v s).2 out s' →
    Rewrites o expandVariables name args others ('$' :: (v ++ t)) s ((o.valueOf v s).1 ++ out) s'
  | literal {v t out : Text} {s s' : σ} : expandVariables = false → IsVariable v t →
    Rewrites o expandVariables name args others t s out s' →
    Rewrites o expandVariables name args others ('$' :: (v ++ t)) s ('$' :: (v ++ out)) s'
  | char {c : Char} {t out : Text} {s s' : σ} : (c = '$' → ¬BeginsReference t) →
    Rewrites o expandVariables name args others t s out s' →
    Rewrites o expandVariables name args others (c :: t) s (c :: out) s'

variable {o : Options σ} {expandVariables : Bool} {name template t out : Text}
  {args others : List Text} {s s' : σ} {p : Piece} {ps : List Piece}

/-- What pieces are replaced by, one after the other. -/
def replaced (o : Options σ) (expandVariables : Bool) (name : Text) (args others : List Text) :
    List Piece → σ → Text × σ
  | [], s => ([],s)
  | p :: ps, s =>
    let r := p.expand o expandVariables name args others s
    let r' := replaced o expandVariables name args others ps r.2
    (r.1 ++ r'.1,r'.2)

theorem mapM_expand (ps : List Piece) (s : σ) :
    ((ps.mapM (Piece.expand o expandVariables name args others) s).1.flatten,
      (ps.mapM (Piece.expand o expandVariables name args others) s).2) =
        replaced o expandVariables name args others ps s := by
  induction ps generalizing s with
  | nil => rfl
  | cons p ps ih =>
    rw [List.mapM_cons,replaced,← ih]
    rfl

theorem replaced_append (ps ps' : List Piece) (s : σ) :
    replaced o expandVariables name args others (ps ++ ps') s =
      ((replaced o expandVariables name args others ps s).1 ++ (replaced o expandVariables name
        args others ps' (replaced o expandVariables name args others ps s).2).1,
        (replaced o expandVariables name args others ps'
          (replaced o expandVariables name args others ps s).2).2) := by
  induction ps generalizing s with
  | nil => rfl
  | cons p ps ih => simp [replaced,ih]

theorem numbered_eq (digits : Text) :
    numbered name args digits = ((Text.natural? digits).bind ((name :: args)[·]?)).getD [] := by
  unfold numbered
  split <;> simp_all

theorem replaced_pure {x : Text} (h : p.expand o expandVariables name args others = pure x)
    (ps : List Piece) (s : σ) : replaced o expandVariables name args others (p :: ps) s =
      (x ++ (replaced o expandVariables name args others ps s).1,
        (replaced o expandVariables name args others ps s).2) := by
  rw [replaced,h]
  rfl

@[simp] theorem expand_argument (digits : Text) :
    (Piece.argument digits).expand o expandVariables name args others =
      pure (((Text.natural? digits).bind ((name :: args)[·]?)).getD []) := by
  rw [Piece.expand,numbered_eq]

theorem expand_value (h : expandVariables = true) (v : Text) :
    (Piece.variable v).expand o expandVariables name args others = o.valueOf v :=
  if_pos h

theorem expand_literal (h : expandVariables = false) (v : Text) :
    (Piece.variable v).expand o expandVariables name args others = pure ('$' :: v) :=
  if_neg (by rw [h]; decide)

theorem rewrites_replaced (template : Text) (s : σ) :
    Rewrites o expandVariables name args others template s
      (replaced o expandVariables name args others (pieces template) s).1
      (replaced o expandVariables name args others (pieces template) s).2 := by
  fun_induction pieces template generalizing s with
  | case1 => exact .nil
  | case2 t piece rest hread ih =>
    rcases reference?_cases hread with ⟨digits,rfl,rfl,h⟩ | ⟨rfl,rfl⟩ | ⟨v,rfl,rfl,h⟩
    · rw [replaced_pure (expand_argument digits)]
      exact .number h (ih s)
    · exact .star (ih s)
    · by_cases he : expandVariables = true
      · rw [replaced,expand_value he]
        exact .value he h (ih _)
      · have he := Bool.eq_false_iff.2 he
        rw [replaced_pure (expand_literal he v)]
        exact .literal he h (ih s)
  | case3 t hnone ih => exact .char (fun _ => reference?_eq_none.1 hnone) (ih s)
  | case4 c t hc ih => exact .char (fun h => absurd h hc) (ih s)

theorem rewrites_iff : Rewrites o expandVariables name args others template s out s' ↔
    replaced o expandVariables name args others (pieces template) s = (out,s') := by
  constructor
  · intro h
    induction h with
    | nil => rw [pieces_nil,replaced]
    | number h _ ih =>
      rw [pieces_reference (reference?_number h),replaced_pure (expand_argument _),ih]
    | star _ ih => rw [pieces_reference (reference?_star _),replaced_pure rfl,ih]
    | value he h _ ih =>
      rw [pieces_reference (reference?_variable h),replaced,expand_value he,ih]
    | literal he h _ ih =>
      rw [pieces_reference (reference?_variable h),replaced_pure (expand_literal he _),ih]
      rfl
    | char hc _ ih =>
      rw [pieces_char hc,replaced_pure rfl,ih]
      rfl
  · intro h
    have hreplaced := @rewrites_replaced σ o expandVariables name args others template s
    rwa [h] at hreplaced

/-- What a template is rewritten to is put together from what is before a reference that stands
for some text, this text, and what is behind it. -/
theorem Rewrites.occurrence {before after x : Text}
    (h : Rewrites o expandVariables name args others (before ++ '$' :: t) s out s')
    (hread : reference? t = some (p,after))
    (hp : p.expand o expandVariables name args others = pure x) :
    ∃ a b middle, Rewrites o expandVariables name args others before s a middle ∧
      Rewrites o expandVariables name args others after middle b s' ∧ out = a ++ x ++ b := by
  rw [rewrites_iff,pieces_occurrence before hread,replaced_append,replaced_pure hp] at h
  obtain ⟨rfl,rfl⟩ := Prod.mk.inj h
  exact ⟨_,_,_,rewrites_replaced before s,rewrites_replaced after _,(List.append_assoc ..).symm⟩

/-- The line of an alias is its template rewritten, and behind it the others if they have no place
in the template. -/
theorem expand_eq (o : Options σ) (expandVariables : Bool) (name template : Text)
    (args : List Text) (s : σ) : expand o expandVariables name template args s =
      (let others := unnamed (pieces template) args
      let r := replaced o expandVariables name args others (pieces template) s
      (if ['$','*'] <:+: template ∨ others = [] then r.1
        else r.1 ++ ' ' :: Text.join [' '] others,r.2)) := by
  have hplace : ((pieces template).contains .others ||
      (unnamed (pieces template) args).isEmpty) = true ↔
        ['$','*'] <:+: template ∨ unnamed (pieces template) args = [] := by
    simp [others_mem_pieces,List.isEmpty_iff]
  have hreplaced := @mapM_expand σ o expandVariables name args
    (unnamed (pieces template) args) (pieces template) s
  rw [expand]
  dsimp only
  rw [← hreplaced]
  simp only [bind,StateT.bind,hplace]
  by_cases h : ['$','*'] <:+: template ∨ unnamed (pieces template) args = []
  · simp only [if_pos h]
    rfl
  · simp only [if_neg h]
    rfl

/-- Aliases are expanded in one pass, and no argument is lost. The template is rewritten, and what
is put in is not read again; what is not named by a number is put where a star stands, or behind all
the rest. An argument stands at each number that names it, or else among the others at each star,
or else behind. -/
theorem expand_arguments (o : Options σ) (expandVariables : Bool) (name template : Text)
    (args : List Text) (s : σ) : ∃ others out s', Leaves template 1 args others ∧
      Rewrites o expandVariables name args others template s out s' ∧
      (∀ out' s'', Rewrites o expandVariables name args others template s out' s'' →
        out' = out ∧ s'' = s') ∧
      expand o expandVariables name template args s =
        (if ['$','*'] <:+: template ∨ others = [] then out
          else out ++ ' ' :: Text.join [' '] others,s') ∧
      ∀ i arg, args[i]? = some arg →
        (∀ before digits after, template = before ++ '$' :: (digits ++ after) →
          IsNumber digits after → Text.natural? digits = some (i + 1) →
          ∃ a b middle, Rewrites o expandVariables name args others before s a middle ∧
            Rewrites o expandVariables name args others after middle b s' ∧
            out = a ++ arg ++ b) ∧
        (¬Names template (i + 1) → arg <:+: Text.join [' '] others ∧ others ≠ [] ∧
          ∀ before after, template = before ++ '$' :: '*' :: after →
            ∃ a b middle, Rewrites o expandVariables name args others before s a middle ∧
              Rewrites o expandVariables name args others after middle b s' ∧
              out = a ++ Text.join [' '] others ++ b) := by
  have hrewrites := @rewrites_replaced σ o expandVariables name args
    (unnamed (pieces template) args) template s
  have hleaves := leaves_unnamed template args
  refine ⟨_,_,_,hleaves,hrewrites,fun out' s'' h => ?_,expand_eq ..,fun i arg harg => ⟨?_,?_⟩⟩
  · exact Prod.mk.inj ((rewrites_iff.1 h).symm.trans rfl)
  · rintro before digits after rfl hdigits hn
    have hvalue : (Piece.argument digits).expand o expandVariables name args
        (unnamed (pieces (before ++ '$' :: (digits ++ after))) args) = pure arg := by
      rw [expand_argument,hn]
      simp [harg]
    exact hrewrites.occurrence (reference?_number hdigits) hvalue
  · intro hn
    have hmem := hleaves.mem harg (by rwa [Nat.add_comm])
    refine ⟨infix_join hmem,List.ne_nil_of_mem hmem,?_⟩
    rintro before after rfl
    exact hrewrites.occurrence (reference?_star after) rfl

end Rewriting

end Realm.Alias
