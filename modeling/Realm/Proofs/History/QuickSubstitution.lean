import Realm.Proofs.History.Reference

/-! Quick substitution beside the modifier that substitutes. The line `^old^new^` and the
reference `!!:s/old/new/` change the previous line alike, as long as there is no blank in `new`;
a blank ends the reference, and what has been read of `new` up to there is the replacement. -/
namespace Realm.History

/-- The line that substitutes in the previous line. -/
def quickForm (old new : Text) : Text :=
  '^' :: (old ++ '^' :: (new ++ ['^']))

/-- The reference to the previous line that substitutes in it, with all that follows the
delimiter in its middle. -/
def openSlashForm (old tail : Text) : Text :=
  '!' :: '!' :: ':' :: 's' :: '/' :: (old ++ '/' :: tail)

/-- The reference to the previous line that substitutes in it. -/
def slashForm (old new : Text) : Text :=
  openSlashForm old (new ++ ['/'])

/-- A text of which neither form makes anything else than part of a field. -/
def IsField (t : Text) : Prop :=
  ∀ c ∈ t, c ≠ '^' ∧ c ≠ '/' ∧ c ≠ '\\'

variable {history : List Text} {last : Option Substitution} {old new previous : Text}

theorem quickSubstitute_empty {line : Text} (h : history.getLast? = none) :
    quickSubstitute line history = .error (.history (.eventNotFound line)) := by
  rw [quickSubstitute,h]

theorem quickSubstitute_quickForm (hold : IsField old) (hnew : IsField new)
    (h : history.getLast? = some previous) :
    quickSubstitute (quickForm old new) history =
      match Substitution.apply? ⟨old,new⟩ false previous with
      | some text => .ok (text,⟨old,new⟩)
      | none => .error (.history (.substitutionFailed (quickForm old new))) := by
  have hbody : (quickForm old new).drop 1 = old ++ '^' :: (new ++ ['^']) := rfl
  have hfirst : Text.splitFirst? '^' (old ++ '^' :: (new ++ ['^'])) = some (old,new ++ ['^']) :=
    Text.splitFirst?_append (fun hc => (hold _ hc).1 rfl) _
  have hsecond : Text.splitFirst? '^' (new ++ ['^']) = some (new,[]) :=
    Text.splitFirst?_append (fun hc => (hnew _ hc).1 rfl) _
  have htrailing : (quickForm old new).take ((quickForm old new).length - 0) =
      quickForm old new := List.take_length
  cases hline : Substitution.apply? ⟨old,new⟩ false previous <;>
    simp only [quickSubstitute,h,hbody,hfirst,Option.getD_some,hsecond,List.append_nil,
      List.length_nil,htrailing,hline]

/-- A modifier that substitutes, with the end of its replacement where the text ends. -/
theorem read_substitute {tail rest : Text} {closed : Bool} (hold : IsField old)
    (h : readField '/' true tail = (new,rest,closed)) :
    Modifier.read ('s' :: '/' :: (old ++ '/' :: tail)) = .ok (.substitute false old new,rest) := by
  have hpattern : readField '/' false (old ++ '/' :: tail) = (old,tail,true) :=
    readField_written (fun c hc => ⟨(hold c hc).2.1,(hold c hc).2.2,rfl⟩) (by decide)
  simp only [Modifier.read,Modifier.readSubstitution,hpattern,h,if_true]

theorem apply_substitute (reference : Text) (hne : old ≠ []) :
    (Modifier.substitute false old new).apply reference ⟨previous,false,none,last⟩ =
      match Substitution.apply? ⟨old,new⟩ false previous with
      | some text => .ok ⟨text,false,some ⟨old,new⟩,some ⟨old,new⟩⟩
      | none => .error (.substitutionFailed reference) := by
  cases hline : Substitution.apply? ⟨old,new⟩ false previous <;>
    simp only [Modifier.apply,if_neg hne,hline]

theorem resolve_empty {input : Text} (h : history.getLast? = none) :
    resolve history last ('!' :: '!' :: input) = .error (.history (.eventNotFound ['!','!'])) := by
  have hpart : readPart ('!' :: input) input = ['!','!'] := by simp [readPart]
  simp only [resolve,List.drop_succ_cons,List.drop_zero,resolveAfterMark,Event.read?,Event.find?,
    h,hpart]

theorem resolve_openSlashForm {tail rest reference : Text} {closed : Bool} (hne : old ≠ [])
    (hold : IsField old) (h : history.getLast? = some previous)
    (hfield : readField '/' true tail = (new,rest,closed)) (hrest : rest.head? ≠ some ':')
    (hreference : openSlashForm old tail = '!' :: (reference ++ rest)) :
    resolve history last (openSlashForm old tail) =
      match Substitution.apply? ⟨old,new⟩ false previous with
      | some text => .ok ⟨text,'!' :: reference,false,some ⟨old,new⟩⟩
      | none => .error (.history (.substitutionFailed ('!' :: reference))) := by
  have hinput := (List.cons.inj hreference).2
  have hpart := readPart_written reference rest
  have hends (p : Progress) : applyModifiers (reference ++ rest) p rest = .ok (p,rest) := by
    rw [applyModifiers]
    rintro t rfl
    exact hrest rfl
  have hmodifiers : applyModifiers (reference ++ rest) ⟨previous,false,none,last⟩
      (':' :: 's' :: '/' :: (old ++ '/' :: tail)) =
      match Substitution.apply? ⟨old,new⟩ false previous with
      | some text => .ok (⟨text,false,some ⟨old,new⟩,some ⟨old,new⟩⟩,rest)
      | none => .error (.substitutionFailed ('!' :: reference)) := by
    rw [applyModifiers_read _ (read_substitute hold hfield),apply_substitute _ hne,hpart]
    cases Substitution.apply? ⟨old,new⟩ false previous with
    | none => rfl
    | some text => exact hends _
  have hread : Event.read? (reference ++ rest) =
      some ⟨.previous,none,':' :: 's' :: '/' :: (old ++ '/' :: tail)⟩ := by
    rw [← hinput]
    rfl
  have hwords : writtenDesignator? (':' :: 's' :: '/' :: (old ++ '/' :: tail)) = none := rfl
  simp only [hreference,resolve,List.drop_succ_cons,List.drop_zero,resolveAfterMark,hread,
    Event.find?,h,designatedWords,hwords,hmodifiers]
  cases Substitution.apply? ⟨old,new⟩ false previous with
  | none => rfl
  | some text =>
    dsimp only
    rw [hpart]

/-- Whether there is something to replace does not depend on what it is replaced by. -/
theorem substitute_eq_none {s : Substitution} {everywhere : Bool} {t : Text} :
    s.apply? everywhere t = none ↔ s.pattern = [] ∨ Text.contains s.pattern t = false := by
  unfold Substitution.apply?
  split
  · next h => simpa using h
  · next h => cases everywhere <;> simpa using h

theorem free_or_split (t : Text) :
    (∀ c ∈ t, Text.isBlank c = false) ∨
      ∃ kept c left, t = kept ++ c :: left ∧ (∀ d ∈ kept, Text.isBlank d = false) ∧
        Text.isBlank c = true := by
  induction t with
  | nil => exact .inl (List.forall_mem_nil _)
  | cons c t ih =>
    cases hc : Text.isBlank c with
    | true => exact .inr ⟨[],c,t,rfl,List.forall_mem_nil _,hc⟩
    | false =>
      rcases ih with hfree | ⟨kept,d,left,rfl,hkept,hd⟩
      · exact .inl (List.forall_mem_cons.2 ⟨hc,hfree⟩)
      · exact .inr ⟨c :: kept,d,left,rfl,List.forall_mem_cons.2 ⟨hc,hkept⟩,hd⟩

theorem IsField.readField_append (hnew : IsField new)
    (hfree : ∀ c ∈ new, Text.isBlank c = false) (rest : Text) :
    readField '/' true (new ++ rest) =
      (new ++ (readField '/' true rest).1,(readField '/' true rest).2) :=
  History.readField_append fun c hc => ⟨(hnew c hc).2.1,(hnew c hc).2.2,hfree c hc⟩

theorem resolve_slashForm (hne : old ≠ []) (hold : IsField old) (hnew : IsField new)
    (hfree : ∀ c ∈ new, Text.isBlank c = false) (h : history.getLast? = some previous) :
    resolve history last (slashForm old new) =
      match Substitution.apply? ⟨old,new⟩ false previous with
      | some text => .ok ⟨text,slashForm old new,false,some ⟨old,new⟩⟩
      | none => .error (.history (.substitutionFailed (slashForm old new))) := by
  have hfield : readField '/' true (new ++ ['/']) = (new,[],true) := by
    rw [hnew.readField_append hfree,readField_cons (by decide),if_pos rfl,List.append_nil]
  have hrest : ([] : Text).head? ≠ some ':' := by simp
  exact resolve_openSlashForm hne hold h hfield hrest (by rw [List.append_nil]; rfl)

theorem resolve_slashForm_blank {kept left : Text} {c : Char} (hne : old ≠ [])
    (hold : IsField old) (hnew : IsField (kept ++ c :: left))
    (hfree : ∀ d ∈ kept, Text.isBlank d = false) (hc : Text.isBlank c = true)
    (h : history.getLast? = some previous) :
    resolve history last (slashForm old (kept ++ c :: left)) =
      match Substitution.apply? ⟨old,kept⟩ false previous with
      | some text => .ok ⟨text,openSlashForm old kept,false,some ⟨old,kept⟩⟩
      | none => .error (.history (.substitutionFailed (openSlashForm old kept))) := by
  obtain ⟨hkept,hrest⟩ := List.forall_mem_append.1 hnew
  obtain ⟨⟨-,hslash,hbackslash⟩,-⟩ := List.forall_mem_cons.1 hrest
  have hfield : readField '/' true (kept ++ c :: left ++ ['/']) =
      (kept,c :: (left ++ ['/']),false) := by
    simp [IsField.readField_append hkept hfree,readField_cons hbackslash,hslash,hc]
  have hcolon : (c :: (left ++ ['/'])).head? ≠ some ':' := by
    rintro ⟨⟩
    cases hc
  exact resolve_openSlashForm hne hold h hfield hcolon (by simp [openSlashForm])

/-- Quick substitution and the substitution modifier fail together. Where they succeed and there
is no blank in the replacement, they give the same line and remember the same substitution, and
the reference is taken to its end. A blank in the replacement ends the reference: then the
modifier does what quick substitution does with the replacement up to the blank. -/
theorem resolve_quickForm (history : List Text) (last : Option Substitution) {old new : Text}
    (hne : old ≠ []) (hold : IsField old) (hnew : IsField new) :
    ((∃ e, quickSubstitute (quickForm old new) history = .error e) ∧
      ∃ e, resolve history last (slashForm old new) = .error e) ∨
    ∃ line, quickSubstitute (quickForm old new) history = .ok (line,⟨old,new⟩) ∧
      ((∀ c ∈ new, Text.isBlank c = false) →
        resolve history last (slashForm old new) =
          .ok ⟨line,slashForm old new,false,some ⟨old,new⟩⟩) ∧
      ∀ kept c left, new = kept ++ c :: left → (∀ d ∈ kept, Text.isBlank d = false) →
        Text.isBlank c = true → ∃ cut,
          quickSubstitute (quickForm old kept) history = .ok (cut,⟨old,kept⟩) ∧
          resolve history last (slashForm old new) =
            .ok ⟨cut,openSlashForm old kept,false,some ⟨old,kept⟩⟩ := by
  cases hlast : history.getLast? with
  | none => exact .inl ⟨⟨_,quickSubstitute_empty hlast⟩,⟨_,resolve_empty hlast⟩⟩
  | some previous =>
    have hquick := quickSubstitute_quickForm hold hnew hlast
    cases hcontains : Text.contains old previous with
    | false =>
      have hnone (new : Text) : Substitution.apply? ⟨old,new⟩ false previous = none :=
        substitute_eq_none.2 (.inr hcontains)
      rw [hnone] at hquick
      refine .inl ⟨⟨_,hquick⟩,?_⟩
      rcases free_or_split new with hfree | ⟨kept,c,left,rfl,hkept,hc⟩
      · exact ⟨_,by rw [resolve_slashForm hne hold hnew hfree hlast,hnone]⟩
      · exact ⟨_,by rw [resolve_slashForm_blank hne hold hnew hkept hc hlast,hnone]⟩
    | true =>
      have hsome (new : Text) : ∃ text,
          Substitution.apply? ⟨old,new⟩ false previous = some text := by
        refine Option.ne_none_iff_exists'.1 fun hnone => ?_
        rcases substitute_eq_none.1 hnone with hnil | hfalse
        · exact hne hnil
        · rw [hcontains] at hfalse
          cases hfalse
      obtain ⟨line,hline⟩ := hsome new
      rw [hline] at hquick
      refine .inr ⟨line,hquick,fun hfree => ?_,?_⟩
      · rw [resolve_slashForm hne hold hnew hfree hlast,hline]
      · rintro kept c left rfl hkept hc
        obtain ⟨cut,hcut⟩ := hsome kept
        have hfield := (List.forall_mem_append.1 hnew).1
        refine ⟨cut,?_,?_⟩
        · rw [quickSubstitute_quickForm hold hfield hlast,hcut]
        · rw [resolve_slashForm_blank hne hold hnew hkept hc hlast,hcut]

/-- After the line `a`, both forms make the line `b` of it. -/
theorem resolve_quickForm_letter :
    (['a'] : Text) ≠ [] ∧ IsField ['a'] ∧ IsField ['b'] ∧
      quickSubstitute (quickForm ['a'] ['b']) [['a']] = .ok (['b'],⟨['a'],['b']⟩) ∧
      resolve [['a']] none (slashForm ['a'] ['b']) =
        .ok ⟨['b'],slashForm ['a'] ['b'],false,some ⟨['a'],['b']⟩⟩ := by
  have hne : (['a'] : Text) ≠ [] := List.cons_ne_nil _ _
  have hold : IsField ['a'] := by simp [IsField]
  have hnew : IsField ['b'] := by simp [IsField]
  have hquick : quickSubstitute (quickForm ['a'] ['b']) [['a']] =
      .ok (['b'],⟨['a'],['b']⟩) := rfl
  have hfree : ∀ c ∈ (['b'] : Text), Text.isBlank c = false := List.forall_mem_singleton.2 rfl
  refine ⟨hne,hold,hnew,hquick,?_⟩
  rcases resolve_quickForm [['a']] none hne hold hnew with ⟨⟨e,he⟩,-⟩ | ⟨line,hline,hresolve,-⟩
  · cases hquick.symm.trans he
  · cases hquick.symm.trans hline
    exact hresolve hfree

/-- With a blank in the replacement the two forms differ: after the line `a`, the line `^a^b c^`
stands for `b c`, and `!!:s/a/b c/` for `b`, with ` c/` left behind. -/
theorem not_resolve_quickForm :
    ¬ ∀ (history : List Text) (last : Option Substitution) (old new : Text),
      old ≠ [] → IsField old → IsField new →
      ((∃ e, quickSubstitute (quickForm old new) history = .error e) ∧
        ∃ e, resolve history last (slashForm old new) = .error e) ∨
      ∃ line sub r, quickSubstitute (quickForm old new) history = .ok (line,sub) ∧
        resolve history last (slashForm old new) = .ok r ∧ r.text = line ∧
        r.substitution = some sub ∧ r.reference = slashForm old new := by
  intro hall
  have hne : (['a'] : Text) ≠ [] := List.cons_ne_nil _ _
  have hold : IsField ['a'] := by simp [IsField]
  have hnew : IsField ['b',' ','c'] := by simp [IsField]
  have hkept : ∀ d ∈ (['b'] : Text), Text.isBlank d = false := List.forall_mem_singleton.2 rfl
  have hresolve : resolve [['a']] none (slashForm ['a'] ['b',' ','c']) =
      .ok ⟨['b'],openSlashForm ['a'] ['b'],false,some ⟨['a'],['b']⟩⟩ :=
    @resolve_slashForm_blank [['a']] none ['a'] ['a'] ['b'] ['c'] ' ' hne hold hnew hkept rfl rfl
  rcases hall [['a']] none _ _ hne hold hnew with ⟨-,e,he⟩ | ⟨line,sub,r,-,hr,-,-,hreference⟩
  · cases hresolve.symm.trans he
  · cases hresolve.symm.trans hr
    cases hreference

end Realm.History
