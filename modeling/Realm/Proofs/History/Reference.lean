import Realm.Proofs.History.Meaning

/-! Whole history references. A reference that is written by the grammar, and followed by the
end of the text or a blank, is resolved to what it means: a line is selected, then words of it,
and then the changes apply from left to right. -/
namespace Realm.History

/-- The text that a reference begins with: a line, or words of it. -/
inductive Start.Selects (history : List Text) : Start → Text → Prop
  | line {name : Name} {line : Text} : name.Names history line →
    Selects history (.named name none) line
  | words {name : Name} {choice : Choice} {line : Text} {picked : List Text} :
    name.Names history line → choice.Picks (Text.words line) picked →
    Selects history (.named name (some choice)) (Text.join [' '] picked)
  | short {sign : Sign} {line : Text} {picked : List Text} :
    Name.previous.Names history line → (Choice.sign sign).Picks (Text.words line) picked →
    Selects history (.short sign) (Text.join [' '] picked)

/-- What a reference means, when `last` is the substitution that it may repeat. -/
def Reference.Means (history : List Text) (last : Option Substitution) (r : Reference)
    (p : Progress) : Prop :=
  ∃ text, r.start.Selects history text ∧ MakeAll r.changes ⟨text,false,none,last⟩ p

@[simp] theorem readPart_written (input rest : Text) :
    readPart (input ++ rest) rest = '!' :: input := by
  simp [readPart]

section Changes

variable {input tail : Text}

theorem applyModifiers_ends (p : Progress) (h : Ends tail) :
    applyModifiers input p tail = .ok (p,tail) := by
  rw [applyModifiers]
  rintro t rfl
  exact h.head_ne rfl

theorem applyModifiers_read {t rest : Text} {m : Modifier} (p : Progress)
    (h : Modifier.read t = .ok (m,rest)) :
    applyModifiers input p (':' :: t) =
      match m.apply (readPart input rest) p with
      | .error e => .error e
      | .ok p => applyModifiers input p rest := by
  rw [applyModifiers]
  split
  · next h' => rw [h] at h'; cases h'
  · next h' => rw [h] at h'; cases h'
  · next h' => rw [h] at h'; cases h'
  · next h' => rw [h] at h'; cases h'; rfl

theorem applyModifiers_cons (change : Change) (p : Progress) (rest : Text) :
    applyModifiers input p (change.written ++ rest) =
      match change.modifier.apply (readPart input rest) p with
      | .error e => .error e
      | .ok p => applyModifiers input p rest :=
  applyModifiers_read p (read_change change rest)

theorem applyModifiers_changes {changes : List Change} {p q : Progress} {rest : Text}
    (h : Ends tail) :
    applyModifiers input p (changes.flatMap Change.written ++ tail) = .ok (q,rest) ↔
      rest = tail ∧ MakeAll changes p q := by
  induction changes generalizing p with
  | nil =>
    rw [List.flatMap_nil,List.nil_append,applyModifiers_ends p h]
    constructor
    · rintro ⟨⟩
      exact ⟨rfl,.nil⟩
    · rintro ⟨rfl,⟨⟩⟩
      rfl
  | cons change changes ih =>
    rw [List.flatMap_cons,List.append_assoc,applyModifiers_cons]
    constructor
    · intro ha
      split at ha
      · cases ha
      · next p' hp' =>
        obtain ⟨hrest,hall⟩ := ih.1 ha
        exact ⟨hrest,.cons (apply_iff.1 hp') hall⟩
    · rintro ⟨hrest,hall⟩
      cases hall with
      | cons hmakes hall =>
        rw [apply_iff.2 hmakes]
        exact ih.2 ⟨hrest,hall⟩

end Changes

section Selection

variable {history : List Text} {input line text rest left : Text}

/-- The words that the designator of a choice picks are those that it means. -/
theorem selectWords_choice {reference : Text} {choice : Choice} :
    selectWords reference line choice.written = .ok text ↔
      ∃ picked, choice.Picks (Text.words line) picked ∧ text = Text.join [' '] picked := by
  rw [selectWords,parse?_choice,← select?_choice]
  cases choice.designator?.bind (·.select? line) with
  | none => exact iff_of_false nofun nofun
  | some text' => simp

theorem selectWords_left {reference : Text} {choice : Choice} :
    (selectWords reference line choice.written).map (·,rest) = .ok (text,left) ↔
      left = rest ∧
        ∃ picked, choice.Picks (Text.words line) picked ∧ text = Text.join [' '] picked := by
  rw [← @selectWords_choice line text reference choice]
  cases selectWords reference line choice.written with
  | error e => exact iff_of_false nofun (fun h => nomatch h.2)
  | ok text' => simp [Except.map,and_comm,eq_comm]

/-- What a reference begins with is read as far as it is written, and selects what it means. -/
theorem read?_start (start : Start) (h : Stops rest) (hd : writtenDesignator? rest = none) :
    ∃ w, Event.read? (start.written ++ rest) = some w ∧
      ∀ history input text left,
        (∃ line, w.event.find? history = some line ∧
          designatedWords input line w = .ok (text,left)) ↔
        left = rest ∧ start.Selects history text := by
  cases start with
  | named name choice =>
    cases choice with
    | none =>
      refine ⟨_,read?_name name h,fun history input text left => ?_⟩
      simp only [designatedWords,hd,find?_name]
      constructor
      · rintro ⟨line,hnames,⟨⟩⟩
        exact ⟨rfl,.line hnames⟩
      · rintro ⟨rfl,⟨⟩⟩
        next hnames => exact ⟨_,hnames,rfl⟩
    | some choice =>
      have hcolon : Stops (':' :: (choice.written ++ rest)) := by
        rintro _ ⟨⟩
        exact .inl rfl
      have hread := read?_name name hcolon
      rw [Start.written,List.append_assoc,List.cons_append]
      refine ⟨_,hread,fun history input text left => ?_⟩
      simp only [designatedWords,writtenDesignator?_choice choice h,find?_name,selectWords_left]
      constructor
      · rintro ⟨line,hnames,hleft,picked,hpicks,rfl⟩
        exact ⟨hleft,.words hnames hpicks⟩
      · rintro ⟨hleft,hselects⟩
        cases hselects with
        | words hnames hpicks => exact ⟨_,hnames,hleft,_,hpicks,rfl⟩
  | short sign =>
    have hread : Event.read? ([sign.char] ++ rest) =
        some ⟨Name.previous.event,some sign.char,rest⟩ := by
      cases sign <;> rfl
    refine ⟨_,hread,fun history input text left => ?_⟩
    have hsign : [sign.char] = (Choice.sign sign).written := rfl
    simp only [designatedWords,hsign,find?_name,selectWords_left]
    constructor
    · rintro ⟨line,hnames,hleft,picked,hpicks,rfl⟩
      exact ⟨hleft,.short hnames hpicks⟩
    · rintro ⟨hleft,hselects⟩
      cases hselects with
      | short hnames hpicks => exact ⟨_,hnames,hleft,_,hpicks,rfl⟩

end Selection

/-- What it takes to resolve a reference. -/
theorem resolve_eq_ok {history : List Text} {last : Option Substitution} {input : Text}
    {r : Resolved} :
    resolve history last ('!' :: input) = .ok r ↔
      ∃ w line text left p rest, Event.read? input = some w ∧ w.event.find? history = some line ∧
        designatedWords input line w = .ok (text,left) ∧
        applyModifiers input ⟨text,false,none,last⟩ left = .ok (p,rest) ∧
        r = ⟨p.text,readPart input rest,p.printOnly,p.made⟩ := by
  rw [resolve,List.drop_succ_cons,List.drop_zero,resolveAfterMark]
  constructor
  · intro h
    split at h
    · cases h
    · next r' hr =>
      cases h
      split at hr
      · cases hr
      · next w hread =>
        split at hr
        · cases hr
        · next line hfind =>
          split at hr
          · cases hr
          · next text left hwords =>
            split at hr
            · cases hr
            · next p rest happly =>
              cases hr
              exact ⟨w,line,text,left,p,rest,hread,hfind,hwords,happly,rfl⟩
  · rintro ⟨w,line,text,left,p,rest,hread,hfind,hwords,happly,rfl⟩
    simp only [hread,hfind,hwords,happly]

/-- A reference of the grammar, with the end of the text or a blank after it, is resolved exactly
when it means something, and to what it means. All of it is passed over, and nothing more. -/
theorem resolve_written (history : List Text) (last : Option Substitution) (r : Reference)
    {tail : Text} (h : Ends tail) (resolved : Resolved) :
    resolve history last (r.written ++ tail) = .ok resolved ↔
      resolved.reference = r.written ∧
        ∃ last', r.Means history last
          ⟨resolved.text,resolved.printOnly,resolved.substitution,last'⟩ := by
  let after := r.changes.flatMap Change.written ++ tail
  have hwritten : r.written ++ tail = '!' :: (r.start.written ++ after) := by
    simp only [Reference.written,after,List.cons_append,List.append_assoc]
  have hreference : readPart (r.start.written ++ after) tail = r.written := by
    rw [← List.append_assoc,readPart_written,Reference.written]
  obtain ⟨w,hread,hselects⟩ := read?_start r.start (stops_changes r.changes h)
    (writtenDesignator?_changes r.changes h)
  rw [hwritten,resolve_eq_ok]
  constructor
  · rintro ⟨w',line,text,left,p,rest,hread',hfind,hwords,happly,rfl⟩
    obtain rfl := Option.some.inj (hread'.symm.trans hread)
    obtain ⟨rfl,hstart⟩ := (hselects _ _ _ _).1 ⟨line,hfind,hwords⟩
    obtain ⟨rfl,hall⟩ := (applyModifiers_changes h).1 happly
    exact ⟨hreference,p.last,text,hstart,hall⟩
  · rintro ⟨heq,last',text,hstart,hall⟩
    obtain ⟨line,hfind,hwords⟩ :=
      (hselects history (r.start.written ++ after) text after).2 ⟨rfl,hstart⟩
    refine ⟨w,line,text,after,_,tail,hread,hfind,hwords,
      (applyModifiers_changes h).2 ⟨rfl,hall⟩,?_⟩
    rw [hreference,← heq]

/-- After the line `ls a.b` the reference `!!:1:r:s/a/c/` stands for `c`. -/
theorem resolve_written_last :
    resolve [['l','s',' ','a','.','b']] none
      ['!','!',':','1',':','r',':','s','/','a','/','c','/',' '] =
      .ok ⟨['c'],['!','!',':','1',':','r',':','s','/','a','/','c','/'],false,
        some ⟨['a'],['c']⟩⟩ := by
  have hone : ['1'] ≠ [] := List.cons_ne_nil _ _
  have ha : ['a'] ≠ [] := List.cons_ne_nil _ _
  have hdigit : ∀ c ∈ ['1'], Text.isDigit c = true := by simp [Text.isDigit]
  have hpattern : ∀ c ∈ ['a'], c ≠ '/' ∧ c ≠ '\\' := by simp
  have hreplacement : ∀ c ∈ ['c'], c ≠ '/' ∧ c ≠ '\\' ∧ Text.isBlank c = false := by
    simp [Text.isBlank]
  have hpicks : Choice.Picks (.word ⟨['1'],hone,hdigit⟩)
      (Text.words ['l','s',' ','a','.','b']) [['a','.','b']] :=
    @Choice.Picks.word _ [['l','s']] [] ['a','.','b'] ⟨rfl,(by decide : 1 < 0x10000000000000000)⟩
  have hselects : Start.Selects [['l','s',' ','a','.','b']]
      (.named .previous (some (.word ⟨['1'],hone,hdigit⟩))) ['a','.','b'] :=
    .words (@Name.Names.previous [] ['l','s',' ','a','.','b']) hpicks
  have hroot : Change.Makes .root ⟨['a','.','b'],false,none,none⟩ ⟨['a'],false,none,none⟩ :=
    .root (@Extended.intro [] ['b'] 'a' (by simp) (by simp) (by simp))
  have hsubstitute : Change.Makes (.substitute false ⟨['a'],['c'],ha,hpattern,hreplacement⟩)
      ⟨['a'],false,none,none⟩ ⟨['c'],false,some ⟨['a'],['c']⟩,some ⟨['a'],['c']⟩⟩ :=
    .substitute (@Substitution.Turns.first ⟨['a'],['c']⟩ ['a'] [] [] ha
      ⟨rfl,fun _ _ _ => Nat.zero_le _⟩)
  have hends : Ends [' '] := by
    rintro _ ⟨⟩
    rfl
  exact (resolve_written [['l','s',' ','a','.','b']] none
    ⟨.named .previous (some (.word ⟨['1'],hone,hdigit⟩)),
      [.root,.substitute false ⟨['a'],['c'],ha,hpattern,hreplacement⟩]⟩ hends _).2
    ⟨rfl,_,_,hselects,.cons hroot (.cons hsubstitute .nil)⟩

end Realm.History
