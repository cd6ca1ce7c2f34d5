import Realm.Proofs.Text.Bytes
import Realm.Tokenizer

/-! How far lexemes and history references reach. Neither covers more characters than there
are; a lexeme is made of characters that it covers, and each step of reading a reference leaves
an end of the text. -/
namespace Realm

namespace Lexeme

variable {c : Char} {t : Text} {lexeme : Lexeme}

theorem isPrefix_fraction (rest : Text) :
    (match rest with
    | '.' :: d :: r =>
      if Text.isDecimalDigit d then '.' :: d :: r.takeWhile Text.isDecimalDigit else []
    | _ => []) <+: rest := by
  split
  · next d r =>
    split
    · exact (List.prefix_cons_inj _).2 ((List.prefix_cons_inj _).2 (List.takeWhile_prefix _))
    · exact List.nil_prefix
  · exact List.nil_prefix

theorem fraction_digits (rest : Text) :
    ∀ d ∈ (match rest with
    | '.' :: d :: r =>
      if Text.isDecimalDigit d then '.' :: d :: r.takeWhile Text.isDecimalDigit else []
    | _ => []), Text.isDecimalDigit d = true ∨ d = '.' := by
  split
  · next d r =>
    split
    · next hd =>
      exact List.forall_mem_cons.2 ⟨.inr rfl,List.forall_mem_cons.2 ⟨.inl hd,
        fun e he => .inl (List.all_eq_true.1 List.all_takeWhile e he)⟩⟩
    · exact List.forall_mem_nil _
  · exact List.forall_mem_nil _

theorem number?_run (h : number? c t = some lexeme) :
    Text.isDecimalDigit c = true ∧ ∃ piece, piece <+: t ∧
      (∀ d ∈ piece, Text.isDecimalDigit d = true ∨ d = '.') ∧ lexeme = run .numeric c piece := by
  unfold number? at h
  split at h
  · next hc =>
    have hpiece := (List.prefix_append_right_inj (t.takeWhile Text.isDecimalDigit)).2
      (isPrefix_fraction (t.dropWhile Text.isDecimalDigit))
    rw [List.takeWhile_append_dropWhile] at hpiece
    have hdigits := List.forall_mem_append.2
      ⟨fun d hd => .inl (List.all_eq_true.1 (List.all_takeWhile (l := t)) d hd),
        fraction_digits (t.dropWhile Text.isDecimalDigit)⟩
    refine ⟨hc,_,hpiece,hdigits,?_⟩
    dsimp only at h
    split at h
    · split at h <;> cases h
      rfl
    · cases h
      rfl
  · cases h

theorem isPrefix_name? {name : Text} (h : name? t = some name) : name <+: t := by
  unfold name? at h
  split at h
  · split at h
    · cases h
      exact (List.prefix_cons_inj _).2 (List.takeWhile_prefix _)
    · cases h
  · cases h

/-- A lexeme at a character covers no more characters than there are, and is made of some of
those that it covers. -/
structure Lies (c : Char) (t : Text) (lexeme : Lexeme) : Prop where
  width_le : lexeme.width ≤ t.length + 1
  value_subset : lexeme.value ⊆ (c :: t).take lexeme.width

theorem run_lies (kind : Token.Kind) {piece : Text} (h : piece <+: t) :
    (run kind c piece).Lies c t where
  width_le := Nat.succ_le_succ h.length_le
  value_subset := by
    show c :: piece ⊆ c :: t.take piece.length
    rw [← List.prefix_iff_eq_take.1 h]
    exact List.Subset.refl _

theorem single_lies (kind : Token.Kind) : (single kind c).Lies c t :=
  run_lies kind List.nil_prefix

theorem operator_lies {text : Text} {hpos : 0 < text.length} (h : text <+: c :: t) :
    (operator text hpos).Lies c t where
  width_le := h.length_le
  value_subset := by
    show text ⊆ (c :: t).take text.length
    rw [← List.prefix_iff_eq_take.1 h]
    exact List.Subset.refl _

theorem marked_lies {kind : Token.Kind} {name : Text} {hpos : 0 < name.length + 1}
    (h : name <+: t) : Lies c t ⟨kind,name,name.length + 1,hpos⟩ where
  width_le := Nat.succ_le_succ h.length_le
  value_subset := by
    show name ⊆ c :: t.take name.length
    rw [← List.prefix_iff_eq_take.1 h]
    exact List.subset_cons_self _ _

/-- The characters of a variable after its dollar are there, its closing brace among them. -/
theorem dollar?_lies (h : dollar? t = some lexeme) : lexeme.Lies c t := by
  unfold dollar? at h
  split at h
  · next t =>
    cases hname : name? t with
    | none => simp [hname] at h
    | some name =>
      rw [hname] at h
      dsimp only at h
      split at h
      · next hbrace =>
        cases h
        have hprefix := isPrefix_name? hname
        have hlt : name.length < t.length := by
          refine Classical.byContradiction fun hge => ?_
          rw [List.drop_of_length_le (Nat.le_of_not_lt hge)] at hbrace
          cases hbrace
        constructor
        · simp only [List.length_cons]
          omega
        · have htake : t.take name.length ⊆ t.take (name.length + 1) :=
            (List.take_prefix_take_left (Nat.le_succ _)).subset
          show name ⊆ c :: '\x7b' :: t.take (name.length + 1)
          rw [← List.prefix_iff_eq_take.1 hprefix] at htake
          exact fun d hd => .tail _ (.tail _ (htake hd))
      · cases h
  · obtain ⟨name,hname,rfl⟩ := Option.map_eq_some_iff.1 h
    exact marked_lies (isPrefix_name? hname)

theorem quotedBody?_lies {quote : Char} {value : Text} {width : Nat}
    (h : quotedBody? quote t = some (value,width)) :
    width ≤ t.length ∧ value ⊆ t.take width := by
  fun_induction quotedBody? quote t generalizing value width with
  | case1 => cases h
  | case2 => cases h
  | case3 c t ih =>
    obtain ⟨⟨value',width'⟩,hbody,heq⟩ := Option.map_eq_some_iff.1 h
    cases heq
    obtain ⟨hwidth,hsubset⟩ := ih hbody
    refine ⟨by simpa using hwidth,?_⟩
    have htail : c :: value' ⊆ c :: t.take width' := List.cons_subset_cons c hsubset
    show (if c = quote ∨ c = '\\' then c :: value' else '\\' :: c :: value') ⊆
      '\\' :: c :: t.take width'
    split
    · exact fun d hd => .tail _ (htail hd)
    · exact List.cons_subset_cons _ htail
  | case4 t => cases h; simp
  | case5 c t _ _ _ ih =>
    obtain ⟨⟨value',width'⟩,hbody,heq⟩ := Option.map_eq_some_iff.1 h
    cases heq
    obtain ⟨hwidth,hsubset⟩ := ih hbody
    exact ⟨Nat.succ_le_succ hwidth,List.cons_subset_cons c hsubset⟩

theorem quoted_lies {kind : Token.Kind} {quote : Char} {start : Nat}
    (h : quoted kind quote start t = .ok lexeme) : lexeme.Lies c t := by
  unfold quoted at h
  split at h
  · next value width hbody =>
    cases h
    obtain ⟨hwidth,hsubset⟩ := quotedBody?_lies hbody
    exact ⟨Nat.succ_le_succ hwidth,fun d hd => .tail _ (hsubset hd)⟩
  · cases h

theorem escape_lies {grammar : Grammar} {start : Nat} (h : escape grammar start t = .ok lexeme) :
    lexeme.Lies c t := by
  unfold escape at h
  split at h
  · cases h; exact ⟨by simp,List.nil_subset _⟩
  · cases h; exact ⟨by simp,by simp⟩
  · split at h <;> cases h

theorem special_lies {grammar : Grammar} {ctx : LexContext} {start : Nat}
    (h : special grammar ctx start c t = .ok lexeme) : lexeme.Lies c t := by
  have hsingle {kind : Token.Kind} {c : Char} {t : Text} {lexeme : Lexeme}
      (h : Except.ok (single kind c) = (Except.ok lexeme : Except Error Lexeme)) :
      lexeme.Lies c t := by
    cases h
    exact single_lies kind
  unfold special at h
  split at h
  · split at h
    · cases hdollar : dollar? t with
      | none => rw [hdollar] at h; exact hsingle h
      | some l =>
        rw [hdollar] at h
        cases h
        exact dollar?_lies hdollar
    · exact hsingle h
  · split at h <;> cases h <;> exact run_lies _ List.nil_prefix
  · split at h
    · split at h <;> cases h <;> exact operator_lies (by simp)
    · exact hsingle h
  · split at h
    · split at h <;> cases h <;> exact operator_lies (by simp)
    · exact hsingle h
  · split at h
    · split at h <;> cases h <;> exact operator_lies (by simp)
    · exact hsingle h
  · split at h <;> cases h <;> exact run_lies _ List.nil_prefix
  · split at h
    · exact quoted_lies h
    · exact hsingle h
  · split at h
    · exact quoted_lies h
    · exact hsingle h
  · split at h
    · exact quoted_lies h
    · exact hsingle h
  · split at h
    · exact escape_lies h
    · exact hsingle h
  · split at h <;> cases h <;> exact run_lies _ List.nil_prefix
  · exact hsingle h

theorem scan_lies {σ : Type} {o : Options σ} {ctx : LexContext} {previous : Option Token.Kind}
    {start : Nat} (h : scan o ctx previous start c t = .ok lexeme) : lexeme.Lies c t := by
  unfold scan at h
  split at h
  · cases h; exact single_lies _
  · split at h
    · next member hmember =>
      cases h
      unfold member? at hmember
      split at hmember
      · obtain ⟨name,hname,rfl⟩ := Option.map_eq_some_iff.1 hmember
        exact marked_lies (isPrefix_name? hname)
      · cases hmember
    · split at h
      · cases h; exact run_lies _ (List.takeWhile_prefix _)
      · split at h
        · next hnumber =>
          cases h
          obtain ⟨-,piece,hpiece,-,rfl⟩ := number?_run hnumber
          exact run_lies _ hpiece
        · split at h
          · cases h; exact run_lies _ (List.takeWhile_prefix _)
          · exact special_lies h

theorem scan_width {σ : Type} {o : Options σ} {ctx : LexContext} {previous : Option Token.Kind}
    {start : Nat} (h : scan o ctx previous start c t = .ok lexeme) :
    lexeme.width ≤ (c :: t).length :=
  (scan_lies h).width_le

end Lexeme

namespace History

variable {input : Text}

theorem Event.read?_suffix {w : Event.Written} (h : Event.read? input = some w) :
    w.rest <:+ input := by
  unfold Event.read? at h
  split at h
  · cases h
  · cases h; exact List.suffix_cons _ _
  · cases h; exact List.suffix_cons _ _
  · cases h; exact List.suffix_cons _ _
  · cases h; exact List.suffix_cons _ _
  · cases h; exact (List.dropWhile_suffix _).trans (List.suffix_cons _ _)
  · next t =>
    split at h
    · next text rest hsplit =>
      cases h
      rw [Text.eq_of_splitFirst? hsplit]
      exact ⟨'?' :: text ++ ['?'],by simp⟩
    · cases h
      exact (List.dropWhile_suffix _).trans (List.suffix_cons _ _)
  · split at h
    · cases h; exact List.dropWhile_suffix _
    · split at h
      · cases h
      · cases h; exact List.dropWhile_suffix _

theorem Designator.span_suffix (t : Text) : (Designator.span t).2 <:+ t := by
  unfold Designator.span
  split
  · exact List.suffix_refl _
  · next c t =>
    split
    · exact List.suffix_cons _ _
    · split
      · have hdrop := List.dropWhile_suffix (fun d => Text.isDigit d || d = '-' || d = '$') (l := t)
        dsimp only
        split
        · next rest hrest =>
          rw [hrest] at hdrop
          exact ((List.suffix_cons _ _).trans hdrop).trans (List.suffix_cons _ _)
        · exact hdrop.trans (List.suffix_cons _ _)
      · exact List.suffix_refl _

theorem writtenDesignator?_suffix {t designator rest : Text}
    (h : writtenDesignator? t = some (designator,rest)) : rest <:+ t := by
  unfold writtenDesignator? at h
  split at h
  · next c t =>
    split at h
    · have hspan := Designator.span_suffix (c :: t)
      rw [Option.some.inj h] at hspan
      exact hspan.trans (List.suffix_cons _ _)
    · cases h
  · cases h

theorem designatedWords_suffix {line text rest : Text} {w : Event.Written}
    (h : designatedWords input line w = .ok (text,rest)) : rest <:+ w.rest := by
  have hmap : ∀ {r : Except HistoryError Text} {left : Text},
      (r.map fun text => (text,left)) = .ok (text,rest) → left = rest := by
    intro r left hr
    cases r with
    | error e => cases hr
    | ok text => cases hr; rfl
  unfold designatedWords at h
  split at h
  · exact hmap h ▸ List.suffix_refl _
  · next designator left hwritten => exact hmap h ▸ writtenDesignator?_suffix hwritten
  · cases h
    exact List.suffix_refl _

theorem readField_suffix (delimiter : Char) (stopAtBlank : Bool) (t : Text) :
    (readField delimiter stopAtBlank t).2.1 <:+ t := by
  fun_induction readField delimiter stopAtBlank t with
  | case1 => exact List.suffix_refl _
  | case2 => exact List.nil_suffix
  | case3 c t field rest closed heq ih =>
    rw [heq] at ih
    exact ih.trans ((List.suffix_cons c t).trans (List.suffix_cons _ _))
  | case4 t => exact List.suffix_cons _ _
  | case5 c t => exact List.suffix_refl _
  | case6 c t _ _ _ _ field rest closed heq ih =>
    rw [heq] at ih
    exact ih.trans (List.suffix_cons c t)

theorem Modifier.readSubstitution_suffix {b : Bool} {t rest : Text} {m : Modifier}
    (h : Modifier.readSubstitution b t = .ok (m,rest)) : rest <:+ t := by
  unfold Modifier.readSubstitution at h
  split at h
  · cases h
  · next delimiter t =>
    have hfirst := (readField_suffix delimiter false t).trans (List.suffix_cons delimiter t)
    dsimp only at h
    split at h
    · cases h
      exact (readField_suffix delimiter true _).trans hfirst
    · cases h
      exact hfirst

theorem Modifier.read_suffix {t rest : Text} {m : Modifier} (h : Modifier.read t = .ok (m,rest)) :
    rest <:+ t := by
  unfold Modifier.read at h
  split at h
  case h_8 => cases h; exact ⟨['g','&'],rfl⟩
  case h_9 t => exact (Modifier.readSubstitution_suffix h).trans ⟨['g','s'],rfl⟩
  case h_10 t => exact (Modifier.readSubstitution_suffix h).trans (List.suffix_cons _ _)
  case h_1 | h_11 => cases h
  all_goals
    cases h
    exact List.suffix_cons _ _

theorem applyModifiers_suffix {p p' : Progress} {t rest : Text}
    (h : applyModifiers input p t = .ok (p',rest)) : rest <:+ t := by
  fun_induction applyModifiers input p t with
  | case1 => cases h
  | case2 => cases h
  | case3 => cases h
  | case4 => cases h
  | case5 p t modifier left hread p₁ _ ih =>
    exact (ih h).trans ((Modifier.read_suffix hread).trans (List.suffix_cons _ _))
  | case6 =>
    cases h
    exact List.suffix_refl _

theorem readPart_append {rest : Text} (h : rest <:+ input) :
    readPart input rest ++ rest = '!' :: input := by
  obtain ⟨before,rfl⟩ := h
  simp [readPart]

/-- A reference and what its modifiers leave make up the text that it was read from. They meet
between two characters. -/
structure Resolved.Leaves (r : Resolved) (input rest : Text) : Prop where
  left : ∃ p p' words, applyModifiers input p words = .ok (p',rest) ∧ p'.text = r.text
  whole : r.reference ++ rest = '!' :: input
  meets : Text.IsBoundary (Text.byteSize r.reference) ('!' :: input)

theorem resolve_leaves {history : List Text} {last : Option Substitution} {r : Resolved}
    (h : resolve history last ('!' :: input) = .ok r) : ∃ rest, r.Leaves input rest := by
  unfold resolve at h
  split at h
  · cases h
  · next r' hr =>
    cases h
    unfold resolveAfterMark at hr
    rw [List.drop_one,List.tail_cons] at hr
    split at hr
    · cases hr
    · next w hevent =>
      split at hr
      · cases hr
      · split at hr
        · cases hr
        · next text left hwords =>
          split at hr
          · cases hr
          · next p' rest happly =>
            cases hr
            have hwhole := readPart_append ((applyModifiers_suffix happly).trans
              ((designatedWords_suffix hwords).trans (Event.read?_suffix hevent)))
            refine ⟨rest,⟨_,p',left,happly,rfl⟩,hwhole,?_⟩
            rw [← hwhole]
            exact Text.isBoundary_append _ _

end History
end Realm
