import Realm.Path

/-! Paths as the lists of names that they lead through. -/
namespace Realm.Path

/-- A segment that leads down. -/
def IsName (s : Text) : Prop :=
  s ≠ [] ∧ s ≠ ['.'] ∧ s ≠ ['.','.'] ∧ '/' ∉ s

/-- Segments that all lead down. -/
def AreNames (segs : List Text) : Prop :=
  ∀ s ∈ segs, IsName s

theorem areNames_nil : AreNames [] :=
  fun _ hs => (List.not_mem_nil hs).elim

theorem AreNames.append {segs segs' : List Text} (h : AreNames segs) (h' : AreNames segs') :
    AreNames (segs ++ segs') := by
  intro s hs
  rcases List.mem_append.1 hs with hs | hs
  · exact h s hs
  · exact h' s hs

theorem AreNames.of_append {segs segs' : List Text} (h : AreNames (segs ++ segs')) :
    AreNames segs ∧ AreNames segs' :=
  ⟨fun s hs => h s (by simp [hs]),fun s hs => h s (by simp [hs])⟩

theorem isNormal_iff {path : Text} : IsNormal path ↔ ∃ segs, path = ofSegments segs ∧ AreNames segs :=
  Iff.rfl

theorem not_separator {s : Text} (h : '/' ∉ s) : ∀ c ∈ s, (c == '/') = false := by
  intro c hc
  refine beq_false_of_ne ?_
  rintro rfl
  exact h hc

theorem splitOn_of_notMem {s : Text} (h : '/' ∉ s) : Text.splitOn '/' s = [s] :=
  Text.splitWhere_eq_singleton (not_separator h)

theorem splitOn_append {s : Text} (h : '/' ∉ s) (t : Text) :
    Text.splitOn '/' (s ++ '/' :: t) = s :: Text.splitOn '/' t := by
  rw [Text.splitOn,Text.splitWhere_append rfl,← Text.splitOn,splitOn_of_notMem h]
  rfl

theorem notMem_of_mem_splitOn {s t : Text} (h : s ∈ Text.splitOn '/' t) : '/' ∉ s := by
  induction t generalizing s with
  | nil =>
    obtain rfl : s = [] := by simpa [Text.splitOn,Text.splitWhere] using h
    simp
  | cons c t ih =>
    obtain ⟨p,ps,hp⟩ := List.exists_cons_of_ne_nil (Text.splitWhere_ne_nil (· == '/') t)
    rw [Text.splitOn] at ih h
    rw [hp] at ih
    simp only [Text.splitWhere,hp] at h
    split at h
    · rcases List.mem_cons.1 h with rfl | h
      · simp
      · exact ih h
    · next hc =>
      rcases List.mem_cons.1 h with rfl | h
      · have hp := ih List.mem_cons_self
        intro hm
        rcases List.mem_cons.1 hm with rfl | hm
        · simp at hc
        · exact hp hm
      · exact ih (by simp [h])

theorem splitOn_flatMap {segs : List Text} (h : AreNames segs) :
    Text.splitOn '/' (segs.flatMap ('/' :: ·)) = [] :: segs := by
  induction segs with
  | nil => rfl
  | cons s segs ih =>
    have hs := (h s (by simp)).2.2.2
    have ih := ih fun s hs => h s (by simp [hs])
    have hlead := splitOn_append (s := []) (by simp) (s ++ segs.flatMap ('/' :: ·))
    rw [List.flatMap_cons]
    simp only [List.nil_append,List.cons_append] at hlead ⊢
    rw [hlead]
    cases segs with
    | nil => simp [splitOn_of_notMem hs]
    | cons s' segs =>
      rw [List.flatMap_cons] at ih ⊢
      have htail := splitOn_append (s := []) (by simp) (s' ++ segs.flatMap ('/' :: ·))
      simp only [List.nil_append,List.cons_append] at htail ih ⊢
      rw [splitOn_append hs]
      rw [htail] at ih
      exact congrArg _ (congrArg _ (List.cons.inj ih).2)

theorem parts_ofSegments {segs : List Text} (h : AreNames segs) : parts (ofSegments segs) = segs := by
  by_cases hs : segs = []
  · subst hs
    rfl
  · rw [ofSegments,if_neg hs,parts,pieces,splitOn_flatMap h]
    simp only [List.filter_cons,ne_eq,not_true_eq_false,decide_false,Bool.false_eq_true,if_false]
    rw [List.filter_filter]
    refine List.filter_eq_self.2 fun s hs => ?_
    obtain ⟨h₁,h₂,-,-⟩ := h s hs
    simp [h₁,h₂]

theorem foldl_step {segs : List Text} (h : AreNames segs) (trail : List Text) :
    segs.foldl step trail = segs.reverse ++ trail := by
  induction segs generalizing trail with
  | nil => rfl
  | cons s segs ih =>
    obtain ⟨h₁,h₂,h₃,-⟩ := h s (by simp)
    have hs : step trail s = s :: trail := by simp [step,h₁,h₂,h₃]
    rw [List.foldl_cons,hs,ih fun s hs => h s (by simp [hs])]
    simp

@[simp] theorem segments_ofSegments {segs : List Text} (h : AreNames segs) :
    segments (ofSegments segs) = segs := by
  by_cases hs : segs = []
  · subst hs
    rfl
  · rw [ofSegments,if_neg hs,segments,splitOn_flatMap h,List.foldl_cons]
    have hnil : step [] [] = [] := by simp [step]
    rw [hnil,foldl_step h]
    simp

theorem areNames_step {trail : List Text} (h : AreNames trail) {part : Text} (hp : '/' ∉ part) :
    AreNames (step trail part) := by
  unfold step
  split
  · exact h
  · next h₁ =>
    split
    · exact fun s hs => h s (List.mem_of_mem_tail hs)
    · next h₂ =>
      intro s hs
      rcases List.mem_cons.1 hs with rfl | hs
      · exact ⟨fun h => h₁ (.inl h),fun h => h₁ (.inr h),h₂,hp⟩
      · exact h s hs

theorem areNames_segments (path : Text) : AreNames (segments path) := by
  have hfold : ∀ (parts trail : List Text), AreNames trail → (∀ p ∈ parts, '/' ∉ p) →
      AreNames (parts.foldl step trail) := by
    intro parts
    induction parts with
    | nil => exact fun trail h _ => h
    | cons p parts ih =>
      intro trail h hp
      exact ih _ (areNames_step h (hp p (by simp))) fun q hq => hp q (by simp [hq])
  intro s hs
  rw [segments,List.mem_reverse] at hs
  exact hfold _ [] areNames_nil (fun p hp => notMem_of_mem_splitOn hp) s hs

@[simp] theorem segments_normalize (path : Text) : segments (normalize path) = segments path :=
  segments_ofSegments (areNames_segments path)

/-- A walk along the parts of a path, told by the trail that it leaves behind. -/
theorem foldl_parts {α : Type} (view : List Text → α) {walk : α → Text → α}
    (hup : ∀ trail, walk (view trail) up = view trail.tail)
    (hdown : ∀ trail part, part ≠ up → walk (view trail) part = view (part :: trail))
    (path : Text) : (parts path).foldl walk (view []) = view (segments path).reverse := by
  have hfold : ∀ (pieces trail : List Text),
      ((pieces.filter (· ≠ [])).filter (· ≠ ['.'])).foldl walk (view trail) =
        view (pieces.foldl step trail) := by
    intro pieces
    induction pieces with
    | nil => exact fun _ => rfl
    | cons piece pieces ih =>
      intro trail
      rw [List.foldl_cons,← ih]
      by_cases hnil : piece = []
      · simp [hnil,step]
      · by_cases hdot : piece = ['.']
        · simp [hdot,step]
        · by_cases hpiece : piece = up
          · subst hpiece
            simp [step,up,← hup]
          · have hdots : piece ≠ ['.','.'] := hpiece
            simp [hnil,hdot,hdots,step,hdown _ _ hpiece]
  rw [segments,List.reverse_reverse]
  exact hfold (Text.splitOn '/' path) []

theorem splitOn_behind (path rest : Text) :
    Text.splitOn '/' (path ++ '/' :: rest) = Text.splitOn '/' path ++ Text.splitOn '/' rest :=
  Text.splitWhere_append rfl path rest

theorem segments_behind (path rest : Text) : segments (path ++ '/' :: rest) =
    ((Text.splitOn '/' rest).foldl step (segments path).reverse).reverse := by
  simp [segments,splitOn_behind]

theorem segments_append {name : Text} (h : IsName name) (path : Text) :
    segments (path ++ '/' :: name) = segments path ++ [name] := by
  have hstep (trail : List Text) : step trail name = name :: trail := by
    simp [step,h.1,h.2.1,h.2.2.1]
  simp [segments_behind,splitOn_of_notMem h.2.2.2,hstep]

theorem segments_flatMap {segs : List Text} (h : AreNames segs) (path : Text) :
    segments (path ++ segs.flatMap ('/' :: ·)) = segments path ++ segs := by
  induction segs generalizing path with
  | nil => simp
  | cons s segs ih =>
    obtain ⟨hs,hsegs⟩ := List.forall_mem_cons.1 h
    rw [List.flatMap_cons,← List.append_assoc,ih hsegs,segments_append hs]
    simp

theorem isAbsolute_of_isName {name : Text} (h : IsName name) : isAbsolute name = false := by
  cases name with
  | nil => rfl
  | cons c name =>
    refine beq_false_of_ne fun hc => h.2.2.2 ?_
    cases hc
    exact .head _

theorem resolve_ofSegments {segs : List Text} (h : AreNames segs) {name : Text} (hn : IsName name) :
    resolve (ofSegments segs) name = ofSegments (segs ++ [name]) := by
  rw [resolve,isAbsolute_of_isName hn,if_neg Bool.false_ne_true,normalize,segments_append hn,
    segments_ofSegments h]

theorem isName_of_mem_pieces {path s : Text} (h : s ∈ pieces path) (hdot : s ≠ ['.'])
    (hdots : s ≠ ['.','.']) : IsName s := by
  obtain ⟨hs,hne⟩ := List.mem_filter.1 h
  exact ⟨of_decide_eq_true hne,hdot,hdots,notMem_of_mem_splitOn hs⟩

theorem ofSegments_inj {segs segs' : List Text} (h : AreNames segs) (h' : AreNames segs')
    (he : ofSegments segs = ofSegments segs') : segs = segs' := by
  rw [← segments_ofSegments h,he,segments_ofSegments h']

theorem ofSegments_append {segs : List Text} (h : segs ≠ []) (segs' : List Text) :
    ofSegments (segs ++ segs') = ofSegments segs ++ segs'.flatMap ('/' :: ·) := by
  simp [ofSegments,h]

theorem ofSegments_eq_top_iff {segs : List Text} (h : AreNames segs) :
    ofSegments segs = ['/'] ↔ segs = [] := by
  constructor
  · exact fun he => ofSegments_inj h areNames_nil he
  · rintro rfl
    rfl

@[simp] theorem child_ofSegments {segs : List Text} (h : AreNames segs) (name : Text) :
    child (ofSegments segs) name = ofSegments (segs ++ [name]) := by
  by_cases hs : segs = []
  · subst hs
    simp [child,ofSegments]
  · rw [child,if_neg (mt (ofSegments_eq_top_iff h).1 hs),ofSegments_append hs]
    simp

@[simp] theorem splitLast?_eq_none {separator : Char} {t : Text} :
    Text.splitLast? separator t = none ↔ separator ∉ t := by
  induction t with
  | nil => simp [Text.splitLast?]
  | cons c t ih =>
    rw [Text.splitLast?,List.mem_cons,not_or,← ih]
    cases Text.splitLast? separator t with
    | some r => simp
    | none =>
      by_cases hc : c = separator
      · simp [hc]
      · simp [hc,Ne.symm hc]

theorem splitLast?_append {separator : Char} {name : Text} (h : separator ∉ name) (t : Text) :
    Text.splitLast? separator (t ++ separator :: name) = some (t,name) := by
  induction t with
  | nil => simp [Text.splitLast?,splitLast?_eq_none.2 h]
  | cons c t ih => simp [Text.splitLast?,ih]

@[simp] theorem splitLast?_eq_some {separator : Char} {t a b : Text} :
    Text.splitLast? separator t = some (a,b) ↔ t = a ++ separator :: b ∧ separator ∉ b := by
  refine ⟨fun h => ⟨Text.eq_of_splitLast? h,?_⟩,?_⟩
  · induction t generalizing a with
    | nil => cases h
    | cons c t ih =>
      rw [Text.splitLast?] at h
      cases ht : Text.splitLast? separator t with
      | some r =>
        rw [ht] at h
        cases h
        exact ih ht
      | none =>
        rw [ht] at h
        dsimp only at h
        split at h <;> cases h
        exact splitLast?_eq_none.1 ht
  · rintro ⟨rfl,h⟩
    exact splitLast?_append h a

theorem splitLast?_ofSegments {segs : List Text} {name : Text} (h : '/' ∉ name) :
    Text.splitLast? '/' (ofSegments (segs ++ [name])) =
      some (segs.flatMap ('/' :: ·),name) := by
  rw [ofSegments,if_neg (by simp)]
  simpa using splitLast?_append h (segs.flatMap ('/' :: ·))

@[simp] theorem parent_ofSegments {segs : List Text} {name : Text} (h : '/' ∉ name) :
    parent (ofSegments (segs ++ [name])) = ofSegments segs := by
  rw [parent,splitLast?_ofSegments h]
  cases segs with
  | nil => rfl
  | cons s segs => simp [ofSegments]

@[simp] theorem fileName_ofSegments {segs : List Text} {name : Text} (h : '/' ∉ name) :
    fileName (ofSegments (segs ++ [name])) = name := by
  rw [fileName,splitLast?_ofSegments h]

end Realm.Path
