import Realm.Proofs.Acl.Answers
import Realm.Proofs.Acl.InMemory

/-! What it matters that someone has asked an engine before. To ask makes the nodes of the
directories on the way, and no more than what is granted in these can change by it. -/
namespace Realm.Acl

open Realm.Path (ofSegments AreNames)

variable {σ : Type}

/-- The names that lead from a node to the directories above a place below it. -/
def Above (names way : List Text) : Prop :=
  way ≠ [] ∧ way <+: names ∧ way ≠ names

theorem above_cons {name : Text} {names way : List Text} (hnames : names ≠ [])
    (h : Beneath name (fun rest => rest = [] ∨ Above names rest) way) : Above (name :: names) way := by
  obtain ⟨rest,rfl,hrest⟩ := h
  refine ⟨by simp,?_,fun he => ?_⟩
  · rcases hrest with rfl | ⟨-,hpre,-⟩
    · simp
    · simpa using hpre
  · obtain rfl : rest = names := by simpa using he
    rcases hrest with h | ⟨-,-,hne⟩
    · exact hnames h
    · exact hne rfl

section

variable {e : Engine σ} {L : e.Locality}

/-- To ask matters to the directories above the place asked for, if they are made. -/
theorem resolve_answers (identity : Text) {dir names : List Text} {n : Node} {w : σ}
    (hfine : L.agree [] w w) (hn : n.Placed dir) (hdir : AreNames (dir ++ names))
    (bindings : Bindings) (total : Permission) :
    e.Answers (Above names) (fun _ => False) dir (n,w)
      (e.resolve identity names bindings total (n,w)).2 := by
  induction names generalizing dir n w bindings total with
  | nil => exact answers_unmoved hn (fun name _ => L.below (dir ++ [name]) hfine) _ _
  | cons name names ih =>
    rw [List.append_cons] at hdir
    have hname := hdir.of_append.1
    have hb := Engine.confined L
    rw [resolve_cons]
    rcases child?_cases hb hn hname w with ⟨c,n₁,w₁,hchild,hn₁,hc,hw⟩ | ⟨w₁,hchild,hload,hw⟩ |
      ⟨err,w₁,hchild,hload,-⟩
    · rw [hchild]
      obtain ⟨hc',hw'⟩ := resolve_keeps hb identity hdir bindings
        (c.apply e.groups bindings identity total) c w₁ hc
      refine (answers_child hfine hn hchild hn₁ hw hc' hw'
        (ih (hw hfine).fine hc hdir _ _)).mono (fun way hway => ?_) fun way hway => ?_
      · obtain ⟨rest,rfl,hne,hpre,hrest⟩ := hway
        exact ⟨by simp,by simpa using hpre,by simpa using hrest⟩
      · obtain ⟨_,_,h⟩ := hway
        exact h
    · rw [hchild]
      dsimp only
      cases hmatch : n.match? name with
      | some r =>
        obtain ⟨c',hinner⟩ := resolve_inner e identity (hn.inner _ (mem_of_firstMatch hmatch))
          names (Table.insertAll r.2.2 bindings)
          (r.2.1.apply e.groups (Table.insertAll r.2.2 bindings) identity total) w₁
        simp only [Visit.inner,hinner]
        exact answers_loaded hfine hn hload _ _
      | none =>
        dsimp only
        cases hfile : Table.get? name n.files with
        | some f => exact answers_loaded hfine hn hload _ _
        | none =>
          dsimp only
          by_cases hlast : names.isEmpty || n.isSpecial
          · rw [if_pos hlast]
            exact answers_loaded hfine hn hload _ _
          · rw [if_neg hlast,Action.bind_eq]
            have hnames : names ≠ [] := by
              rintro rfl
              simp at hlast
            rcases create_cases hb hn hname w₁ with ⟨w₂,hcreate,hpersist,hw₂⟩ |
              ⟨err,w₂,hcreate,hpersist,hw₂⟩
            · rw [hcreate]
              obtain ⟨c,hc⟩ : ∃ c, c = e.seeded (dir ++ [name]) (n.depth + 1) name := ⟨_,rfl⟩
              rw [← hc] at hcreate hpersist ⊢
              have hplaced : c.Placed (dir ++ [name]) := hc ▸ .new ..
              obtain ⟨hc',hw'⟩ := resolve_keeps hb identity hdir bindings
                (c.apply e.groups bindings identity total) c w₂ hplaced
              have hans := answers_create hfine hn hname hchild hload hcreate
                ((Node.ExceptAt.refl name n).withChild c) hc hpersist hw hw₂ hc' hw'
                (fun h => h.1 rfl) (ih ((hw.trans hw₂) hfine).fine hplaced hdir _ _)
              -- A node is made only where no rule stood, so that nothing is left open.
              refine Engine.Answers.mono hans (fun way => above_cons hnames) ?_
              rintro way ⟨_,_,⟨hrule,_⟩ | h⟩
              · simp [Node.HasRule,hmatch,hfile] at hrule
              · exact h
            · rw [hcreate]
              exact answers_refused hfine hn hname hload (.new ..) hpersist hw₂ _ _
    · rw [hchild]
      exact answers_loaded hfine hn hload _ _

theorem effective_tells (L : e.Locality) (path identity : Text) {s : Cache × σ} (hs : s.1.Placed)
    (hfine : L.agree [] s.2 s.2) :
    e.Tells (Above (Path.segments path)) (fun _ => False) s (e.effective path identity s).2 := by
  rw [effective_eq]
  refine visitTop_tells hs hfine fun n w hn hw _ => ?_
  exact resolve_answers identity (L.trans hw (L.symm hw)) hn (Path.areNames_segments path) [] _

theorem Engine.Tells.trans {made made' : List Text → Prop} {s s' s'' : Cache × σ}
    (h : e.Tells made (fun _ => False) s s') (h' : e.Tells made' (fun _ => False) s' s'')
    (hw : L.Outcome [] s.2 s'.2) (hw' : L.Outcome [] s'.2 s''.2) :
    e.Tells (fun names => made names ∨ made' names) (fun _ => False) s s'' := by
  intro path identity
  have hnames := Path.areNames_segments path
  rcases h path identity with hsame | ⟨hm,⟨hno,hyes⟩,p,hp,hadd⟩ | hleft
  · rcases h' path identity with hsame' | ⟨hm,⟨hno,hyes⟩,p,hp,hadd⟩ | hleft
    · exact .inl (hsame'.trans hsame)
    · exact .inr (.inl ⟨.inr hm,⟨hw.before _ hnames hno,hyes⟩,p,hsame.symm.trans hp,hadd⟩)
    · exact hleft.elim
  · rcases h' path identity with hsame' | ⟨-,⟨hno',-⟩,-⟩ | hleft
    · exact .inr (.inl ⟨.inl hm,⟨hno,hw'.kept _ hnames hyes⟩,p,hp,hsame'.trans hadd⟩)
    · cases hyes.symm.trans hno'
    · exact hleft.elim
  · exact hleft.elim

def lookups (asked : List (Text × Text)) : List Engine.Call :=
  asked.map fun q => .effective q.1 q.2

theorem lookups_tell (L : e.Locality) (asked : List (Text × Text)) {s : Cache × σ} (hs : s.1.Placed)
    (hfine : L.agree [] s.2 s.2) :
    e.Tells (fun names => ∃ q ∈ asked, Above (Path.segments q.1) names) (fun _ => False) s
      (e.run (lookups asked) s).2 := by
  induction asked generalizing s with
  | nil => exact fun _ _ => .inl rfl
  | cons q asked ih =>
    have hb := Engine.confined L
    have hfirst : ((Engine.Call.effective q.1 q.2).run e s).2 = (e.effective q.1 q.2 s).2 :=
      congrArg Prod.snd (Engine.Call.run_effective e q.1 q.2 s)
    obtain ⟨hs',hw⟩ := call_placed hb (.effective q.1 q.2) s hs
    have htells := effective_tells L q.1 q.2 hs hfine
    rw [← hfirst] at htells
    have hfine' := (hw hfine).fine
    obtain ⟨-,hw'⟩ := run_placed hb (lookups asked) _ hs'
    intro path identity
    rcases htells.trans (ih hs' hfine') (hw hfine) (hw' hfine') path identity with
      hsame | ⟨hm,h⟩ | hleft
    · exact .inl hsame
    · refine .inr (.inl ⟨?_,h⟩)
      rcases hm with hm | ⟨q',hq',hm⟩
      · exact ⟨q,by simp,hm⟩
      · exact ⟨q',by simp [hq'],hm⟩
    · exact .inr (.inr hleft)

/-- What an identity may do at a path does not depend on what has been asked before, unless
the path is that of a directory without a shadow file and someone has asked for a place below
it. Its node has been made then, with the grants of its source, which come on top. -/
theorem effective_after_lookups (L : e.Locality) {w : σ} (hfine : L.agree [] w w)
    (before : List Engine.Call) (asked : List (Text × Text)) (path identity : Text) :
    let s := (e.run before (none,w)).2
    let s' := (e.run (lookups asked) s).2
    (e.effective path identity s').1 = (e.effective path identity s).1 ∨
    ((∃ q ∈ asked, Above (Path.segments q.1) (Path.segments path)) ∧
      e.Made (Path.segments path) s.2 s'.2 ∧
      ∃ p, (e.effective path identity s).1 = .ok p ∧
        (e.effective path identity s').1 = .ok (p.union
          (granted e.groups [] identity (e.source (Path.normalize path))))) := by
  intro s s'
  obtain ⟨hs,hw⟩ := run_placed (Engine.confined L) before (none,w) (by simp [Cache.Placed])
  rcases lookups_tell L asked hs (hw hfine).fine path identity with hsame | h | hleft
  · exact .inl hsame
  · exact .inr h
  · exact hleft.elim

end

theorem effective_after_lookups_memory :
    (memoryLocality readingEngine isNormal_top).agree [] FileTree.empty FileTree.empty ∧
      (let s := (readingEngine.run closeTop (none,FileTree.empty)).2
      let s' := (readingEngine.run (lookups [("/hall/box".toList,"ann".toList)]) s).2
      (readingEngine.effective "/hall".toList "ann".toList s').1 =
          (readingEngine.effective "/hall".toList "ann".toList s).1 ∨
        ((∃ q ∈ [("/hall/box".toList,"ann".toList)],
            Above (Path.segments q.1) (Path.segments "/hall".toList)) ∧
          readingEngine.Made (Path.segments "/hall".toList) s.2 s'.2 ∧
          ∃ p, (readingEngine.effective "/hall".toList "ann".toList s).1 = .ok p ∧
            (readingEngine.effective "/hall".toList "ann".toList s').1 = .ok (p.union
              (granted readingEngine.groups [] "ann".toList
                (readingEngine.source (Path.normalize "/hall".toList)))))) :=
  have hfine : (memoryLocality readingEngine isNormal_top).agree [] FileTree.empty FileTree.empty :=
    .refl _ _ _ _
  ⟨hfine,effective_after_lookups (memoryLocality readingEngine isNormal_top) hfine closeTop
    [("/hall/box".toList,"ann".toList)] "/hall".toList "ann".toList⟩

/-- Before anyone has asked for a place in the hall, ann may do nothing there, and afterwards
she may read. -/
theorem not_effective_after_lookups :
    let s := (readingEngine.run closeTop (none,FileTree.empty)).2
    (readingEngine.run closeTop (none,FileTree.empty)).1 = [.ok .done] ∧
      (readingEngine.effective "/hall".toList "ann".toList s).1 = .ok Permission.empty ∧
      (readingEngine.effective "/hall".toList "ann".toList
        (readingEngine.run (lookups [("/hall/box".toList,"ann".toList)]) s).2).1 =
          .ok (Permission.of .read) := by
  decide +kernel

end Realm.Acl
