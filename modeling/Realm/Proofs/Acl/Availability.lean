import Realm.Proofs.Acl.InMemory
import Realm.Proofs.Acl.Placed

/-! Engines that store their shadow files in memory always answer. Each file of the tree is the
shadow file of a directory and can be read, and nothing is in its way, as long as no directory
gets a node that has the name of a shadow file on its path. -/
namespace Realm.Acl

open Realm.Path (ofSegments AreNames)
open FileTree (Entry)

variable {α : Type}

/-- A tree holds the shadow files of an engine and the directories above them, and nothing
else. -/
structure Tidy (e : Engine FileTree) (t : FileTree) : Prop where
  top : t.at? [] = some .directory
  entries : ∀ place entry, t.at? place = some entry →
    (entry = .directory ∧ ∃ dir, Plain dir ∧ place <+: Path.segments e.shadowRoot ++ dir) ∨
    ∃ dir bytes n, Plain dir ∧ place = Path.segments e.shadowRoot ++ dir ++ [aclName] ∧
      entry = .file bytes ∧ Accepts dir bytes n ∧ n.Sound

/-- A node is that of its directory and can be stored, and so can those that are kept below
it. -/
inductive Node.Whole : List Text → Node → Prop
  | mk {dir : List Text} {n : Node} (plain : Plain dir) (sound : n.Sound)
    (path : n.path = ofSegments dir) (depth : n.depth = dir.length)
    (name : n.name = dir.getLastD [])
    (kept : ∀ name c, Table.get? name n.children = some c → Whole (dir ++ [name]) c) : Whole dir n

theorem tidy_empty (e : Engine FileTree) : Tidy e FileTree.empty := by
  refine ⟨rfl,fun place entry h => ?_⟩
  have hmem := Table.mem_of_get? h
  simp only [FileTree.empty,List.mem_singleton,Prod.mk.injEq] at hmem
  exact .inl ⟨hmem.2,[],⟨Path.areNames_nil,by simp⟩,by simp [hmem.1]⟩

section

variable {e : Engine FileTree} {t : FileTree} {dir : List Text} {n : Node}

namespace Tidy

theorem shadow_cases (h : Tidy e t) (dir : List Text) :
    t.at? (Path.segments e.shadowRoot ++ dir ++ [aclName]) = none ∨
    ∃ bytes n, Plain dir ∧
      t.at? (Path.segments e.shadowRoot ++ dir ++ [aclName]) = some (.file bytes) ∧
      Accepts dir bytes n ∧ n.Sound := by
  cases hat : t.at? (Path.segments e.shadowRoot ++ dir ++ [aclName]) with
  | none => exact .inl rfl
  | some entry =>
    rcases h.entries _ entry hat with ⟨-,dir',hdir',hpre⟩ | ⟨dir',bytes,n,hdir',hplace,rfl,hacc,hn⟩
    · rw [List.append_assoc,List.prefix_append_right_inj] at hpre
      exact absurd (hpre.subset (by simp)) hdir'.2
    · rw [List.append_cancel_right_eq,List.append_cancel_left_eq] at hplace
      subst hplace
      exact .inr ⟨bytes,n,hdir',rfl,hacc,hn⟩

theorem clear (h : Tidy e t) (hdir : Plain dir) :
    t.blocked [] (Path.segments e.shadowRoot ++ dir) = false := by
  refine Bool.eq_false_iff.2 fun hblocked => ?_
  obtain ⟨way,-,hpre,hfile⟩ := FileTree.blocked_iff.1 hblocked
  rw [List.nil_append,FileTree.isFile] at hfile
  cases hat : t.at? way with
  | none => simp [hat] at hfile
  | some entry =>
    rcases h.entries way entry hat with ⟨rfl,-⟩ | ⟨dir',bytes,n,-,rfl,-⟩
    · simp [hat] at hfile
    · rw [List.append_assoc,List.prefix_append_right_inj] at hpre
      exact hdir.2 (hpre.subset (by simp))

end Tidy

namespace Node.Whole

theorem plain (h : n.Whole dir) : Plain dir := by
  cases h with
  | mk h _ _ _ _ _ => exact h

theorem sound (h : n.Whole dir) : n.Sound := by
  cases h with
  | mk _ h _ _ _ _ => exact h

theorem child_eq (h : n.Whole dir) (name : Text) :
    Path.child n.path name = ofSegments (dir ++ [name]) ∧ n.depth + 1 = (dir ++ [name]).length ∧
      name = (dir ++ [name]).getLastD [] := by
  cases h with
  | mk hplain _ hpath hdepth _ _ =>
    exact ⟨by rw [hpath,Path.child_ofSegments hplain.1],by simp [hdepth],by simp⟩

theorem child (h : n.Whole dir) {name : Text} {c : Node}
    (hc : Table.get? name n.children = some c) : c.Whole (dir ++ [name]) := by
  cases h with
  | mk _ _ _ _ _ h => exact h name c hc

theorem of_bare (hplain : Plain dir) (hn : n.Sound) (hpath : n.path = ofSegments dir)
    (hdepth : n.depth = dir.length) (hname : n.name = dir.getLastD []) (hbare : n.bare = n) :
    n.Whole dir := by
  have hnone : n.children = [] := by
    rw [← hbare]
    cases n
    rfl
  exact .mk hplain hn hpath hdepth hname (by simp [hnone,Table.get?])

theorem withChild (h : n.Whole dir) {name : Text} {c : Node} (hc : c.Whole (dir ++ [name])) :
    (n.withChild name c).Whole dir := by
  have hbare := Node.bare_withChild n name c
  cases h with
  | mk hplain hsound hpath hdepth hname hkept =>
    refine .mk hplain ?_ ?_ ?_ ?_ fun name' c' hget => ?_
    · rw [← Node.sound_bare_iff,hbare,Node.sound_bare_iff]
      exact hsound
    · rw [← Node.path_bare,hbare,Node.path_bare,hpath]
    · rw [← Node.depth_bare,hbare,Node.depth_bare,hdepth]
    · rw [← Node.name_bare,hbare,Node.name_bare,hname]
    · rw [Node.children_withChild] at hget
      by_cases hne : name' = name
      · subst hne
        rw [Table.get?_insert_self] at hget
        exact Option.some.inj hget ▸ hc
      · rw [Table.get?_insert_of_ne hne] at hget
        exact hkept name' c' hget

theorem change (h : n.Whole dir) {c : Change} (hc : c.Orderly) {n' : Node}
    (happ : c.apply n = .ok n') : n'.Whole dir := by
  cases h with
  | mk hplain hsound hpath hdepth hname hkept =>
    obtain ⟨hs,hp,hd,hn,hchildren⟩ := sound_change hsound hc happ
    refine .mk hplain hs (hp.trans hpath) (hd.trans hdepth) (hn.trans hname) fun name c hget => ?_
    rw [hchildren] at hget
    exact hkept name c hget

end Node.Whole

variable (hmem : e.shadow = Memory.fileSystem) (hroot : Path.IsNormal e.shadowRoot)

include hmem hroot

theorem load_tidy (h : Tidy e t) (hdir : AreNames dir) :
    e.load (ofSegments dir) dir.length (dir.getLastD []) t = (.ok none,t) ∨
    ∃ n, e.load (ofSegments dir) dir.length (dir.getLastD []) t = (.ok (some n),t) ∧ n.Whole dir := by
  obtain ⟨hplace,-⟩ := locate_shadowFile hroot hdir
  have hhas : e.shadow.has (e.shadowPath (ofSegments dir)) t =
      (.ok (t.at? (Path.segments e.shadowRoot ++ dir ++ [aclName])).isSome,t) := by
    rw [hmem,← hplace]
    rfl
  rw [load_eq,hhas]
  rcases h.shadow_cases dir with hnone | ⟨bytes,n,hplain,hfile,hacc,hn⟩
  · rw [hnone]
    exact .inl rfl
  · have hread : e.shadow.read (e.shadowPath (ofSegments dir)) t = (.ok bytes,t) := by
      rw [hmem]
      show Memory.read _ t = _
      rw [Memory.read,Action.get_bind,hplace,hfile]
      rfl
    obtain ⟨hpath,hdepth,hname,hbare⟩ := hacc.spec
    obtain ⟨s,hs,hshadow⟩ := hacc
    have hof : Node.ofBytes (ofSegments dir) dir.length (dir.getLastD []) bytes = .ok n := by
      rw [Node.ofBytes,hs]
      exact hshadow
    rw [hfile]
    simp only [Option.isSome_some,hread,hof]
    exact .inr ⟨n,rfl,.of_bare hplain hn hpath hdepth hname hbare⟩

omit hmem in
theorem tidy_store (h : Tidy e t) (hdir : Plain dir) (hacc : Accepts dir n.toShadow.toBytes n.bare)
    (hn : n.bare.Sound) :
    Tidy e (Memory.fileSystem.store (e.shadowPath (ofSegments dir)) n.toShadow.toBytes t).2 := by
  obtain ⟨hfile,hparent⟩ := locate_shadowFile hroot hdir.1
  refine ⟨?_,fun place entry hat => ?_⟩
  · rw [Memory.at?_store hfile hparent]
    simp [h.top]
  · rw [Memory.at?_store hfile hparent] at hat
    split at hat
    · next hnew => exact .inr ⟨dir,_,n.bare,hdir,hnew.2,(Option.some.inj hat).symm,hacc,hn⟩
    · split at hat
      · next hway => exact .inl ⟨(Option.some.inj hat).symm,dir,hdir,hway.2.1⟩
      · exact h.entries place entry hat

theorem persist_tidy (h : Tidy e t) (hn : n.Whole dir) :
    ∃ t', e.persist n t = (.ok (),t') ∧ Tidy e t' := by
  cases hn with
  | mk hplain hsound hpath hdepth hname _ =>
    obtain ⟨hfile,hparent⟩ := locate_shadowFile hroot hplain.1
    have htidy := tidy_store hroot h hplain (hsound.accepts hpath hdepth hname)
      (Node.sound_bare_iff.2 hsound)
    have hrefusal : Memory.refusal? t (Path.segments e.shadowRoot ++ dir) aclName = none := by
      have htop : t.isDirectory [] = true := by simp [FileTree.isDirectory,h.top]
      have hfree : t.isDirectory (Path.segments e.shadowRoot ++ dir ++ [aclName]) = false := by
        rcases h.shadow_cases dir with hnone | ⟨bytes,m,-,hold,-⟩
        · rw [FileTree.isDirectory,hnone]
          rfl
        · rw [FileTree.isDirectory,hold]
          rfl
      rw [Memory.refusal?,h.clear hplain,htop,hfree]
      simp
    rw [Memory.store_eq hfile hparent,hrefusal] at htidy
    rw [persist_eq e hsound.regular,hpath,hmem,Memory.store_eq hfile hparent,hrefusal]
    exact ⟨_,rfl,htidy⟩

/-! Visits. -/

theorem child?_whole (h : Tidy e t) (hn : n.Whole dir) {name : Text}
    (hdir : AreNames (dir ++ [name])) :
    e.child? name (n,t) = (.ok none,(n,t)) ∨
    ∃ c n₁, e.child? name (n,t) = (.ok (some c),(n₁,t)) ∧ c.Whole (dir ++ [name]) ∧ n₁.Whole dir := by
  obtain ⟨hpath,hdepth,hname⟩ := hn.child_eq name
  have hload := load_tidy hmem hroot h hdir
  rw [← hpath,← hdepth,← hname] at hload
  rw [child?_eq]
  cases hget : Table.get? name n.children with
  | some c => exact .inr ⟨c,n,rfl,hn.child hget,hn⟩
  | none =>
    rw [hn.sound.regular]
    rcases hload with hl | ⟨c,hl,hc⟩
    · rw [hl]
      exact .inl rfl
    · rw [hl]
      exact .inr ⟨c,n.withChild name c,rfl,hc,hn.withChild hc⟩

theorem create_whole (hsrc : ∀ d, (e.source d).Sorted) (h : Tidy e t) (hn : n.Whole dir)
    {name : Text} (hdir : Plain (dir ++ [name])) :
    ∃ c t', e.create name (n,t) = (.ok c,(n.withChild name c,t')) ∧ c.Whole (dir ++ [name]) ∧
      Tidy e t' := by
  obtain ⟨hpath,hdepth,hname⟩ := hn.child_eq name
  obtain ⟨c,hc⟩ : ∃ c, c = e.seeded (dir ++ [name]) (n.depth + 1) name := ⟨_,rfl⟩
  have hwhole : c.Whole (dir ++ [name]) := by
    rw [hc]
    exact .of_bare hdir (Node.sound_new (hsrc _)) rfl hdepth hname rfl
  obtain ⟨t',hpersist,htidy⟩ := persist_tidy hmem hroot h hwhole
  rw [create_eq e name n t hpath hc,hpersist]
  exact ⟨c,t',rfl,hwhole,htidy⟩

end

/-- A visit that leaves a node whole and the tree tidy, and comes to certain errors only. -/
def Visit.Upholds (e : Engine FileTree) (allowed : Error → Prop) (dir : List Text)
    (visit : Visit FileTree α) : Prop :=
  ∀ n t, n.Whole dir → Tidy e t →
    (∀ err, (visit (n,t)).1 = .error err → allowed err) ∧ (visit (n,t)).2.1.Whole dir ∧
      Tidy e (visit (n,t)).2.2

/-- An engine keeps whole nodes beside a tidy tree. -/
def Engine.Orderly (e : Engine FileTree) (s : Cache × FileTree) : Prop :=
  (∀ n, s.1 = some n → n.Whole []) ∧ Tidy e s.2

/-- No directory that a call may make a node for has the name of a shadow file on its path, and
the grants of a rule are a table. -/
def Engine.Call.Careful : Engine.Call → Prop
  | .effective path _ | .touchFile path | .setFilePermissions path _ _ | .setFileInherits path _ =>
    aclName ∉ (Path.segments path).dropLast
  | .setPermissions dir _ _ | .setInherits dir _ | .describe dir => aclName ∉ Path.segments dir
  | .addPattern dir _ permissions _ => aclName ∉ Path.segments dir ∧ permissions.Sorted
  | .clearCache => True

section

variable {e : Engine FileTree} {allowed : Error → Prop} {dir : List Text}
  (hmem : e.shadow = Memory.fileSystem) (hroot : Path.IsNormal e.shadowRoot)
  (hsrc : ∀ d, (e.source d).Sorted)

theorem child_upholds {name : Text} {visit : Visit FileTree α}
    (hv : visit.Upholds e allowed (dir ++ [name])) {n c : Node} {t : FileTree} (hn : n.Whole dir)
    (hc : c.Whole (dir ++ [name])) (h : Tidy e t) :
    (∀ err, (Visit.child name c visit (n,t)).1 = .error err → allowed err) ∧
      (Visit.child name c visit (n,t)).2.1.Whole dir ∧ Tidy e (Visit.child name c visit (n,t)).2.2 := by
  obtain ⟨herr,hnode,htree⟩ := hv c t hc h
  exact ⟨herr,hn.withChild hnode,htree⟩

include hmem hroot hsrc

/-- To ask never fails, as long as no directory on the way has the name of a shadow file. -/
theorem resolve_upholds (identity : Text) {names : List Text} (hdir : AreNames (dir ++ names))
    (hacl : aclName ∉ names.dropLast) (bindings : Bindings) (total : Permission) :
    (e.resolve identity names bindings total).Upholds e (fun _ => False) dir := by
  induction names generalizing dir bindings total with
  | nil => exact fun n t hn h => ⟨nofun,hn,h⟩
  | cons name names ih =>
    intro n t hn h
    rw [List.append_cons] at hdir
    have hname := hdir.of_append.1
    have hrest : aclName ∉ names.dropLast := by
      cases names with
      | nil => simp
      | cons x names => exact fun hm => hacl (by simp [hm])
    rw [resolve_cons]
    rcases child?_whole hmem hroot h hn hname with hchild | ⟨c,n₁,hchild,hc,hn₁⟩
    · rw [hchild]
      dsimp only
      cases hmatch : n.match? name with
      | some r =>
        obtain ⟨c',hinner⟩ := resolve_inner e identity
          (hn.sound.inner _ (mem_of_firstMatch hmatch)) names (Table.insertAll r.2.2 bindings)
          (r.2.1.apply e.groups (Table.insertAll r.2.2 bindings) identity total) t
        simp only [Visit.inner,hinner]
        exact ⟨by simp,hn,h⟩
      | none =>
        dsimp only
        cases Table.get? name n.files with
        | some f => exact ⟨by simp,hn,h⟩
        | none =>
          dsimp only
          split
          · exact ⟨by simp,hn,h⟩
          · next hlast =>
            -- The name is not the last one, and so it is not that of a shadow file.
            have hplain : Plain (dir ++ [name]) := by
              refine ⟨hname,fun hm => ?_⟩
              rcases List.mem_append.1 hm with hm | hm
              · exact hn.plain.2 hm
              · cases names with
                | nil => simp at hlast
                | cons x names => exact hacl (by simp [List.mem_singleton.1 hm])
            obtain ⟨c,t',hcreate,hc,htidy⟩ := create_whole hmem hroot hsrc h hn hplain
            rw [Action.bind_eq,hcreate]
            exact child_upholds (ih hdir hrest _ _) (hn.withChild hc) hc htidy
    · rw [hchild]
      exact child_upholds (ih hdir hrest _ _) hn₁ hc h

theorem visitDirectory_upholds (d : Text) (absent : Option α) {visit : Visit FileTree α}
    {names : List Text} (hdir : Plain (dir ++ names))
    (hv : visit.Upholds e allowed (dir ++ names)) :
    (e.visitDirectory d absent visit names).Upholds e allowed dir := by
  induction names generalizing dir with
  | nil => simpa [Engine.visitDirectory] using hv
  | cons name names ih =>
    intro n t hn h
    rw [List.append_cons] at hdir hv
    have hplain := hdir.of_append
    rw [visitDirectory_cons,hn.sound.regular]
    simp only [Bool.false_eq_true,if_false]
    rcases child?_whole hmem hroot h hn hplain.1 with hchild | ⟨c,n₁,hchild,hc,hn₁⟩
    · rw [hchild]
      cases absent with
      | some a => exact ⟨by simp,hn,h⟩
      | none =>
        obtain ⟨c,t',hcreate,hc,htidy⟩ := create_whole hmem hroot hsrc h hn hplain
        dsimp only
        rw [Action.bind_eq,hcreate]
        exact child_upholds (ih hdir hv) (hn.withChild hc) hc htidy
    · rw [hchild]
      exact child_upholds (ih hdir hv) hn₁ hc h

omit hsrc in
/-- To change a node fails only if there is something wrong with the change. -/
theorem changing_upholds {c : Change} (hc : c.Orderly) :
    (e.changing c).Upholds e (fun err => ∃ n, c.apply n = .error err) dir := by
  intro n t hn h
  rw [changing_eq]
  cases happ : c.apply n with
  | error err =>
    refine ⟨fun err' he => ⟨n,?_⟩,hn,h⟩
    rw [happ]
    cases he
    rfl
  | ok n' =>
    have hn' := hn.change hc happ
    obtain ⟨t',hpersist,htidy⟩ := persist_tidy hmem hroot h hn'
    simp only [hpersist]
    exact ⟨by simp,hn',htidy⟩

theorem visitTop_upholds {visit : Visit FileTree α} (hv : visit.Upholds e allowed [])
    {s : Cache × FileTree} (hs : e.Orderly s) :
    (∀ err, (e.visitTop visit s).1 = .error err → allowed err) ∧ e.Orderly (e.visitTop visit s).2 := by
  obtain ⟨cache,t⟩ := s
  obtain ⟨hcache,htidy⟩ := hs
  have hgo : ∀ n, n.Whole [] →
      (∀ err, (visit (n,t)).1 = .error err → allowed err) ∧
        e.Orderly (some (visit (n,t)).2.1,(visit (n,t)).2.2) := by
    intro n hn
    obtain ⟨herr,hnode,htree⟩ := hv n t hn htidy
    exact ⟨herr,fun m hm => Option.some.inj hm ▸ hnode,htree⟩
  cases cache with
  | some n => exact hgo n (hcache n rfl)
  | none =>
    simp only [Engine.visitTop]
    rcases load_tidy hmem hroot htidy Path.areNames_nil with hl | ⟨n,hl,hn⟩
    · replace hl : e.load ['/'] 0 [] t = (.ok none,t) := hl
      rw [hl]
      have hplain : Plain [] := ⟨Path.areNames_nil,by simp⟩
      exact hgo _ (.of_bare hplain (Node.sound_new (hsrc _)) rfl rfl rfl rfl)
    · replace hl : e.load ['/'] 0 [] t = (.ok (some n),t) := hl
      rw [hl]
      exact hgo n hn

theorem effective_orderly {s : Cache × FileTree} (hs : e.Orderly s) (path identity : Text)
    (hacl : aclName ∉ (Path.segments path).dropLast) :
    (∃ p, (e.effective path identity s).1 = .ok p) ∧ e.Orderly (e.effective path identity s).2 := by
  have hnames : AreNames ([] ++ Path.segments path) := Path.areNames_segments path
  rw [effective_eq]
  have hask : Visit.Upholds e (fun _ => False) []
      (e.ask identity (Path.segments path) [] Permission.empty) := fun n =>
    resolve_upholds hmem hroot hsrc identity hnames hacl []
      (n.apply e.groups [] identity Permission.empty) n
  obtain ⟨herr,hstate⟩ := visitTop_upholds hmem hroot hsrc hask hs
  refine ⟨?_,hstate⟩
  cases hr : (e.visitTop (e.ask identity (Path.segments path) [] Permission.empty) s).1 with
  | error err => exact (herr err hr).elim
  | ok p => exact ⟨p,rfl⟩

/-- The rules of a directory can be changed, if the change is fine in itself. -/
theorem update_orderly {s : Cache × FileTree} (hs : e.Orderly s) {dir : Text}
    (hacl : aclName ∉ Path.segments dir) {c : Change} (hc : c.Orderly) :
    (∀ err, (e.update dir c s).1 = .error err → ∃ n, c.apply n = .error err) ∧
      e.Orderly (e.update dir c s).2 := by
  have hplain : Plain ([] ++ Path.segments dir) := ⟨Path.areNames_segments dir,hacl⟩
  rw [update_eq]
  exact visitTop_upholds hmem hroot hsrc (visitDirectory_upholds hmem hroot hsrc _ none hplain
    (changing_upholds hmem hroot hc)) hs

theorem describe_orderly {s : Cache × FileTree} (hs : e.Orderly s) {dir : Text}
    (hacl : aclName ∉ Path.segments dir) : e.Orderly (e.describe dir s).2 := by
  have hplain : Plain ([] ++ Path.segments dir) := ⟨Path.areNames_segments dir,hacl⟩
  have hlook : Visit.Upholds e (fun _ => False) ([] ++ Path.segments dir)
      (Visit.node >>= fun n => pure (Engine.describeNode 0 n)) :=
    fun n t hn h => ⟨nofun,hn,h⟩
  exact (visitTop_upholds hmem hroot hsrc (visitDirectory_upholds hmem hroot hsrc _ _ hplain
    hlook) hs).2

omit hmem hroot hsrc in
theorem careful_change {call : Engine.Call} (hcall : call.Careful) {dir : Text} {c : Change}
    (h : call.change? = some (.ok (dir,c))) : aclName ∉ Path.segments dir ∧ c.Orderly := by
  have hfile : ∀ (file name : Text), aclName ∉ (Path.segments file).dropLast →
      Engine.splitFile file = .ok (dir,name) → aclName ∉ Path.segments dir := by
    intro file name hacl hsplit
    rwa [Engine.segments_of_splitFile hsplit,List.dropLast_concat] at hacl
  cases call with
  | setPermissions | setInherits =>
    cases h
    exact ⟨hcall,trivial⟩
  | addPattern =>
    cases h
    exact hcall
  | touchFile file | setFilePermissions file | setFileInherits file =>
    cases hsplit : Engine.splitFile file with
    | error err => simp [Engine.Call.change?,hsplit,Except.map] at h
    | ok r =>
      simp only [Engine.Call.change?,hsplit,Except.map,Option.some.injEq,Except.ok.injEq,
        Prod.mk.injEq] at h
      obtain ⟨rfl,rfl⟩ := h
      exact ⟨hfile file r.2 hcall hsplit,trivial⟩
  | effective | describe | clearCache => cases h

/-- Careful calls leave an orderly engine. -/
theorem call_orderly {call : Engine.Call} (hcall : call.Careful) {s : Cache × FileTree}
    (hs : e.Orderly s) : e.Orderly (call.run e s).2 := by
  cases hchange : call.change? with
  | some r =>
    obtain ⟨f,hrun⟩ := call.run_change hchange e s
    rw [hrun]
    rcases r with err | ⟨dir,c⟩
    · exact hs
    · obtain ⟨hacl,hc⟩ := careful_change hcall hchange
      exact (update_orderly hmem hroot hsrc hs hacl hc).2
  | none =>
    cases call with
    | effective path identity =>
      rw [Engine.Call.run_effective]
      exact (effective_orderly hmem hroot hsrc hs path identity hcall).2
    | describe dir =>
      rw [Engine.Call.run_describe]
      exact describe_orderly hmem hroot hsrc hs hcall
    | clearCache => exact ⟨nofun,hs.2⟩
    | _ => cases hchange

theorem run_orderly {calls : List Engine.Call} (hcalls : ∀ call ∈ calls, call.Careful)
    {s : Cache × FileTree} (hs : e.Orderly s) : e.Orderly (e.run calls s).2 := by
  induction calls generalizing s with
  | nil => exact hs
  | cons call calls ih =>
    have hfirst := call_orderly hmem hroot hsrc (hcalls call (by simp)) hs
    exact ih (fun c hc => hcalls c (by simp [hc])) hfirst

/-- Whoever asks an engine with its shadow files in memory is told what an identity may do, after
any careful calls and for any path on which the name of a shadow file comes last, if at all. -/
theorem effective_succeeds {calls : List Engine.Call} (hcalls : ∀ call ∈ calls, call.Careful)
    {path : Text} (hpath : aclName ∉ (Path.segments path).dropLast) (identity : Text) :
    ∃ p, (e.effective path identity (e.run calls (none,FileTree.empty)).2).1 = .ok p := by
  have hempty : e.Orderly (none,FileTree.empty) := ⟨nofun,tidy_empty e⟩
  exact (effective_orderly hmem hroot hsrc (run_orderly hmem hroot hsrc hcalls hempty) path identity
    hpath).1

end

/-- Someone asks about a shadow file and is granted something, and all is read anew. -/
def visitCalls : List Engine.Call :=
  [.effective "/.acl".toList "ann".toList,
    .setPermissions "/hall".toList "ann".toList (Permission.of .read),.clearCache]

theorem effective_succeeds_memory :
    memoryEngine.shadow = Memory.fileSystem ∧ Path.IsNormal memoryEngine.shadowRoot ∧
      (∀ d, (memoryEngine.source d).Sorted) ∧ (∀ call ∈ visitCalls, call.Careful) ∧
      aclName ∉ (Path.segments "/hall/.acl".toList).dropLast ∧
      ∃ p, (memoryEngine.effective "/hall/.acl".toList "ann".toList
        (memoryEngine.run visitCalls (none,FileTree.empty)).2).1 = .ok p := by
  have hcalls : ∀ call ∈ visitCalls, call.Careful := by
    have hask : aclName ∉ (Path.segments "/.acl".toList).dropLast := by decide +kernel
    have hgrant : aclName ∉ Path.segments "/hall".toList := by decide +kernel
    simp only [visitCalls,List.forall_mem_cons]
    exact ⟨hask,hgrant,trivial,by simp⟩
  have hpath : aclName ∉ (Path.segments "/hall/.acl".toList).dropLast := by decide +kernel
  have hsource : ∀ d, (memoryEngine.source d).Sorted := fun _ => Table.sorted_nil
  exact ⟨rfl,isNormal_top,hsource,hcalls,hpath,
    effective_succeeds rfl isNormal_top hsource hcalls hpath "ann".toList⟩

/-- Someone asks for a place below a shadow file, and all is read anew. -/
def intrusion : List Engine.Call :=
  [.effective "/.acl/box".toList "ann".toList,.clearCache]

/-- From then on nobody is told anything. -/
theorem not_effective_succeeds :
    (memoryEngine.run intrusion (none,FileTree.empty)).1 =
        [.ok (.permission Permission.empty),.ok .done] ∧
      (memoryEngine.effective "/box".toList "ann".toList
        (memoryEngine.run intrusion (none,FileTree.empty)).2).1 = .error (.file .isDirectory) := by
  decide +kernel

end Realm.Acl
