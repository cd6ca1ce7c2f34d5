import Realm.Proofs.FileSystem.Connected
import Realm.Proofs.Mediation

/-! The top directory of a file system in memory. Nothing but its own removal takes it away,
neither directly nor through a file manager; but nothing refuses that removal. -/
namespace Realm

namespace Memory

open FileTree (Entry)

variable {t : FileTree} {path : Text}

theorem locate_eq_nil_iff : locate path = [] ↔ Path.normalize path = ['/'] := by
  rw [locate_eq_segments]
  exact (Path.ofSegments_eq_top_iff (Path.areNames_segments path)).symm

@[simp] theorem at?_prune (t : FileTree) (place q : List Text) :
    FileTree.at? (t.prune place) q = if place <+: q then none else t.at? q := by
  rw [FileTree.prune_eq,FileTree.at?,Table.get?_filter (fun q => !place.isPrefixOf q)]
  by_cases h : place <+: q
  · simp [h,List.isPrefixOf_iff_prefix.2 h]
  · have hkeep : place.isPrefixOf q = false :=
      Bool.eq_false_iff.2 fun hpre => h (List.isPrefixOf_iff_prefix.1 hpre)
    simp [h,hkeep,FileTree.at?]

@[simp] theorem at?_erase (t : FileTree) (place q : List Text) :
    FileTree.at? (t.erase place) q = if q = place then none else t.at? q := by
  rw [Table.erase,FileTree.at?,Table.get?_filter (fun q => decide (q ≠ place))]
  by_cases h : q = place
  · simp [h]
  · simp [h,FileTree.at?]

theorem top_writeAt (h : t.at? [] = some .directory) (place : List Text) (c : Bytes) :
    FileTree.at? (writeAt place c t).2 [] = some .directory := by
  rw [writeAt_eq]
  split
  · exact h
  · split
    · exact h
    · next hdir =>
      have hplace : [] ≠ place := by
        rintro rfl
        exact hdir (by simpa [FileTree.isDirectory] using h)
      rwa [FileTree.at?_insert,if_neg hplace]

theorem top_append (h : t.at? [] = some .directory) (path : Text) (c : Bytes) :
    FileTree.at? (append path c t).2 [] = some .directory := by
  rw [append_eq]
  split
  · next old hat =>
    have hplace : [] ≠ locate path := by
      intro hplace
      rw [← hplace,h] at hat
      cases hat
    rwa [FileTree.at?_insert,if_neg hplace]
  · exact h
  · exact top_writeAt h _ c

theorem top_makeDir (h : t.at? [] = some .directory) (path : Text) (recursive : Bool) :
    FileTree.at? (makeDir path recursive t).2 [] = some .directory := by
  cases recursive with
  | true =>
    refine (at?_makeWay_unmade fun way hne _ hway => ?_).trans h
    exact absurd hway.symm hne
  | false =>
    rw [makeDir_eq]
    split
    · exact h
    · split
      · exact h
      · rw [FileTree.at?_insert]
        split
        · rfl
        · exact h

theorem top_remove (h : t.at? [] = some .directory) (hpath : locate path ≠ []) (recursive : Bool) :
    FileTree.at? (remove path recursive t).2 [] = some .directory := by
  rw [remove_eq]
  split
  · split
    · exact h
    · rwa [at?_prune,if_neg (mt List.prefix_nil.1 hpath)]
  · rwa [at?_erase,if_neg (Ne.symm hpath)]
  · exact h

theorem top_call (h : t.at? [] = some .directory) {call : FileSystem.Call}
    (hspared : call.removesTop = true → (call.run fileSystem t).1.isOk = false) :
    FileTree.at? (call.run fileSystem t).2 [] = some .directory := by
  rw [FileSystem.Call.run_eq] at hspared ⊢
  cases call with
  | read path => exact (read_still path t).symm ▸ h
  | write path c => exact top_writeAt h _ c
  | append path c => exact top_append h path c
  | makeDir path recursive => exact top_makeDir h path recursive
  | remove path recursive =>
    by_cases hpath : locate path = []
    · have hrefused := hspared
        (by simpa [FileSystem.Call.removesTop] using locate_eq_nil_iff.1 hpath)
      cases hr : (remove path recursive t).1 with
      | error err => exact (remove_refused hr).symm ▸ h
      | ok u =>
        have hr : (fileSystem.remove path recursive t).1 = .ok u := hr
        simp [hr,Except.map,Except.isOk,Except.toBool] at hrefused
    · exact top_remove h hpath recursive
  | stat path => exact (stat_still path t).symm ▸ h
  | list path => exact (list_still path t).symm ▸ h
  | has path => exact h

theorem top_run (h : t.at? [] = some .directory) {calls : List FileSystem.Call}
    (hspared : ∀ e ∈ calls.zip (fileSystem.run calls t).1,
      e.1.removesTop = true → e.2.isOk = false) :
    FileTree.at? (fileSystem.run calls t).2 [] = some .directory := by
  induction calls generalizing t with
  | nil => exact h
  | cons call calls ih =>
    rw [FileSystem.run_cons,List.zip_cons_cons] at hspared
    refine ih (top_call h (hspared _ List.mem_cons_self)) fun e he => ?_
    exact hspared e (List.mem_cons_of_mem _ he)

theorem remove_top (h : t.at? [] = some .directory) (hpath : locate path = []) {recursive : Bool}
    (hok : (remove path recursive t).1 = .ok ()) :
    FileTree.at? (remove path recursive t).2 [] = none := by
  rw [remove_eq,hpath,h] at hok ⊢
  dsimp only at hok ⊢
  split
  · next hrefused =>
    rw [if_pos hrefused] at hok
    cases hok
  · rw [at?_prune,if_pos List.nil_prefix]

theorem write_fresh (h : t.at? [] = some .directory) {name : Text} (hpath : locate path = [name])
    (hfree : t.at? [name] = none) (c : Bytes) : (write path c t).1 = .ok () := by
  have htop : lacksParent t [name] = false := by simp [lacksParent,FileTree.isDirectory,h]
  have hdir : t.isDirectory [name] = false := by simp [FileTree.isDirectory,hfree]
  rw [write,hpath,writeAt_eq,htop,hdir]
  rfl

theorem makeDir_fresh (h : t.at? [] = some .directory) {name : Text} (hpath : locate path = [name])
    (hfree : t.at? [name] = none) (recursive : Bool) : (makeDir path recursive t).1 = .ok () := by
  have htop : lacksParent t [name] = false := by simp [lacksParent,FileTree.isDirectory,h]
  have hnone : t.contains [name] = false := by
    rw [FileTree.at?] at hfree
    rw [Table.contains,hfree]
    rfl
  cases recursive with
  | false =>
    rw [makeDir_eq,hpath,htop,hnone]
    rfl
  | true =>
    show (makeWay [] (locate path) t).1 = .ok ()
    rw [hpath,makeWay_cons,List.nil_append,hfree]
    rfl

end Memory

/-! Through a file manager. -/

variable {ι ρ α β : Type}

/-- All file systems that may be mounted have their top directory. -/
def Site.HasTops (w : Site ι ρ) : Prop :=
  ∀ i, FileTree.at? (w.trees i) [] = some .directory

/-- A step that takes no top directory away. -/
def Action.SparesTops (x : Action (Site ι ρ) α) : Prop :=
  ∀ w, w.HasTops → (x w).2.HasTops

theorem Action.Still.sparesTops {x : Action (Site ι ρ) α} (h : Action.Still x) :
    Action.SparesTops x := by
  intro w hw i
  rw [h w]
  exact hw i

theorem Action.SparesTops.bind {x : Action (Site ι ρ) α} {k : α → Action (Site ι ρ) β}
    (hx : Action.SparesTops x) (hk : ∀ a, Action.SparesTops (k a)) :
    Action.SparesTops (x >>= k) :=
  Action.bind_keeps (R := fun w w' : Site ι ρ => w.HasTops → w'.HasTops)
    (fun _ _ _ h h' hw => h' (h hw)) hx hk

theorem Action.SparesTops.map {x : Action (Site ι ρ) (Access α)} (h : Action.SparesTops x)
    (f : α → β) : Action.SparesTops (x >>= fun a => Pure.pure (a.map f)) :=
  h.bind fun _ => (Action.Still.pure _).sparesTops

section Trees

variable [DecidableEq ι] {t : Table Text (ι × Policy ρ)} {path : Text}

theorem sparesTops_tree (i : ι) {x : Action FileTree α}
    (h : ∀ t, FileTree.at? t [] = some .directory → FileTree.at? (x t).2 [] = some .directory) :
    Action.SparesTops ((Site.tree i).run x : Action (Site ι ρ) α) := by
  intro w hw j
  show FileTree.at? (if j = i then _ else _) [] = _
  by_cases hj : j = i
  · rw [if_pos hj]
    exact h _ (hw i)
  · rw [if_neg hj]
    exact hw j

theorem perform_sparesTops (identity : Text) (action : FileAction)
    {operation : Request (Site ι ρ) → Action (Site ι ρ) α}
    (h : ∀ r i policy, (FileManager.ofTable t).request path = .ok r →
      r.mount = mounted i policy → Action.SparesTops (operation r)) :
    Action.SparesTops ((FileManager.ofTable t).perform identity action path operation) :=
  perform_keeps (R := fun w w' : Site ι ρ => w.HasTops → w'.HasTops) (fun _ _ h hw i => h ▸ hw i)
    (fun _ _ _ h h' hw => h' (h hw)) identity action h

theorem sparesTops_remove (i : ι) {path : Text} (hpath : Memory.locate path ≠ [])
    (recursive : Bool) :
    Action.SparesTops (ρ := ρ)
      ((Memory.fileSystem.within (Site.tree i)).remove path recursive) :=
  sparesTops_tree i fun _ h => Memory.top_remove h hpath recursive

theorem sparesTops_deleteFile (i : ι) (path fullPath : Text) :
    Action.SparesTops (ρ := ρ) (do
      let info ← (Memory.fileSystem.within (Site.tree i)).stat path
      if info.isDirectory then throw (.file (.pathIsDirectory fullPath))
      else (Memory.fileSystem.within (Site.tree i)).remove path false) := by
  by_cases hpath : Memory.locate path = []
  · intro w hw
    have hstat : (Memory.fileSystem.within (Site.tree i)).stat path w =
        (.ok .directory,(Site.tree i).set (w.trees i) w) := by
      show ((Memory.stat path (w.trees i)).1,(Site.tree i).set (Memory.stat path (w.trees i)).2 w) = _
      rw [Memory.stat,Action.get_bind,hpath,hw i]
      rfl
    have hkeep := (still_stat i path).sparesTops w hw
    rw [hstat] at hkeep
    rw [Action.bind_eq,hstat]
    exact hkeep
  · refine (still_stat i path).sparesTops.bind fun info => ?_
    split
    · exact (Action.Still.throw _).sparesTops
    · exact sparesTops_remove i hpath false

end Trees

/-- A call of an identity at a path, under the mounts of its time. -/
structure Errand (ι ρ : Type) where
  mounts : Table Text (ι × Policy ρ)
  identity : Text
  path : Text
  call : FileCall

namespace Errand

variable [DecidableEq ι]

def run (e : Errand ι ρ) : Action (Site ι ρ) (Access FileReply) :=
  e.call.run (.ofTable e.mounts) e.identity e.path

/-- Whether a mounted directory itself is to be deleted. -/
def removesTop (e : Errand ι ρ) : Bool :=
  match e.call,(FileManager.ofTable e.mounts).request e.path with
  | .deleteDirectory _,.ok r => Path.normalize r.relativePath = ['/']
  | _,_ => false

/-- Carry out errands in their order, each whatever became of those before it. -/
def runAll : List (Errand ι ρ) → Site ι ρ → List (Except Error (Access FileReply)) × Site ι ρ
  | [],w => ([],w)
  | e :: es,w =>
    let rest := runAll es (e.run w).2
    ((e.run w).1 :: rest.1,rest.2)

@[simp] theorem runAll_cons (e : Errand ι ρ) (es : List (Errand ι ρ)) (w : Site ι ρ) :
    runAll (e :: es) w = ((e.run w).1 :: (runAll es (e.run w).2).1,(runAll es (e.run w).2).2) :=
  rfl

/-- What does not delete a mounted directory itself spares the tops, granted or not. -/
theorem sparesTops_run {e : Errand ι ρ} (h : e.removesTop = false) : Action.SparesTops e.run := by
  obtain ⟨t,identity,path,call⟩ := e
  cases call with
  | read | list | stat | has | load => exact Action.Still.sparesTops (look_still identity rfl)
  | write content =>
    refine (perform_sparesTops identity .write fun r i policy _ hm => ?_).map _
    rw [hm]
    exact sparesTops_tree i fun _ h => Memory.top_writeAt h _ content
  | append content =>
    refine (perform_sparesTops identity .append fun r i policy _ hm => ?_).map _
    rw [hm]
    exact sparesTops_tree i fun _ h => Memory.top_append h _ content
  | makeDirectory =>
    refine (perform_sparesTops identity .makeDirectory fun r i policy _ hm => ?_).map _
    rw [hm]
    exact sparesTops_tree i fun _ h => Memory.top_makeDir h _ false
  | deleteFile =>
    refine (perform_sparesTops identity .deleteFile fun r i policy _ hm => ?_).map _
    rw [hm]
    exact sparesTops_deleteFile i _ _
  | deleteDirectory recursive =>
    refine (perform_sparesTops identity .deleteDirectory fun r i policy hr hm => ?_).map _
    have hpath : Memory.locate r.relativePath ≠ [] := by
      rw [removesTop] at h
      dsimp only at h
      rw [hr] at h
      simpa [Memory.locate_eq_nil_iff] using h
    rw [hm]
    refine (still_stat i _).sparesTops.bind fun info => ?_
    split
    · exact sparesTops_remove i hpath recursive
    · exact (Action.Still.throw _).sparesTops

theorem hasTops_run {w : Site ι ρ} (hw : w.HasTops) {e : Errand ι ρ}
    (h : e.removesTop = true → ∀ reply, (e.run w).1 ≠ .ok (.granted reply)) :
    (e.run w).2.HasTops := by
  by_cases hremoves : e.removesTop = true
  · intro i
    have hmediated : Mediated e.mounts e.path e.run := call_mediated e.identity e.call
    rw [hmediated.ungranted w (h hremoves)]
    exact hw i
  · exact sparesTops_run (Bool.not_eq_true _ ▸ hremoves) w hw

theorem hasTops_runAll {w : Site ι ρ} (hw : w.HasTops) {es : List (Errand ι ρ)}
    (h : ∀ e ∈ es.zip (runAll es w).1,
      e.1.removesTop = true → ∀ reply, e.2 ≠ .ok (.granted reply)) :
    (runAll es w).2.HasTops := by
  induction es generalizing w with
  | nil => exact hw
  | cons e es ih =>
    rw [runAll_cons,List.zip_cons_cons] at h
    refine ih (hasTops_run hw (h _ List.mem_cons_self)) fun e' he' => ?_
    exact h e' (List.mem_cons_of_mem _ he')

end Errand

/-- The top directory remains, and takes new files and directories, unless a removal of the top
itself succeeds: after any calls of a file system in memory, and after any errands to mounted
ones, among which the removals of a top were all refused. One that succeeds leaves no top. -/
theorem top_remains [DecidableEq ι] (calls : List FileSystem.Call) (errands : List (Errand ι ρ))
    (w : Site ι ρ) :
    ((∀ e ∈ calls.zip (Memory.fileSystem.run calls FileTree.empty).1,
        e.1.removesTop = true → e.2.isOk = false) →
      let t := (Memory.fileSystem.run calls FileTree.empty).2
      t.at? [] = some .directory ∧
        ∀ path name, Path.segments path = [name] → t.at? [name] = none →
          (∀ content, (Memory.fileSystem.write path content t).1 = .ok ()) ∧
            ∀ recursive, (Memory.fileSystem.makeDir path recursive t).1 = .ok ()) ∧
    ((∀ i, (w.trees i).at? [] = some .directory) →
      (∀ e ∈ errands.zip (Errand.runAll errands w).1,
        e.1.removesTop = true → ∀ reply, e.2 ≠ .ok (.granted reply)) →
      ∀ i, ((Errand.runAll errands w).2.trees i).at? [] = some .directory) ∧
    ∀ (t : FileTree) (path : Text) (recursive : Bool),
      t.at? [] = some .directory → Path.normalize path = ['/'] →
      (Memory.fileSystem.remove path recursive t).1 = .ok () →
        (Memory.fileSystem.remove path recursive t).2.at? [] = none := by
  refine ⟨fun hspared => ?_,fun htops hspared => Errand.hasTops_runAll htops hspared,
    fun t path recursive htop hpath hok => ?_⟩
  · have htop := Memory.top_run (by decide) hspared
    refine ⟨htop,fun path name hpath hfree => ?_⟩
    rw [← Memory.locate_eq_segments] at hpath
    exact ⟨Memory.write_fresh htop hpath hfree,Memory.makeDir_fresh htop hpath hfree⟩
  · exact Memory.remove_top htop (Memory.locate_eq_nil_iff.2 hpath) hok

/-- A file system in memory mounted in the library, where everybody may do everything. -/
def library (path : Text) (call : FileCall) : Errand Unit Unit where
  mounts := [("/lib".toList,((),.permissive false))]
  identity := "bob".toList
  path := path
  call := call

/-- The top remains where its removals are refused because it is not empty. -/
theorem top_remains_filled :
    let calls : List FileSystem.Call := [.makeDir "/a".toList false,.remove "/".toList false]
    let errands := [library "/lib/a".toList .makeDirectory,
      library "/lib".toList (.deleteDirectory false)]
    let t := (Memory.fileSystem.run calls FileTree.empty).2
    let w : Site Unit Unit := ⟨fun _ => FileTree.empty,()⟩
    (Memory.fileSystem.run calls FileTree.empty).1 =
        [.ok .done,.error (.file .directoryNotEmpty)] ∧
      (Errand.runAll errands w).1 = [.ok (.granted .done),.error (.file .directoryNotEmpty)] ∧
      t.at? [] = some .directory ∧
      (Memory.fileSystem.write "/b".toList [] t).1 = .ok () ∧
      ((Errand.runAll errands w).2.trees ()).at? [] = some .directory := by
  intro calls errands t w
  have hcalls : (Memory.fileSystem.run calls FileTree.empty).1 =
      [.ok .done,.error (.file .directoryNotEmpty)] := by rfl
  have herrands : (Errand.runAll errands w).1 =
      [.ok (.granted .done),.error (.file .directoryNotEmpty)] := by rfl
  obtain ⟨hmemory,hmounted,-⟩ := top_remains calls errands w
  obtain ⟨htop,hfresh⟩ := hmemory (by rw [hcalls]; decide)
  refine ⟨hcalls,herrands,htop,(hfresh _ "b".toList (by decide) (by decide)).1 [],?_⟩
  refine hmounted (fun _ => rfl) (fun e he hremoves reply => ?_) ()
  rw [herrands] at he
  rcases List.mem_cons.1 he with rfl | he
  · exact absurd hremoves (by decide)
  · rw [List.mem_singleton.1 he]
    simp

/-- Nothing refuses the removal of the top, by its path or by that of a mount, nor takes the
top for granted afterwards. -/
theorem top_removed :
    let calls : List FileSystem.Call := [.remove "/".toList true,.makeDir "/a".toList false]
    let errands := [library "/lib".toList (.deleteDirectory true),
      library "/lib/a".toList (.write [])]
    let w : Site Unit Unit := ⟨fun _ => FileTree.empty,()⟩
    Memory.fileSystem.run calls FileTree.empty =
        ([.ok .done,.error (.file .parentNotFound)],[]) ∧
      (Errand.runAll errands w).1 =
        [.ok (.granted .done),.error (.file .parentNotFound)] ∧
      (Errand.runAll errands w).2.trees () = [] := by
  intro calls errands w
  exact ⟨rfl,rfl,rfl⟩

end Realm
