import Realm.FileSystem.Disk
import Realm.FileSystem.Memory
import Realm.Proofs.Action
import Realm.Proofs.Table

/-! File systems with the same files, whose contents correspond. What is seen of one and what
becomes of it differs from the other in the contents of files alone. -/
namespace Realm

variable {σ τ : Type} {B : Bytes → Bytes → Prop}

/-- File systems on which contents that correspond are found and stored alike. -/
structure FileSystem.Parallel (R : σ → τ → Prop) (B : Bytes → Bytes → Prop)
    (fs : FileSystem σ) (fs' : FileSystem τ) : Prop where
  has : ∀ p, Action.Related R Eq (fs.has p) (fs'.has p)
  read : ∀ p, Action.Related R B (fs.read p) (fs'.read p)
  makeDir : ∀ p b, Action.Related R Eq (fs.makeDir p b) (fs'.makeDir p b)
  write : ∀ p {c c'}, B c c' → Action.Related R Eq (fs.write p c) (fs'.write p c')

theorem FileSystem.Parallel.refl (fs : FileSystem σ) : Parallel Eq Eq fs fs := by
  have hsame : ∀ {α : Type} (x : Action σ α), Action.Related Eq Eq x x := by
    rintro α x s _ rfl
    exact ⟨.refl (fun _ => rfl) _,rfl⟩
  exact ⟨fun _ => hsame _,fun _ => hsame _,fun _ _ => hsame _,fun _ _ _ h => h ▸ hsame _⟩

namespace FileTree

/-- Places that are both directories, or files whose contents correspond. -/
inductive Entry.Rel (B : Bytes → Bytes → Prop) : Entry → Entry → Prop
  | file {c c' : Bytes} (h : B c c') : Rel B (.file c) (.file c')
  | directory : Rel B .directory .directory

/-- Trees of the same places with contents that correspond. -/
abbrev Rel (B : Bytes → Bytes → Prop) : FileTree → FileTree → Prop :=
  Table.Rel (Entry.Rel B)

namespace Rel

variable {t t' : FileTree} (h : t.Rel B t')

include h

theorem at?_cases (place : List Text) :
    (t.at? place = none ∧ t'.at? place = none) ∨
    (t.at? place = some .directory ∧ t'.at? place = some .directory) ∨
    ∃ c c', t.at? place = some (.file c) ∧ t'.at? place = some (.file c') ∧ B c c' := by
  have hat := h.get? place
  simp only [at?]
  generalize Table.get? place t = x at hat ⊢
  generalize Table.get? place t' = y at hat ⊢
  cases hat with
  | none => exact .inl ⟨rfl,rfl⟩
  | some hxy =>
    cases hxy with
    | directory => exact .inr (.inl ⟨rfl,rfl⟩)
    | file hc => exact .inr (.inr ⟨_,_,rfl,rfl,hc⟩)

theorem isDirectory_eq (place : List Text) : t.isDirectory place = t'.isDirectory place := by
  rw [isDirectory,isDirectory]
  rcases h.at?_cases place with ⟨ht,ht'⟩ | ⟨ht,ht'⟩ | ⟨c,c',ht,ht',-⟩
  all_goals simp [ht,ht']

theorem contains_eq (place : List Text) : t.contains place = t'.contains place := by
  show (t.at? place).isSome = (t'.at? place).isSome
  rcases h.at?_cases place with ⟨ht,ht'⟩ | ⟨ht,ht'⟩ | ⟨c,c',ht,ht',-⟩
  all_goals simp [ht,ht']

end Rel

end FileTree

open FileTree (Entry)

namespace Memory

theorem writeAt_related (place : List Text) {c c' : Bytes} (hc : B c c') :
    Action.Related (FileTree.Rel B) Eq (writeAt place c) (writeAt place c') := by
  intro t t' h
  have hlacks : lacksParent t place = lacksParent t' place := by
    simp only [lacksParent,h.isDirectory_eq]
  rw [writeAt,writeAt,Action.get_bind,Action.get_bind,hlacks,h.isDirectory_eq]
  split
  · exact ⟨.error _,h⟩
  · split
    · exact ⟨.error _,h⟩
    · exact ⟨.ok rfl,h.insert place (.file hc)⟩

theorem makeWay_related (place names : List Text) :
    Action.Related (FileTree.Rel B) Eq (makeWay place names) (makeWay place names) := by
  induction names generalizing place with
  | nil => exact .pure rfl
  | cons name names ih =>
    intro t t' h
    simp only [makeWay]
    rw [Action.get_bind,Action.get_bind]
    rcases h.at?_cases (place ++ [name]) with ⟨ht,ht'⟩ | ⟨ht,ht'⟩ | ⟨c,c',ht,ht',-⟩
    all_goals rw [ht,ht']
    · exact ih _ _ _ (h.insert _ .directory)
    · exact ih _ _ _ h
    · exact ⟨.error _,h⟩

/-- File systems in memory with contents that correspond. -/
theorem parallel (B : Bytes → Bytes → Prop) :
    FileSystem.Parallel (FileTree.Rel B) B fileSystem fileSystem where
  has p t t' h := ⟨.ok (h.contains_eq _),h⟩
  read p t t' h := by
    show ResultRel _ (read p t).1 (read p t').1 ∧ FileTree.Rel B (read p t).2 (read p t').2
    rw [read,Action.get_bind,Action.get_bind]
    rcases h.at?_cases (locate p) with ⟨ht,ht'⟩ | ⟨ht,ht'⟩ | ⟨c,c',ht,ht',hc⟩
    all_goals rw [ht,ht']
    · exact ⟨.error _,h⟩
    · exact ⟨.error _,h⟩
    · exact ⟨.ok hc,h⟩
  makeDir p recursive t t' h := by
    have hlacks : lacksParent t (locate p) = lacksParent t' (locate p) := by
      simp only [lacksParent,h.isDirectory_eq]
    show ResultRel _ (makeDir p recursive t).1 (makeDir p recursive t').1 ∧
      FileTree.Rel B (makeDir p recursive t).2 (makeDir p recursive t').2
    simp only [makeDir]
    split
    · exact makeWay_related _ _ t t' h
    · rw [Action.get_bind,Action.get_bind,hlacks,h.contains_eq]
      split
      · exact ⟨.error _,h⟩
      · split
        · exact ⟨.error _,h⟩
        · exact ⟨.ok rfl,h.insert _ .directory⟩
  write p _ _ hc := writeAt_related (locate p) hc

end Memory

namespace Disk

variable {t t' : FileTree}

theorem obstacle?_parallel (h : t.Rel B t') (place : List Text) :
    obstacle? t place = obstacle? t' place := by
  rw [obstacle?,obstacle?]
  congr 1
  funext p
  rcases h.at?_cases p with ⟨ht,ht'⟩ | ⟨ht,ht'⟩ | ⟨c,c',ht,ht',-⟩
  all_goals rw [ht,ht']

theorem find_related (place : List Text) :
    Action.Related (FileTree.Rel B) (Option.Rel (Entry.Rel B)) (find place) (find place) := by
  intro t t' h
  rw [find,Action.get_bind,Action.get_bind,obstacle?_parallel h]
  cases obstacle? t' place with
  | some e => exact ⟨.error _,h⟩
  | none => exact ⟨.ok (h.get? place),h⟩

theorem insert_related {place : List Text} {x y : Entry} (hxy : Entry.Rel B x y) :
    Action.Related (FileTree.Rel B) Eq (modify (·.insert place x) : Action FileTree Unit)
      (modify (·.insert place y)) :=
  fun _ _ h => ⟨.ok rfl,h.insert place hxy⟩

theorem guarded_related (c : Config) {x y : Action FileTree Unit}
    (h : Action.Related (FileTree.Rel B) Eq x y) :
    Action.Related (FileTree.Rel B) Eq (guarded c x) (guarded c y) := by
  rw [guarded,guarded]
  split
  · exact .throw _
  · exact h

theorem makeWayTo_related (place : List Text) :
    Action.Related (FileTree.Rel B) Eq (makeWayTo place) (makeWayTo place) := by
  have hfold : ∀ {t t' : FileTree} (ps : List (List Text)), t.Rel B t' →
      FileTree.Rel B (ps.foldl (fun t p => t.insert p Entry.directory) t)
        (ps.foldl (fun t p => t.insert p Entry.directory) t') := by
    intro t t' ps h
    induction ps generalizing t t' with
    | nil => exact h
    | cons p ps ih => exact ih (h.insert p .directory)
  intro t t' h
  have hmissing : ((FileTree.wayTo place).filter fun p => !t.contains p) =
      (FileTree.wayTo place).filter fun p => !t'.contains p := by
    simp only [h.contains_eq]
  have hset := hfold ((FileTree.wayTo place).filter fun p => !t'.contains p) h
  rw [makeWayTo,Action.get_bind,Action.get_bind,obstacle?_parallel h,hmissing]
  rcases obstacle? t' place with _ | (_ | _ | _ | _ | _)
  all_goals
    rcases h.at?_cases place with ⟨ht,ht'⟩ | ⟨ht,ht'⟩ | ⟨c,c',ht,ht',-⟩
    all_goals rw [ht,ht']
    all_goals first | exact ⟨.error _,h⟩ | exact ⟨.ok rfl,hset⟩

/-- Directories of the host with contents that correspond. -/
theorem parallel (c : Config) (B : Bytes → Bytes → Prop) :
    FileSystem.Parallel (FileTree.Rel B) B (fileSystem c) (fileSystem c) where
  has p t t' h := by
    show ResultRel _ (hasAt (resolve c.root p) t).1 (hasAt (resolve c.root p) t').1 ∧
      FileTree.Rel B (hasAt (resolve c.root p) t).2 (hasAt (resolve c.root p) t').2
    rw [hasAt,Action.get_bind,Action.get_bind,obstacle?_parallel h]
    rcases obstacle? t' (resolve c.root p) with _ | (_ | _ | _ | _ | _)
    · exact ⟨.ok (h.contains_eq _),h⟩
    · exact ⟨.ok rfl,h⟩
    all_goals exact ⟨.error _,h⟩
  read p := by
    refine Action.Related.bind (Q := Entry.Rel B) ((find_related _).bind fun x y hxy => ?_)
      fun x y hxy => ?_
    · cases hxy with
      | none => exact .throw _
      | some hxy => exact .pure hxy
    · cases hxy with
      | file hc => exact .pure hc
      | directory => exact .throw _
  makeDir p recursive := by
    refine guarded_related c ?_
    cases recursive with
    | true => exact makeWayTo_related _
    | false =>
      refine (find_related _).bind fun x y hxy => ?_
      cases hxy with
      | none => exact insert_related .directory
      | some _ => exact .throw _
  write p c₁ c₂ hc := by
    refine guarded_related c ((find_related _).bind fun x y hxy => ?_)
    cases hxy with
    | none => exact insert_related (.file hc)
    | some hxy =>
      cases hxy with
      | file _ => exact insert_related (.file hc)
      | directory => exact .throw _

end Disk

end Realm
