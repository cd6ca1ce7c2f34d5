import Realm.FileSystem.Memory
import Realm.Proofs.Action
import Realm.Proofs.FileSystem.Contents
import Realm.Proofs.Path

/-! File systems in memory give back what was written last. -/
namespace Realm.Memory

open Realm.Path (ofSegments AreNames)
open FileTree (Entry)

theorem foldl_place {segs : List Text} (h : AreNames segs) (place : List Text) :
    segs.foldl (fun place part => if part = Path.up then place.dropLast else place ++ [part])
      place = place ++ segs := by
  induction segs generalizing place with
  | nil => simp
  | cons s segs ih =>
    have hs : s ≠ Path.up := (h s (by simp)).2.2.1
    rw [List.foldl_cons,if_neg hs,ih fun s hs => h s (by simp [hs])]
    simp

theorem locate_ofSegments {segs : List Text} (h : AreNames segs) :
    locate (ofSegments segs) = segs := by
  rw [locate,Path.parts_ofSegments h,foldl_place h,List.nil_append]

theorem locate_eq_segments (path : Text) : locate path = Path.segments path := by
  refine (Path.foldl_parts List.reverse (fun trail => ?_) (fun trail part hpart => ?_) path).trans
    (List.reverse_reverse _)
  · simp [Path.up]
  · rw [if_neg hpart,List.reverse_cons]

theorem at?_makeWay {place names : List Text} {t t' : FileTree} {r : Except Error Unit}
    (h : makeWay place names t = (r,t')) {q : List Text} (hq : ¬ q <+: place ++ names) :
    t'.at? q = t.at? q := by
  induction names generalizing place t with
  | nil =>
    cases h
    rfl
  | cons name names ih =>
    have hq' : ¬ q <+: (place ++ [name]) ++ names := by simpa using hq
    have hne : q ≠ place ++ [name] := fun he => hq' (he ▸ List.prefix_append _ _)
    rw [makeWay,Action.get_bind] at h
    cases hat : t.at? (place ++ [name]) with
    | none =>
      rw [hat] at h
      have h : makeWay (place ++ [name]) names (t.insert (place ++ [name]) Entry.directory) =
        (r,t') := h
      rw [ih h hq']
      exact Table.get?_insert_of_ne hne _ _
    | some e =>
      rw [hat] at h
      cases e with
      | directory => exact ih h hq'
      | file _ =>
        cases h
        rfl

theorem writeAt_eq (place : List Text) (c : Bytes) (t : FileTree) :
    writeAt place c t =
      if lacksParent t place then (.error (.file .parentNotFound),t)
      else if t.isDirectory place then (.error (.file .isDirectory),t)
      else (.ok (),t.insert place (Entry.file c)) := by
  show (if lacksParent t place then fail .parentNotFound
    else if t.isDirectory place then fail .isDirectory
    else set (t.insert place (Entry.file c)) : Action FileTree Unit) t = _
  split
  · rfl
  · split <;> rfl

theorem eq_of_writeAt {place : List Text} {c : Bytes} {t t' : FileTree}
    (h : writeAt place c t = (.ok (),t')) : t' = t.insert place (Entry.file c) := by
  rw [writeAt_eq] at h
  split at h
  · cases h
  · split at h
    · cases h
    · cases h
      rfl

/-- What a tree holds at the paths of some files, none of which lies on the way to
another. -/
def contents (files : Text → Prop)
    (hnames : ∀ p, files p → ∃ segs, AreNames segs ∧ segs ≠ [] ∧ p = ofSegments segs)
    (hapart : ∀ p q, files p → files q → ¬ locate p <+: (locate q).dropLast) :
    FileSystem.Contents fileSystem files where
  seen t p :=
    match t.at? (locate p) with
    | some (.file c) => some c
    | _ => none
  fine t := ∀ p, files p → t.at? (locate p) ≠ some .directory
  has_eq t p hf hp := by
    have hd := hf p hp
    show (Except.ok (t.contains (locate p)),t) = _
    rw [FileTree.at?] at hd
    simp only [FileTree.at?,Table.contains]
    cases hat : Table.get? (locate p) t with
    | none => rfl
    | some e =>
      cases e with
      | directory => exact absurd hat hd
      | file c => rfl
  read_eq t p c _ _ hc := by
    show (match t.at? (locate p) with
      | some (.file c) => pure c
      | some .directory => fail .isDirectory
      | none => fail (notFound (locate p)) : Action FileTree Bytes) t = _
    cases hat : t.at? (locate p) with
    | none => simp [hat] at hc
    | some e =>
      cases e with
      | directory => simp [hat] at hc
      | file c' =>
        obtain rfl : c' = c := by simpa [hat] using hc
        rfl
  makeDir_keeps t t' p hf hp h := by
    obtain ⟨segs,hsegs,hne,rfl⟩ := hnames p hp
    have hparent : locate (Path.parent (ofSegments segs)) = segs.dropLast := by
      obtain ⟨init,last,rfl⟩ : ∃ init last, segs = init ++ [last] :=
        ⟨_,_,(List.dropLast_concat_getLast hne).symm⟩
      have hlast := hsegs last (by simp)
      rw [Path.parent_ofSegments hlast.2.2.2,locate_ofSegments hsegs.of_append.1]
      simp
    have hway : makeWay [] segs.dropLast t = (.ok (),t') := by
      rw [← hparent]
      exact h
    have hkeep : ∀ q, files q → t'.at? (locate q) = t.at? (locate q) := by
      intro q hq
      refine at?_makeWay hway ?_
      have := hapart q _ hq hp
      rwa [locate_ofSegments hsegs] at this
    refine ⟨fun q hq => by rw [hkeep q hq]; exact hf q hq,fun q hq => ?_⟩
    rw [hkeep q hq]
  write_keeps t t' p c hf hp h := by
    have hinj : ∀ q, files q → q ≠ p → locate q ≠ locate p := by
      intro q hq hne he
      obtain ⟨segs,hsegs,-,rfl⟩ := hnames p hp
      obtain ⟨segs',hsegs',-,rfl⟩ := hnames q hq
      rw [locate_ofSegments hsegs,locate_ofSegments hsegs'] at he
      exact hne (he ▸ rfl)
    have ht : t' = t.insert (locate p) (Entry.file c) := eq_of_writeAt h
    have hself : t'.at? (locate p) = some (.file c) := by
      rw [ht]
      exact Table.get?_insert_self _ _ _
    have hkeep : ∀ q, files q → q ≠ p → t'.at? (locate q) = t.at? (locate q) := by
      intro q hq hne
      rw [ht]
      exact Table.get?_insert_of_ne (hinj q hq hne) _ _
    refine ⟨fun q hq => ?_,by rw [hself],fun q hq hne => by rw [hkeep q hq hne]⟩
    by_cases hqp : q = p
    · rw [hqp,hself]
      simp
    · rw [hkeep q hq hqp]
      exact hf q hq

/-! Looking changes nothing, and what is refused leaves the tree as it was. -/

@[simp] theorem read_still (path : Text) (t : FileTree) : (read path t).2 = t := by
  show ((match t.at? (locate path) with
    | some (.file content) => pure content
    | some .directory => fail .isDirectory
    | none => fail (notFound (locate path)) : Action FileTree Bytes) t).2 = t
  rcases t.at? (locate path) with _ | (_ | _) <;> rfl

@[simp] theorem stat_still (path : Text) (t : FileTree) : (stat path t).2 = t := by
  rw [stat,Action.get_bind]
  cases t.at? (locate path) <;> rfl

@[simp] theorem list_still (path : Text) (t : FileTree) : (list path t).2 = t := by
  rw [list,Action.get_bind]
  rcases t.at? (locate path) with _ | (_ | _) <;> rfl

theorem list_ok {path : Text} {t : FileTree} {es : List DirectoryEntry}
    (h : (list path t).1 = .ok es) : es = t.children (locate path) := by
  rw [list,Action.get_bind] at h
  rcases hat : t.at? (locate path) with _ | (_ | _) <;> rw [hat] at h <;> cases h
  rfl

theorem has_still (path : Text) (t : FileTree) : (has path t).2 = t :=
  rfl

theorem writeAt_refused {place : List Text} {c : Bytes} {t : FileTree} {err : Error}
    (h : (writeAt place c t).1 = .error err) : (writeAt place c t).2 = t := by
  rw [writeAt_eq] at h ⊢
  split
  · rfl
  · next h₁ =>
    rw [if_neg h₁] at h
    split
    · rfl
    · next h₂ =>
      rw [if_neg h₂] at h
      cases h

theorem append_eq (path : Text) (c : Bytes) (t : FileTree) :
    append path c t =
      match t.at? (locate path) with
      | some (.file old) => (.ok (),t.insert (locate path) (Entry.file (old ++ c)))
      | some .directory => (.error (.file .isDirectory),t)
      | none => writeAt (locate path) c t := by
  show (match t.at? (locate path) with
    | some (.file old) => set (t.insert (locate path) (Entry.file (old ++ c)))
    | some .directory => fail .isDirectory
    | none => writeAt (locate path) c : Action FileTree Unit) t = _
  rcases t.at? (locate path) with _ | (_ | _) <;> rfl

theorem append_refused {path : Text} {c : Bytes} {t : FileTree} {err : Error}
    (h : (append path c t).1 = .error err) : (append path c t).2 = t := by
  rw [append_eq] at h ⊢
  split
  · next old hat =>
    rw [hat] at h
    cases h
  · rfl
  · next hat =>
    rw [hat] at h
    exact writeAt_refused h

theorem makeDir_eq (path : Text) (t : FileTree) :
    makeDir path false t =
      if lacksParent t (locate path) then (.error (.file .parentNotFound),t)
      else if t.contains (locate path) then (.error (.file .directoryExists),t)
      else (.ok (),t.insert (locate path) Entry.directory) := by
  show (if lacksParent t (locate path) then fail .parentNotFound
    else if t.contains (locate path) then fail .directoryExists
    else set (t.insert (locate path) Entry.directory) : Action FileTree Unit) t = _
  split
  · rfl
  · split <;> rfl

theorem makeDir_refused {path : Text} {t : FileTree} {err : Error}
    (h : (makeDir path false t).1 = .error err) : (makeDir path false t).2 = t := by
  rw [makeDir_eq] at h ⊢
  split
  · rfl
  · next h₁ =>
    rw [if_neg h₁] at h
    split
    · rfl
    · next h₂ =>
      rw [if_neg h₂] at h
      cases h

theorem remove_eq (path : Text) (recursive : Bool) (t : FileTree) :
    remove path recursive t =
      match t.at? (locate path) with
      | some .directory =>
        if !(t.below (locate path)).isEmpty && !recursive then
          (.error (.file .directoryNotEmpty),t)
        else (.ok (),t.prune (locate path))
      | some (.file _) => (.ok (),t.erase (locate path))
      | none => (.error (.file (notFound (locate path))),t) := by
  show (match t.at? (locate path) with
    | some .directory =>
      if !(t.below (locate path)).isEmpty && !recursive then fail .directoryNotEmpty
      else set (t.prune (locate path))
    | some (.file _) => set (t.erase (locate path))
    | none => fail (notFound (locate path)) : Action FileTree Unit) t = _
  rcases t.at? (locate path) with _ | (_ | _)
  · rfl
  · rfl
  · simp only
    split <;> rfl

theorem remove_refused {path : Text} {recursive : Bool} {t : FileTree} {err : Error}
    (h : (remove path recursive t).1 = .error err) : (remove path recursive t).2 = t := by
  rw [remove_eq] at h ⊢
  split
  · next hat =>
    rw [hat] at h
    simp only at h
    split
    · rfl
    · next hn =>
      rw [if_neg hn] at h
      cases h
  · next hat =>
    rw [hat] at h
    cases h
  · rfl

end Realm.Memory
