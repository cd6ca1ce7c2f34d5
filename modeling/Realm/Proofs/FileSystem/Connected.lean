import Realm.Proofs.FileSystem.Calls
import Realm.Proofs.FileSystem.Locality
import Realm.Proofs.Table

/-! The shape of file trees in memory. Every run of calls leaves the places told by names and
in order, each in directories up to the top; and a call that is refused changes nothing, since
what stands in the way of a new way has all of its own directories already. -/
namespace Realm

open Realm.Path (AreNames)

namespace FileTree

variable {t : FileTree} {place names : List Text} {name : Text}

theorem contains_eq (t : FileTree) (place : List Text) : t.contains place = (t.at? place).isSome :=
  rfl

theorem contains_of_isDirectory (h : t.isDirectory place = true) : t.contains place = true := by
  rw [isDirectory,at?,decide_eq_true_eq] at h
  rw [Table.contains,h]
  rfl

theorem contains_of_isFile (h : t.isFile place = true) : t.contains place = true := by
  rw [isFile,at?] at h
  rw [Table.contains]
  cases hat : Table.get? place t with
  | none => simp [hat] at h
  | some e => rfl

theorem isFile_of_isDirectory (h : t.isDirectory place = true) : t.isFile place = false := by
  rw [isDirectory,decide_eq_true_eq] at h
  simp [isFile,h]

@[simp] theorem at?_insert (t : FileTree) (place : List Text) (e : Entry) (q : List Text) :
    FileTree.at? (t.insert place e) q = if q = place then some e else t.at? q :=
  Table.get?_insert q place e t

@[simp] theorem contains_insert (t : FileTree) (place : List Text) (e : Entry) (q : List Text) :
    (t.insert place e).contains q = (decide (q = place) || t.contains q) := by
  rw [Table.contains,Table.get?_insert]
  by_cases h : q = place
  · simp [h]
  · simp [h,Table.contains]

theorem contains_of_children {e : DirectoryEntry} (h : e ∈ t.children place) :
    t.contains (place ++ [e.name]) = true := by
  obtain ⟨⟨p,entry⟩,hp,h⟩ := List.mem_filterMap.1 h
  dsimp only at h
  split at h
  · next name hlast =>
    obtain ⟨above,rfl⟩ := List.getLast?_eq_some_iff.1 hlast
    rw [List.dropLast_concat] at h
    split at h
    · next habove =>
      cases h
      rw [← habove]
      exact Table.contains_of_mem hp
    · cases h
  · cases h

/-- To take away a place and all below it is to keep what does not lie at or below it. -/
theorem prune_eq (place : List Text) (t : FileTree) :
    t.prune place = t.filter fun e => !place.isPrefixOf e.1 := by
  refine List.filter_congr fun e _ => ?_
  by_cases h : e.1 = place
  · simp [h,isAbove]
  · simp [h,isAbove]

def Connected (t : FileTree) : Prop :=
  ∀ {place : List Text} {name : Text}, place ≠ [] → t.contains (place ++ [name]) = true →
    t.isDirectory place = true

theorem Connected.way (h : t.Connected) (hplace : place ≠ []) (hnames : names ≠ [])
    (hc : t.contains (place ++ names) = true) : t.isDirectory place = true := by
  induction names generalizing place with
  | nil => exact absurd rfl hnames
  | cons name names ih =>
    rw [List.append_cons] at hc
    by_cases hlast : names = []
    · subst hlast
      rw [List.append_nil] at hc
      exact h hplace hc
    · exact h hplace (contains_of_isDirectory (ih (by simp) hlast hc))

/-- The order of the places, their spelling, and what they lie in. -/
structure Orderly (t : FileTree) : Prop where
  sorted : t.Sorted
  names : ∀ {place : List Text}, t.contains place = true → AreNames place
  connected : t.Connected

theorem orderly_empty : FileTree.empty.Orderly where
  sorted := List.pairwise_singleton _ _
  names {place} h := by
    by_cases hplace : place = []
    · subst hplace
      exact Path.areNames_nil
    · simp [empty,Table.contains,Table.get?,hplace] at h
  connected {place name} _ h := by simp [empty,Table.contains,Table.get?] at h

namespace Orderly

/-- Something is put into a directory, and nothing lies in what it takes the place of. -/
theorem insert (h : t.Orderly) {e : Entry} (hnames : AreNames place)
    (hparent : ∀ above name, place = above ++ [name] → above ≠ [] → t.isDirectory above = true)
    (hinside : e = .directory ∨ ∀ name, place ≠ [] → t.contains (place ++ [name]) = false) :
    FileTree.Orderly (t.insert place e) where
  sorted := h.sorted.insert place e
  names {q} hq := by
    rw [contains_insert,Bool.or_eq_true,decide_eq_true_eq] at hq
    rcases hq with rfl | hq
    · exact hnames
    · exact h.names hq
  connected {above name} habove hc := by
    rw [contains_insert,Bool.or_eq_true,decide_eq_true_eq] at hc
    rw [isDirectory,at?_insert]
    by_cases hplace : above = place
    · subst hplace
      rcases hinside with rfl | hnone
      · simp
      · rcases hc with hc | hc
        · simp at hc
        · rw [hnone name habove] at hc
          cases hc
    · rw [if_neg hplace]
      rcases hc with hc | hc
      · exact hparent above name hc.symm habove
      · exact h.connected habove hc

theorem filter (h : t.Orderly) (keep : List Text → Bool)
    (hkeep : ∀ place name, place ≠ [] → t.isDirectory place = true → keep (place ++ [name]) = true →
      keep place = true) :
    FileTree.Orderly (t.filter fun e => keep e.1) where
  sorted := h.sorted.filter _
  names {q} hq := by
    refine h.names ?_
    rw [Table.contains,Table.get?_filter] at hq
    split at hq
    · exact hq
    · simp at hq
  connected {above name} habove hc := by
    rw [Table.contains,Table.get?_filter] at hc
    split at hc
    · next hkept =>
      have hdir := h.connected habove hc
      rw [isDirectory,at?,Table.get?_filter,if_pos (hkeep above name habove hdir hkept)]
      exact hdir
    · simp at hc

end Orderly
end FileTree

namespace Memory

open FileTree (Entry Connected Orderly)

variable {t : FileTree} {place names : List Text} {name : Text}

/-- A way that cannot be made is not begun: a file in it has its own directories. -/
theorem makeWay_refused (h : t.Connected) {err : Error}
    (he : (makeWay place names t).1 = .error err) : (makeWay place names t).2 = t := by
  induction names generalizing place with
  | nil => rfl
  | cons name names ih =>
    rw [makeWay_cons] at he ⊢
    cases hat : t.at? (place ++ [name]) with
    | some e =>
      rw [hat] at he
      cases e with
      | directory => exact ih he
      | file c => rfl
    | none =>
      rw [hat] at he
      simp only at he
      rw [(makeWay_spec _ _ _).1,blocked_congr (isFile_insert_directory hat)] at he
      split at he
      · next hblocked =>
        obtain ⟨way,hne,-,hfile⟩ := FileTree.blocked_iff.1 hblocked
        have hdir := h.way (by simp) hne (FileTree.contains_of_isFile hfile)
        simp [FileTree.isDirectory,hat] at hdir
      · cases he

theorem isDirectory_of_parent {above : List Text} (h : lacksParent t place = false)
    (hplace : place = above ++ [name]) : t.isDirectory above = true := by
  subst hplace
  simpa [lacksParent] using h

theorem orderly_makeWay (h : t.Orderly) (hnames : AreNames (place ++ names))
    (hplace : place ≠ [] → t.isDirectory place = true) : ((makeWay place names t).2).Orderly := by
  induction names generalizing place t with
  | nil => exact h
  | cons name names ih =>
    rw [List.append_cons] at hnames
    rw [makeWay_cons]
    cases hat : t.at? (place ++ [name]) with
    | none =>
      have hnew : FileTree.Orderly (t.insert (place ++ [name]) Entry.directory) := by
        refine h.insert hnames.of_append.1 (fun above x hx habove => ?_) (.inl rfl)
        obtain ⟨rfl,-⟩ := List.append_inj' hx rfl
        exact hplace habove
      refine ih hnew hnames fun _ => ?_
      simp [FileTree.isDirectory]
    | some e =>
      cases e with
      | directory => exact ih h hnames fun _ => by simp [FileTree.isDirectory,hat]
      | file c => exact h

theorem contains_inside (h : t.Connected) (hdir : t.isDirectory place = false) (x : Text)
    (hplace : place ≠ []) : t.contains (place ++ [x]) = false := by
  refine Bool.eq_false_iff.2 fun hc => ?_
  exact Bool.false_ne_true (hdir.symm.trans (h hplace hc))

theorem orderly_writeAt (h : t.Orderly) (hnames : AreNames place) (c : Bytes) :
    ((writeAt place c t).2).Orderly := by
  rw [writeAt_eq]
  split
  · exact h
  · next hparent =>
    split
    · exact h
    · next hdir =>
      rw [Bool.not_eq_true] at hparent hdir
      exact h.insert hnames (fun _ _ hx _ => isDirectory_of_parent hparent hx)
        (.inr (contains_inside h.connected hdir))

theorem areNames_locate (path : Text) : AreNames (locate path) := by
  rw [locate_eq_segments]
  exact Path.areNames_segments path

theorem orderly_append (h : t.Orderly) (path : Text) (c : Bytes) :
    ((append path c t).2).Orderly := by
  rw [append_eq]
  split
  · next old hat =>
    have hdir : t.isDirectory (locate path) = false := by simp [FileTree.isDirectory,hat]
    have hfile : t.contains (locate path) = true :=
      FileTree.contains_of_isFile (by simp [FileTree.isFile,hat])
    refine h.insert (areNames_locate path) (fun above x hx habove => ?_)
      (.inr (contains_inside h.connected hdir))
    exact h.connected habove (hx ▸ hfile)
  · exact h
  · exact orderly_writeAt h (areNames_locate path) c

theorem orderly_makeDir (h : t.Orderly) (path : Text) (recursive : Bool) :
    ((makeDir path recursive t).2).Orderly := by
  cases recursive with
  | true => exact orderly_makeWay h (areNames_locate path) fun hne => absurd rfl hne
  | false =>
    rw [makeDir_eq]
    split
    · exact h
    · next hparent =>
      split
      · exact h
      · rw [Bool.not_eq_true] at hparent
        exact h.insert (areNames_locate path) (fun _ _ hx _ => isDirectory_of_parent hparent hx)
          (.inl rfl)

theorem orderly_remove (h : t.Orderly) (path : Text) (recursive : Bool) :
    ((remove path recursive t).2).Orderly := by
  rw [remove_eq]
  split
  · split
    · exact h
    · rw [FileTree.prune_eq]
      refine h.filter (fun q => !(locate path).isPrefixOf q) fun above x _ _ hkeep => ?_
      rw [Bool.not_eq_true',Bool.eq_false_iff,ne_eq,List.isPrefixOf_iff_prefix] at hkeep ⊢
      exact fun hpre => hkeep (hpre.trans (List.prefix_append _ _))
  · next hat =>
    refine h.filter (fun q => q ≠ locate path) fun above x _ hdir hkeep => ?_
    rw [decide_eq_true_eq]
    rintro rfl
    simp [FileTree.isDirectory,hat] at hdir
  · exact h

/-- Whatever is called, the tree stays in order. -/
theorem orderly_call (h : t.Orderly) (call : FileSystem.Call) :
    ((call.run fileSystem t).2).Orderly := by
  rw [FileSystem.Call.run_eq]
  cases call with
  | read path => exact (read_still path t).symm ▸ h
  | write path c => exact orderly_writeAt h (areNames_locate path) c
  | append path c => exact orderly_append h path c
  | makeDir path recursive => exact orderly_makeDir h path recursive
  | remove path recursive => exact orderly_remove h path recursive
  | stat path => exact (stat_still path t).symm ▸ h
  | list path => exact (list_still path t).symm ▸ h
  | has path => exact h

theorem orderly_run (h : t.Orderly) (calls : List FileSystem.Call) :
    ((fileSystem.run calls t).2).Orderly := by
  induction calls generalizing t with
  | nil => exact h
  | cons call calls ih => exact ih (orderly_call h call)

theorem call_refused (h : t.Connected) {call : FileSystem.Call} {err : Error}
    (he : (call.run fileSystem t).1 = .error err) : (call.run fileSystem t).2 = t := by
  have hmap : ∀ {α : Type} {r : Except Error α} {f : α → FileReply}, r.map f = .error err →
      r = .error err := by
    intro α r f hr
    cases r with
    | error e => exact congrArg _ (Except.error.inj hr)
    | ok a => cases hr
  rw [FileSystem.Call.run_eq] at he ⊢
  cases call with
  | read path => exact read_still path t
  | write path c => exact writeAt_refused (hmap he)
  | append path c => exact append_refused (hmap he)
  | makeDir path recursive =>
    cases recursive with
    | true => exact makeWay_refused h (hmap he)
    | false => exact makeDir_refused (hmap he)
  | remove path recursive => exact remove_refused (hmap he)
  | stat path => exact stat_still path t
  | list path => exact list_still path t
  | has path => rfl

/-- File trees in memory are trees, and no call is carried out by halves. After any run of calls
each place is told by names, so that it is written as a normal path, and held once; whatever lies
above it, the top left out, is a directory; and a further call that is refused leaves the places
and what they hold as they were. -/
theorem run_connected (calls : List FileSystem.Call) (call : FileSystem.Call) :
    let t := (fileSystem.run calls FileTree.empty).2
    t.Sorted ∧
      (∀ place ∈ t.keys, AreNames place ∧
        ∀ way, way ≠ [] → way <+: place → way ≠ place → t.at? way = some .directory) ∧
      ∀ err, (call.run fileSystem t).1 = .error err → (call.run fileSystem t).2 = t := by
  intro t
  have h : t.Orderly := orderly_run FileTree.orderly_empty calls
  refine ⟨h.sorted,fun place hplace => ?_,fun err he => call_refused h.connected he⟩
  obtain ⟨e,he,rfl⟩ := List.mem_map.1 hplace
  have hc : t.contains e.1 = true := Table.contains_of_mem he
  refine ⟨h.names hc,?_⟩
  rintro way hway ⟨names,hnames⟩ hne
  have hbelow : names ≠ [] := by
    rintro rfl
    exact hne (by simpa using hnames)
  rw [← hnames] at hc
  simpa [FileTree.isDirectory] using Connected.way h.connected hway hbelow hc

end Memory
end Realm
