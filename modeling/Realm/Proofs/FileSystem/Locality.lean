import Realm.Proofs.FileSystem.Memory

/-! File systems on which the files of different directories keep out of each other's way. What
can be seen and stored from a directory on is the same in two states that agree there, and to
store a file for one directory does not concern directories that lie neither above nor below. -/
namespace Realm

open Realm.Path (AreNames)

namespace FileSystem

variable {σ : Type}

/-- Store a file, making the directories above it as far as they are missing. -/
def store (fs : FileSystem σ) (path : Text) (content : Bytes) : Action σ Unit := do
  fs.makeDir (Path.parent path) true
  fs.write path content

/-- A file system on which each directory has one file. -/
structure Locality (fs : FileSystem σ) (file : List Text → Text) where
  /-- Two states cannot be told apart by the files of a directory and those below it. -/
  agree : List Text → σ → σ → Prop
  symm : ∀ {dir w w'}, agree dir w w' → agree dir w' w
  trans : ∀ {dir w w' w''}, agree dir w w' → agree dir w' w'' → agree dir w w''
  below : ∀ {dir w w'} (names), agree dir w w' → agree (dir ++ names) w w'
  has_eq : ∀ {dir w w'}, AreNames dir → agree dir w w' →
    (fs.has (file dir) w).1 = (fs.has (file dir) w').1
  has_still : ∀ (dir) {dir' w}, agree dir' w w → agree dir' (fs.has (file dir) w).2 w
  read_eq : ∀ {dir w w'}, AreNames dir → agree dir w w' →
    (fs.read (file dir) w).1 = (fs.read (file dir) w').1
  read_still : ∀ (dir) {dir' w}, agree dir' w w → agree dir' (fs.read (file dir) w).2 w
  store_eq : ∀ (dir names c) {w w'}, AreNames (dir ++ names) → agree dir w w' →
    (fs.store (file (dir ++ names)) c w).1 = (fs.store (file (dir ++ names)) c w').1 ∧
      agree dir (fs.store (file (dir ++ names)) c w).2 (fs.store (file (dir ++ names)) c w').2
  store_apart : ∀ {dir dir' c w}, AreNames dir → ¬ dir <+: dir' → ¬ dir' <+: dir →
    agree dir' w w → agree dir' (fs.store (file dir) c w).2 w
  /-- A file that is refused leaves its directory alone. -/
  store_refused : ∀ {dir c w err}, AreNames dir → agree dir w w →
    (fs.store (file dir) c w).1 = .error err → agree dir (fs.store (file dir) c w).2 w
  has_stored : ∀ {dir c w}, AreNames dir → agree dir w w →
    (fs.store (file dir) c w).1 = .ok () → (fs.has (file dir) (fs.store (file dir) c w).2).1 = .ok true
  /-- No file is lost by storing another, and whether there is one can be told as before. -/
  has_kept : ∀ {dir dir' c w}, AreNames dir → AreNames dir' → agree [] w w →
    (fs.has (file dir) w).1 = .ok true → (fs.has (file dir) (fs.store (file dir') c w).2).1 = .ok true
  has_before : ∀ {dir dir' c w}, AreNames dir → AreNames dir' → agree [] w w →
    (fs.has (file dir) (fs.store (file dir') c w).2).1 = .ok false → (fs.has (file dir) w).1 = .ok false

/-- Where nothing can be stored, and looking changes nothing, nothing ever changes. -/
def Locality.ofReadOnly {fs : FileSystem σ} {file : List Text → Text}
    (hhas : ∀ p w, (fs.has p w).2 = w) (hread : ∀ p w, (fs.read p w).2 = w)
    (hstore : ∀ p c w, ∃ err, fs.store p c w = (.error err,w)) : Locality fs file where
  agree _ w w' := w = w'
  symm h := h.symm
  trans h h' := h.trans h'
  below _ h := h
  has_eq _ h := by rw [h]
  has_still _ _ _ _ := hhas _ _
  read_eq _ h := by rw [h]
  read_still _ _ _ _ := hread _ _
  store_eq _ _ _ _ _ _ h := by
    rw [h]
    exact ⟨rfl,rfl⟩
  store_apart {dir dir' c w} _ _ _ _ := by
    obtain ⟨err,h⟩ := hstore (file dir) c w
    rw [h]
  store_refused {dir c w err} _ _ _ := by
    obtain ⟨err,h⟩ := hstore (file dir) c w
    rw [h]
  has_stored {dir c w} _ _ hok := by
    obtain ⟨err,h⟩ := hstore (file dir) c w
    rw [h] at hok
    cases hok
  has_kept {dir dir' c w} _ _ _ hhad := by
    obtain ⟨err,h⟩ := hstore (file dir') c w
    rwa [h]
  has_before {dir dir' c w} _ _ _ hlacks := by
    obtain ⟨err,h⟩ := hstore (file dir') c w
    rwa [h] at hlacks

namespace Locality

variable {fs : FileSystem σ} {file : List Text → Text} (L : Locality fs file)
  {dir dir' : List Text} {w w' w'' : σ}

/-- To store the file of a directory does not concern the directories below it either, but for
those that would have to lie behind the file, whose name is given. -/
def Layered (name : Text) : Prop :=
  ∀ {dir dir' c w}, AreNames dir → ¬ dir ++ [name] <+: dir' → ¬ dir' <+: dir →
    L.agree dir' w w → L.agree dir' (fs.store (file dir) c w).2 w

theorem ofReadOnly_layered {fs : FileSystem σ} {file : List Text → Text}
    {hhas : ∀ p w, (fs.has p w).2 = w} {hread : ∀ p w, (fs.read p w).2 = w}
    {hstore : ∀ p c w, ∃ err, fs.store p c w = (.error err,w)} (name : Text) :
    (ofReadOnly hhas hread hstore : Locality fs file).Layered name := by
  intro dir dir' c w _ _ _ _
  obtain ⟨err,h⟩ := hstore (file dir) c w
  exact congrArg Prod.snd h

/-- What has become of a state after steps at a directory. -/
structure Outcome (dir : List Text) (w w' : σ) : Prop where
  fine : L.agree [] w' w'
  /-- Directories that lie neither above nor below look as they did. -/
  apart : ∀ dir', ¬ dir <+: dir' → ¬ dir' <+: dir → L.agree dir' w' w
  kept : ∀ dir', AreNames dir' →
    (fs.has (file dir') w).1 = .ok true → (fs.has (file dir') w').1 = .ok true
  before : ∀ dir', AreNames dir' →
    (fs.has (file dir') w').1 = .ok false → (fs.has (file dir') w).1 = .ok false

/-- Steps at a directory, begun in a state that agrees with itself. -/
def Within (dir : List Text) (w w' : σ) : Prop :=
  L.agree [] w w → L.Outcome dir w w'

variable {L}

theorem fine_below (h : L.agree [] w w) (dir : List Text) : L.agree dir w w :=
  L.below dir h

theorem within_of_still (h : ∀ dir', L.agree dir' w w → L.agree dir' w' w) :
    L.Within dir w w' := by
  intro hfine
  have hagree : ∀ dir', L.agree dir' w' w := fun dir' => h dir' (fine_below hfine dir')
  refine ⟨L.trans (hagree []) (L.symm (hagree [])),fun dir' _ _ => hagree dir',?_,?_⟩
  · exact fun dir' hdir' htrue => (L.has_eq hdir' (hagree dir')).trans htrue
  · exact fun dir' hdir' hfalse => (L.has_eq hdir' (hagree dir')).symm.trans hfalse

theorem Within.refl (dir : List Text) (w : σ) : L.Within dir w w :=
  within_of_still fun _ h => h

theorem Within.trans (h : L.Within dir w w') (h' : L.Within dir w' w'') : L.Within dir w w'' := by
  intro hfine
  have h := h hfine
  have h' := h' h.fine
  refine ⟨h'.fine,fun dir' hd hd' => L.trans (h'.apart dir' hd hd') (h.apart dir' hd hd'),?_,?_⟩
  · exact fun dir' hdir' htrue => h'.kept dir' hdir' (h.kept dir' hdir' htrue)
  · exact fun dir' hdir' hfalse => h.before dir' hdir' (h'.before dir' hdir' hfalse)

theorem Within.above (names : List Text) (h : L.Within (dir ++ names) w w') :
    L.Within dir w w' := by
  intro hfine
  have h := h hfine
  refine ⟨h.fine,fun dir' hd hd' => h.apart dir' (fun hpre => ?_) (fun hpre => ?_),h.kept,h.before⟩
  · exact hd ((List.prefix_append dir names).trans hpre)
  · rcases List.prefix_or_prefix_of_prefix hpre (List.prefix_append dir names) with hle | hle
    · exact hd' hle
    · exact hd hle

theorem Outcome.beside {name name' : Text} (h : L.Outcome (dir ++ [name]) w w')
    (hne : name' ≠ name) : L.agree (dir ++ [name']) w' w := by
  refine h.apart _ (fun hpre => hne ?_) (fun hpre => hne ?_)
  · rw [List.prefix_append_right_inj,List.cons_prefix_cons] at hpre
    exact hpre.1.symm
  · rw [List.prefix_append_right_inj,List.cons_prefix_cons] at hpre
    exact hpre.1

theorem within_store (hdir : AreNames dir) (c : Bytes) (w : σ) :
    L.Within dir w (fs.store (file dir) c w).2 := by
  intro hfine
  refine ⟨?_,fun dir' hd hd' => ?_,fun dir' hdir' => ?_,fun dir' hdir' => ?_⟩
  · exact (L.store_eq [] dir c hdir hfine).2
  · exact L.store_apart hdir hd hd' (fine_below hfine dir')
  · exact L.has_kept hdir' hdir hfine
  · exact L.has_before hdir' hdir hfine

end Locality

end FileSystem

/-! File systems in memory. -/

namespace FileTree

def isFile (t : FileTree) (place : List Text) : Bool :=
  match t.at? place with
  | some (.file _) => true
  | _ => false

/-- Whether a file stands in the way from a place down through some names. -/
def blocked (t : FileTree) (place : List Text) : List Text → Bool
  | [] => false
  | name :: names => t.isFile (place ++ [name]) || t.blocked (place ++ [name]) names

theorem blocked_iff {t : FileTree} {place names : List Text} :
    t.blocked place names = true ↔
      ∃ way, way ≠ [] ∧ way <+: names ∧ t.isFile (place ++ way) = true := by
  induction names generalizing place with
  | nil =>
    constructor
    · intro h
      simp [blocked] at h
    · rintro ⟨way,hne,hpre,-⟩
      exact absurd (List.prefix_nil.1 hpre) hne
  | cons name names ih =>
    simp only [blocked,Bool.or_eq_true,ih]
    constructor
    · rintro (h | ⟨way,-,hpre,h⟩)
      · exact ⟨[name],by simp,by simp,h⟩
      · have hfile : t.isFile (place ++ name :: way) = true := by simpa using h
        exact ⟨name :: way,by simp,by simpa using hpre,hfile⟩
    · rintro ⟨way,hne,hpre,h⟩
      cases way with
      | nil => exact absurd rfl hne
      | cons x way =>
        obtain rfl : x = name := (List.cons_prefix_cons.1 hpre).1
        by_cases hway : way = []
        · subst hway
          exact .inl h
        · have hfile : t.isFile (place ++ [x] ++ way) = true := by simpa using h
          exact .inr ⟨way,hway,by simpa using hpre,hfile⟩

/-- No file of a directory has to do with what lies at or below another, unless that lies at or
above the directory or behind its file. -/
theorem files_apart {dir dir' : List Text} {name : Text} (h : ¬ dir ++ [name] <+: dir')
    (h' : ¬ dir' <+: dir) (root names : List Text) :
    ¬ root ++ dir ++ [name] <+: root ++ (dir' ++ names) ∧
      ¬ root ++ (dir' ++ names) ++ [name] <+: root ++ dir ∧
      root ++ (dir' ++ names) ++ [name] ≠ root ++ dir ++ [name] := by
  refine ⟨fun hpre => ?_,fun hpre => ?_,fun he => ?_⟩
  · rw [List.append_assoc,List.prefix_append_right_inj] at hpre
    rcases List.prefix_or_prefix_of_prefix hpre (List.prefix_append dir' names) with hd | hd
    · exact h hd
    · rcases List.prefix_concat_iff.1 hd with rfl | hd
      · exact h (List.prefix_refl _)
      · exact h' hd
  · rw [List.append_assoc,List.prefix_append_right_inj] at hpre
    exact h' ((List.prefix_append _ _).trans ((List.prefix_append _ _).trans hpre))
  · rw [List.append_cancel_right_eq,List.append_cancel_left_eq] at he
    exact h' (he ▸ List.prefix_append dir' names)

/-- A new file stands in the way of all places from its own on, and nothing else does that did
not before. -/
theorem blocked_of_isFile {t t' : FileTree} {new : Prop} [Decidable new] {p : List Text} (hp : p ≠ [])
    (h : ∀ q, t'.isFile q = (t.isFile q || decide (new ∧ q = p))) (q : List Text) :
    t'.blocked [] q = (t.blocked [] q || decide (new ∧ p <+: q)) := by
  rw [Bool.eq_iff_iff]
  simp only [Bool.or_eq_true,decide_eq_true_eq,blocked_iff,List.nil_append,h]
  constructor
  · rintro ⟨way,hne,hpre,h | ⟨hnew,rfl⟩⟩
    · exact .inl ⟨way,hne,hpre,h⟩
    · exact .inr ⟨hnew,hpre⟩
  · rintro (⟨way,hne,hpre,h⟩ | ⟨hnew,hpre⟩)
    · exact ⟨way,hne,hpre,.inl h⟩
    · exact ⟨p,hp,hpre,.inr ⟨hnew,rfl⟩⟩

end FileTree

namespace Memory

open FileTree (Entry blocked_iff)

theorem makeWay_cons (place names : List Text) (name : Text) (t : FileTree) :
    makeWay place (name :: names) t =
      match t.at? (place ++ [name]) with
      | some .directory => makeWay (place ++ [name]) names t
      | some (.file _) => (.error (.file .notDirectory),t)
      | none => makeWay (place ++ [name]) names (t.insert (place ++ [name]) Entry.directory) := by
  rw [makeWay,Action.get_bind]
  rcases t.at? (place ++ [name]) with _ | (_ | _) <;> rfl

theorem isFile_insert_directory {t : FileTree} {place : List Text} (h : t.at? place = none)
    (q : List Text) : FileTree.isFile (t.insert place Entry.directory) q = t.isFile q := by
  by_cases hq : q = place
  · subst hq
    have hnew : FileTree.at? (t.insert q Entry.directory) q = some .directory :=
      Table.get?_insert_self _ _ _
    simp [FileTree.isFile,hnew,h]
  · have hold : FileTree.at? (t.insert place Entry.directory) q = t.at? q :=
      Table.get?_insert_of_ne hq _ _
    simp [FileTree.isFile,hold]

theorem blocked_congr {t t' : FileTree} (h : ∀ q, t'.isFile q = t.isFile q)
    (place names : List Text) : t'.blocked place names = t.blocked place names := by
  induction names generalizing place with
  | nil => rfl
  | cons name names ih => simp [FileTree.blocked,h,ih]

/-- A way is made unless a file stands in it, and neither makes files nor removes any. -/
theorem makeWay_spec (place names : List Text) (t : FileTree) :
    (makeWay place names t).1 =
        (if t.blocked place names then .error (.file .notDirectory) else .ok ()) ∧
      ∀ q, (makeWay place names t).2.isFile q = t.isFile q := by
  induction names generalizing place t with
  | nil => exact ⟨rfl,fun _ => rfl⟩
  | cons name names ih =>
    rw [makeWay_cons,FileTree.blocked]
    cases hat : t.at? (place ++ [name]) with
    | none =>
      have hfile := isFile_insert_directory hat
      obtain ⟨hresult,hfiles⟩ := ih (place ++ [name]) (t.insert (place ++ [name]) Entry.directory)
      have hclear : t.isFile (place ++ [name]) = false := by simp [FileTree.isFile,hat]
      refine ⟨?_,fun q => (hfiles q).trans (hfile q)⟩
      rw [hresult,blocked_congr hfile,hclear,Bool.false_or]
    | some e =>
      cases e with
      | directory =>
        have hclear : t.isFile (place ++ [name]) = false := by simp [FileTree.isFile,hat]
        simpa [hclear] using ih (place ++ [name]) t
      | file c =>
        have hclosed : t.isFile (place ++ [name]) = true := by simp [FileTree.isFile,hat]
        simp [hclosed]

theorem at?_makeWay_unmade {place names q : List Text} {t : FileTree}
    (h : ∀ way, way ≠ [] → way <+: names → q = place ++ way → t.blocked place way = true) :
    (makeWay place names t).2.at? q = t.at? q := by
  induction names generalizing place t with
  | nil => rfl
  | cons name names ih =>
    have hrest : t.isFile (place ++ [name]) = false → ∀ t₁ : FileTree,
        (∀ q, t₁.isFile q = t.isFile q) →
        (makeWay (place ++ [name]) names t₁).2.at? q = t₁.at? q := by
      intro hclear t₁ hfiles
      refine ih fun way hne hpre hq => ?_
      have hblocked := h (name :: way) (by simp) (by simpa using hpre) (by simpa using hq)
      rw [FileTree.blocked,hclear,Bool.false_or] at hblocked
      rwa [blocked_congr hfiles]
    rw [makeWay_cons]
    cases hat : t.at? (place ++ [name]) with
    | none =>
      have hclear : t.isFile (place ++ [name]) = false := by simp [FileTree.isFile,hat]
      have hq : q ≠ place ++ [name] := by
        intro hq
        have hblocked := h [name] (by simp) (by simp) hq
        simp [FileTree.blocked,hclear] at hblocked
      have hold : FileTree.at? (t.insert (place ++ [name]) Entry.directory) q = t.at? q :=
        Table.get?_insert_of_ne hq _ _
      exact (hrest hclear _ (isFile_insert_directory hat)).trans hold
    | some e =>
      cases e with
      | directory =>
        have hclear : t.isFile (place ++ [name]) = false := by simp [FileTree.isFile,hat]
        exact hrest hclear t fun _ => rfl
      | file c => rfl

theorem at?_makeWay_made {place names way : List Text} {t : FileTree} (hne : way ≠ [])
    (hpre : way <+: names) (hclear : t.blocked place way = false) :
    (makeWay place names t).2.at? (place ++ way) = some .directory := by
  induction names generalizing place way t with
  | nil => exact absurd (List.prefix_nil.1 hpre) hne
  | cons name names ih =>
    obtain ⟨x,way,rfl⟩ := List.exists_cons_of_ne_nil hne
    obtain rfl : x = name := (List.cons_prefix_cons.1 hpre).1
    have hpre : way <+: names := by simpa using hpre
    rw [FileTree.blocked,Bool.or_eq_false_iff] at hclear
    obtain ⟨hfree,hclear⟩ := hclear
    have hrest : ∀ t₁ : FileTree, t₁.at? (place ++ [x]) = some .directory →
        (∀ q, t₁.isFile q = t.isFile q) →
        (makeWay (place ++ [x]) names t₁).2.at? (place ++ x :: way) = some .directory := by
      intro t₁ hfirst hfiles
      by_cases hway : way = []
      · subst hway
        rwa [at?_makeWay_unmade]
        intro way hne _ hq
        simp [hne] at hq
      · have hlast := ih hway hpre ((blocked_congr hfiles _ _).trans hclear)
        simpa using hlast
    rw [makeWay_cons]
    cases hat : t.at? (place ++ [x]) with
    | none => exact hrest _ (Table.get?_insert_self _ _ _) (isFile_insert_directory hat)
    | some e =>
      cases e with
      | directory => exact hrest t hat fun _ => rfl
      | file c => simp [FileTree.isFile,hat] at hfree

/-- What keeps a file of some name from being stored in the directory of a place. -/
def refusal? (t : FileTree) (place : List Text) (name : Text) : Option FileError :=
  if t.blocked [] place then some .notDirectory
  else if place = [] ∧ t.isDirectory [] = false then some .parentNotFound
  else if t.isDirectory (place ++ [name]) then some .isDirectory
  else none

/-- A file is stored in one go, or refused after the way to it has been made. -/
theorem store_eq {path : Text} {place : List Text} {name : Text}
    (hfile : locate path = place ++ [name]) (hparent : locate (Path.parent path) = place)
    (c : Bytes) (t : FileTree) :
    fileSystem.store path c t =
      match refusal? t place name with
      | some err => (.error (.file err),(makeWay [] place t).2)
      | none => (.ok (),(makeWay [] place t).2.insert (place ++ [name]) (Entry.file c)) := by
  have hmake : fileSystem.makeDir (Path.parent path) true t = makeWay [] place t := by
    rw [← hparent]
    rfl
  have hwrite : ∀ t₁, fileSystem.write path c t₁ = writeAt (place ++ [name]) c t₁ := by
    intro t₁
    rw [← hfile]
    rfl
  obtain ⟨hresult,-⟩ := makeWay_spec [] place t
  have hsame : (makeWay [] place t).2.at? (place ++ [name]) = t.at? (place ++ [name]) := by
    refine at?_makeWay_unmade fun way _ hpre hq => ?_
    have hlen := hpre.length_le
    rw [List.nil_append] at hq
    rw [← hq,List.length_append,List.length_singleton] at hlen
    omega
  rw [FileSystem.store,Action.bind_eq,hmake]
  rcases hway : makeWay [] place t with ⟨r,t₁⟩
  rw [hway] at hresult hsame
  cases hblocked : t.blocked [] place with
  | true =>
    obtain rfl : r = .error (.file .notDirectory) := by simpa [hblocked] using hresult
    simp [refusal?,hblocked]
  | false =>
    obtain rfl : r = .ok () := by simpa [hblocked] using hresult
    simp only [hwrite,writeAt_eq]
    have hparent : lacksParent t₁ (place ++ [name]) =
        decide (place = [] ∧ t.isDirectory [] = false) := by
      by_cases hplace : place = []
      · subst hplace
        obtain rfl : t₁ = t := (congrArg Prod.snd hway).symm
        simp [lacksParent]
      · have hmade := at?_makeWay_made hplace (List.prefix_refl place) hblocked
        rw [hway] at hmade
        simp [lacksParent,FileTree.isDirectory,hplace] at hmade ⊢
        exact hmade
    have hdir : t₁.isDirectory (place ++ [name]) = t.isDirectory (place ++ [name]) := by
      simp [FileTree.isDirectory,hsame]
    rw [hparent,hdir,refusal?,hblocked]
    by_cases htop : place = [] ∧ t.isDirectory [] = false
    · simp [htop]
    · by_cases hd : t.isDirectory (place ++ [name])
      · simp [htop,hd]
      · simp [htop,hd]

section Stored

variable {path : Text} {place : List Text} {name : Text}
  (hfile : locate path = place ++ [name]) (hparent : locate (Path.parent path) = place)

include hfile hparent

theorem at?_store (c : Bytes) (t : FileTree) (q : List Text) :
    (fileSystem.store path c t).2.at? q =
      if refusal? t place name = none ∧ q = place ++ [name] then some (.file c)
      else if q ≠ [] ∧ q <+: place ∧ t.blocked [] q = false then some .directory
      else t.at? q := by
  have hway : (makeWay [] place t).2.at? q =
      if q ≠ [] ∧ q <+: place ∧ t.blocked [] q = false then some .directory else t.at? q := by
    by_cases hq : q ≠ [] ∧ q <+: place ∧ t.blocked [] q = false
    · rw [if_pos hq]
      exact at?_makeWay_made hq.1 hq.2.1 hq.2.2
    · rw [if_neg hq]
      refine at?_makeWay_unmade fun way hne hpre hway => ?_
      obtain rfl : q = way := hway
      cases hclear : t.blocked [] q with
      | true => rfl
      | false => exact absurd ⟨hne,hpre,hclear⟩ hq
  rw [store_eq hfile hparent]
  cases hrefusal : refusal? t place name with
  | some err => simpa using hway
  | none =>
    by_cases hq : q = place ++ [name]
    · subst hq
      have hnew : FileTree.at? ((makeWay [] place t).2.insert (place ++ [name]) (Entry.file c))
          (place ++ [name]) = some (.file c) := Table.get?_insert_self _ _ _
      simp [hnew]
    · have hold : FileTree.at? ((makeWay [] place t).2.insert (place ++ [name]) (Entry.file c)) q =
          (makeWay [] place t).2.at? q := Table.get?_insert_of_ne hq _ _
      simp [hold,hq,hway]

theorem isFile_store (c : Bytes) (t : FileTree) (q : List Text) :
    (fileSystem.store path c t).2.isFile q =
      (t.isFile q || decide (refusal? t place name = none ∧ q = place ++ [name])) := by
  rw [FileTree.isFile,at?_store hfile hparent]
  by_cases hnew : refusal? t place name = none ∧ q = place ++ [name]
  · simp [hnew]
  · by_cases hway : q ≠ [] ∧ q <+: place ∧ t.blocked [] q = false
    · have hclear : t.isFile q = false := by
        refine Bool.eq_false_iff.2 fun hq => ?_
        have hblocked : t.blocked [] q = true := blocked_iff.2 ⟨q,hway.1,List.prefix_refl q,hq⟩
        simp [hway.2.2] at hblocked
      simp [hnew,hway,hclear]
    · simp [hnew,hway,FileTree.isFile]

/-- A stored file stands in the way of all places below it, and nothing else does that did
not before. -/
theorem blocked_store (c : Bytes) (t : FileTree) (q : List Text) :
    (fileSystem.store path c t).2.blocked [] q =
      (t.blocked [] q || decide (refusal? t place name = none ∧ place ++ [name] <+: q)) :=
  FileTree.blocked_of_isFile (by simp) (isFile_store hfile hparent c t) q

end Stored

/-! Trees that agree from a directory on. -/

/-- Two trees in which the files of a directory and of those below it are the same, and can be
reached or not. The directories stand below `root`, and their files have one name. -/
structure Agree (root : List Text) (name : Text) (dir : List Text) (t t' : FileTree) : Prop where
  files : ∀ names, t.at? (root ++ (dir ++ names) ++ [name]) = t'.at? (root ++ (dir ++ names) ++ [name])
  ways : ∀ names, t.blocked [] (root ++ (dir ++ names)) = t'.blocked [] (root ++ (dir ++ names))
  top : t.isDirectory [] = t'.isDirectory []

namespace Agree

variable {root dir dir' : List Text} {name : Text} {t t' t'' : FileTree}

theorem refl (root : List Text) (name : Text) (dir : List Text) (t : FileTree) :
    Agree root name dir t t :=
  ⟨fun _ => rfl,fun _ => rfl,rfl⟩

theorem refusal?_eq (h : Agree root name dir t t') (names : List Text) :
    refusal? t (root ++ (dir ++ names)) name = refusal? t' (root ++ (dir ++ names)) name := by
  have hfile : t.isDirectory (root ++ (dir ++ names) ++ [name]) =
      t'.isDirectory (root ++ (dir ++ names) ++ [name]) := by
    simp only [FileTree.isDirectory,h.files]
  simp only [refusal?,h.ways,h.top,hfile]

end Agree

section Local

variable {file : List Text → Text} {root dir : List Text} {name : Text}
  (hfile : ∀ dir, AreNames dir → locate (file dir) = root ++ dir ++ [name])
  (hparent : ∀ dir, AreNames dir → locate (Path.parent (file dir)) = root ++ dir)

include hfile hparent

theorem isDirectory_top_store (hdir : AreNames dir) (c : Bytes) (t : FileTree) :
    (fileSystem.store (file dir) c t).2.isDirectory [] = t.isDirectory [] := by
  simp [FileTree.isDirectory,at?_store (hfile dir hdir) (hparent dir hdir)]

theorem Agree.store {names : List Text} {t t' : FileTree} (h : Agree root name dir t t')
    (hnames : AreNames (dir ++ names)) (c : Bytes) :
    (fileSystem.store (file (dir ++ names)) c t).1 = (fileSystem.store (file (dir ++ names)) c t').1 ∧
      Agree root name dir (fileSystem.store (file (dir ++ names)) c t).2
        (fileSystem.store (file (dir ++ names)) c t').2 := by
  have hf := hfile _ hnames
  have hp := hparent _ hnames
  have hrefusal := h.refusal?_eq names
  refine ⟨?_,?_,?_,?_⟩
  · rw [store_eq hf hp,store_eq hf hp,hrefusal]
    cases refusal? t' (root ++ (dir ++ names)) name <;> rfl
  · intro names'
    have hway : t.blocked [] (root ++ (dir ++ names') ++ [name]) =
        t'.blocked [] (root ++ (dir ++ names') ++ [name]) := by
      simpa using h.ways (names' ++ [name])
    rw [at?_store hf hp,at?_store hf hp,hrefusal,hway,h.files]
  · intro names'
    rw [blocked_store hf hp,blocked_store hf hp,hrefusal,h.ways]
  · rw [isDirectory_top_store hfile hparent hnames,isDirectory_top_store hfile hparent hnames,h.top]

/-- To store a file makes no difference to directories that lie neither at or above its own nor
behind it. -/
theorem agree_store_apart {dir' : List Text} (hdir : AreNames dir) (h : ¬ dir ++ [name] <+: dir')
    (h' : ¬ dir' <+: dir) (c : Bytes) (t : FileTree) :
    Agree root name dir' (fileSystem.store (file dir) c t).2 t := by
  have hf := hfile dir hdir
  have hp := hparent dir hdir
  refine ⟨fun names => ?_,fun names => ?_,isDirectory_top_store hfile hparent hdir c t⟩
  · obtain ⟨-,habove,hne⟩ := FileTree.files_apart h h' root names
    rw [at?_store hf hp,if_neg fun hn => hne hn.2,if_neg fun hn => habove hn.2.1]
  · obtain ⟨hbelow,-⟩ := FileTree.files_apart h h' root names
    rw [blocked_store hf hp,decide_eq_false fun hn => hbelow hn.2,Bool.or_false]

theorem agree_store_refused (hdir : AreNames dir) {c : Bytes} {t : FileTree} {err : Error}
    (h : (fileSystem.store (file dir) c t).1 = .error err) :
    Agree root name dir (fileSystem.store (file dir) c t).2 t := by
  have hf := hfile dir hdir
  have hp := hparent dir hdir
  have hrefusal : refusal? t (root ++ dir) name ≠ none := by
    intro hnone
    rw [store_eq hf hp,hnone] at h
    cases h
  refine ⟨fun names => ?_,fun names => ?_,isDirectory_top_store hfile hparent hdir c t⟩
  · rw [at?_store hf hp,if_neg (fun hn => hrefusal hn.1),if_neg]
    rintro ⟨-,hpre,-⟩
    have hlen := hpre.length_le
    simp only [List.length_append,List.length_singleton] at hlen
    omega
  · simp [blocked_store hf hp,hrefusal]

theorem contains_store (hdir : AreNames dir) (c : Bytes) {t : FileTree} {q : List Text}
    (h : t.contains q = true) : (fileSystem.store (file dir) c t).2.contains q = true := by
  have hat := at?_store (hfile dir hdir) (hparent dir hdir) c t q
  rw [FileTree.at?] at hat
  rw [Table.contains,hat]
  split
  · rfl
  · split
    · rfl
    · exact h

theorem stored_contains (hdir : AreNames dir) {c : Bytes} {t : FileTree}
    (h : (fileSystem.store (file dir) c t).1 = .ok ()) :
    (fileSystem.has (file dir) (fileSystem.store (file dir) c t).2).1 = .ok true := by
  have hf := hfile dir hdir
  have hp := hparent dir hdir
  have hrefusal : refusal? t (root ++ dir) name = none := by
    rw [store_eq hf hp] at h
    cases hr : refusal? t (root ++ dir) name with
    | none => rfl
    | some err =>
      rw [hr] at h
      cases h
  have hat := at?_store hf hp c t (root ++ dir ++ [name])
  rw [if_pos ⟨hrefusal,rfl⟩,FileTree.at?] at hat
  show Except.ok (Table.contains (locate (file dir)) _) = _
  rw [hf,Table.contains,hat]
  rfl

/-- The directories of a tree below a root keep out of each other's way. -/
def locality : FileSystem.Locality fileSystem file where
  agree := Agree root name
  symm h := ⟨fun _ => (h.files _).symm,fun _ => (h.ways _).symm,h.top.symm⟩
  trans h h' := ⟨fun _ => (h.files _).trans (h'.files _),fun _ => (h.ways _).trans (h'.ways _),
    h.top.trans h'.top⟩
  below names h := ⟨fun names' => by simpa using h.files (names ++ names'),
    fun names' => by simpa using h.ways (names ++ names'),h.top⟩
  has_eq {dir t t'} hdir h := by
    have hat : t.at? (root ++ dir ++ [name]) = t'.at? (root ++ dir ++ [name]) := by
      simpa using h.files []
    show (Except.ok (t.contains (locate (file dir))) : Except Error Bool) =
      .ok (t'.contains (locate (file dir)))
    rw [hfile dir hdir,Table.contains,Table.contains]
    rw [FileTree.at?,FileTree.at?] at hat
    rw [hat]
  has_still _ _ _ h := h
  read_eq {dir t t'} hdir h := by
    have hat : t.at? (root ++ dir ++ [name]) = t'.at? (root ++ dir ++ [name]) := by
      simpa using h.files []
    show (read (file dir) t).1 = (read (file dir) t').1
    rw [read,Action.get_bind,Action.get_bind,hfile dir hdir,hat]
    rcases t'.at? (root ++ dir ++ [name]) with _ | (_ | _) <;> rfl
  read_still dir dir' t h := by
    rw [show (fileSystem.read (file dir) t).2 = t from read_still _ _]
    exact h
  store_eq _ _ c _ _ hnames h := h.store hfile hparent hnames c
  store_apart hdir h h' _ :=
    agree_store_apart hfile hparent hdir (fun hpre => h ((List.prefix_append _ _).trans hpre)) h' _ _
  store_refused hdir _ h := agree_store_refused hfile hparent hdir h
  has_stored hdir _ h := stored_contains hfile hparent hdir h
  has_kept {dir dir' c t} _ hdir' _ h := by
    have h : t.contains (locate (file dir)) = true := Except.ok.inj h
    exact congrArg Except.ok (contains_store hfile hparent hdir' c h)
  has_before {dir dir' c t} _ hdir' _ h := by
    refine congrArg Except.ok (Bool.eq_false_iff.2 fun hhad => ?_)
    have hkept := contains_store hfile hparent hdir' c hhad
    have hlost : (fileSystem.store (file dir') c t).2.contains (locate (file dir)) = false :=
      Except.ok.inj h
    exact Bool.false_ne_true (hlost.symm.trans hkept)

theorem locality_layered : (locality hfile hparent).Layered name :=
  fun hdir h h' _ => agree_store_apart hfile hparent hdir h h' _ _

end Local

end Memory
end Realm
