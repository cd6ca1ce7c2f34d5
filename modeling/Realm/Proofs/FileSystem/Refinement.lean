import Mathlib.Data.List.Induction
import Realm.Proofs.FileSystem.Hierarchy
import Realm.Proofs.FileSystem.Top

/-! File systems in memory are hierarchies. A table of places, as every run of calls leaves it,
is read as one hierarchy, and each operation on the table does to it and answers what the
operation of the same name on hierarchies does and answers. -/
namespace Realm

open FileNode (at? find? Ordered)

namespace FileTree

/-- An entry as a node that holds nothing yet. -/
def Entry.node : Entry → FileNode
  | file c => .file c
  | directory => .directory []

/-- Read a table as a hierarchy: put all that it holds in place, one after the other. -/
def hierarchy (t : FileTree) : Option FileNode :=
  t.foldl (fun top e => FileNode.put (some e.2.node) e.1 top) none

end FileTree

namespace Memory

open FileTree (Entry)

variable {t t' : FileTree} {node : FileNode} {place q : List Text} {path : Text}

/-- A table in the shape of a tree, and a hierarchy that holds the same in all places. -/
structure Models (t : FileTree) (node : FileNode) : Prop where
  orderly : t.Orderly
  top : t.at? [] = some .directory
  ordered : Ordered (some node)
  same : ∀ place, t.at? place = at? place (some node)

namespace Models

theorem directory (h : Models t node) : ∃ es, node = .directory es := by
  have htop := h.top
  rw [h.same] at htop
  cases node with
  | file c => simp [at?,find?,FileNode.entry] at htop
  | directory es => exact ⟨es,rfl⟩

theorem at?_eq (h : Models t node) (place : List Text) :
    t.at? place = (find? place (some node)).map FileNode.entry :=
  h.same place

/-- The directory that is to hold a place is missing in both, or in neither. -/
theorem lacksParent_eq (h : Models t node) (place : List Text) : lacksParent t place =
    decide (place ≠ [] ∧ at? place.dropLast (some node) ≠ some .directory) := by
  rw [lacksParent,FileTree.isDirectory,h.same,← decide_not,Bool.decide_and]

theorem put (h : Models t node) (ht : t'.Orderly) (hplace : place ≠ [])
    (hparent : lacksParent t place = false) {new? : Option FileNode} (hnew : Ordered new?)
    (hsame : ∀ q, t'.at? q =
      if place <+: q then at? (q.drop place.length) new? else t.at? q) :
    Models t' ((FileNode.put new? place (some node)).getD (.directory [])) := by
  obtain ⟨es,rfl⟩ := h.directory
  obtain ⟨name,names,rfl⟩ := List.exists_cons_of_ne_nil hplace
  have hparent : name :: names = [] ∨
      at? (name :: names).dropLast (some (.directory es)) = some .directory :=
    .inr (by simpa [h.lacksParent_eq] using hparent)
  refine ⟨ht,?_,?_,fun q => ?_⟩
  · rw [hsame,if_neg (by simp)]
    exact h.top
  · exact FileNode.ordered_put h.ordered hnew (name :: names)
  · rw [hsame,h.same]
    exact (FileNode.at?_put hparent).symm

end Models

/-! What is put in place of something holds nothing. -/

theorem nothing_below (h : t.Connected) (hplace : place ≠ []) (hdir : t.isDirectory place = false)
    (hpre : place <+: q) (hne : q ≠ place) : t.at? q = none := by
  obtain ⟨names,rfl⟩ := hpre
  cases hat : t.at? (place ++ names) with
  | none => rfl
  | some e =>
    have hc : t.contains (place ++ names) = true := by
      rw [FileTree.contains_eq,hat,Option.isSome_some]
    rw [h.way hplace (by simpa using hne) hc] at hdir
    cases hdir

@[simp] theorem at?_node (x : Text) (names : List Text) (e : Entry) :
    at? (x :: names) (some e.node) = none := by
  cases e with
  | file c => rfl
  | directory => rw [at?,Entry.node,FileNode.find?_cons,Table.get?,FileNode.find?_none]; rfl

theorem ordered_node (e : Entry) : Ordered (some e.node) := by
  cases e with
  | file c => exact FileNode.ordered_file c
  | directory => exact FileNode.ordered_directory.2 ⟨.nil,fun _ => FileNode.ordered_none⟩

/-- In the place of something that nothing lay below, a node holds itself alone. -/
theorem at?_drop_node {old : Option Entry} (hold : place <+: q → q ≠ place → old = none)
    (e : Entry) :
    (if place <+: q then at? (q.drop place.length) (some e.node) else old) =
      if q = place then some e else old := by
  by_cases hq : q = place
  · subst hq
    cases e <;> simp [at?,find?,Entry.node,FileNode.entry]
  · rw [if_neg hq]
    split
    · next hpre =>
      rw [hold hpre hq]
      obtain ⟨names,rfl⟩ := hpre
      cases names with
      | nil => simp at hq
      | cons x names => rw [List.drop_left,at?_node]
    · rfl

theorem at?_insert_node (h : t.Connected) (hplace : place ≠ [])
    (hdir : t.isDirectory place = false) (e : Entry) (q : List Text) :
    FileTree.at? (t.insert place e) q =
      if place <+: q then at? (q.drop place.length) (some e.node) else t.at? q := by
  rw [FileTree.at?_insert,at?_drop_node (nothing_below h hplace hdir)]

/-! The operations. -/

theorem Models.become_alter (h : Models t node) (place : List Text) (missing : FileError)
    (change : Option FileNode → Except FileError (Option FileNode)) :
    FileNode.become (FileNode.alter place missing change) node =
      if lacksParent t place then (.error (.file missing),node)
      else
        match change (find? place (some node)) with
        | .error err => (.error (.file err),node)
        | .ok new? => (.ok (),(FileNode.put new? place (some node)).getD (.directory [])) := by
  rw [FileNode.become,Action.get_bind,FileNode.alter,h.lacksParent_eq]
  simp only [decide_eq_true_eq]
  split
  · rfl
  · cases change (find? place (some node)) with
    | error err => rfl
    | ok new? => rfl

def Mirrors {α : Type} (m : Except Error α × FileTree) (d : Except Error α × FileNode) : Prop :=
  m.1 = d.1 ∧ Models m.2 d.2

def fillAt (t : FileTree) (place : List Text) (content : Option Bytes → Bytes) :
    Except Error Unit × FileTree :=
  if lacksParent t place then (.error (.file .parentNotFound),t)
  else
    match t.at? place with
    | some .directory => (.error (.file .isDirectory),t)
    | some (.file old) => (.ok (),t.insert place (Entry.file (content (some old))))
    | none => (.ok (),t.insert place (Entry.file (content none)))

theorem mirrors_fill (h : Models t node) (hnames : Path.AreNames place)
    (content : Option Bytes → Bytes) :
    Mirrors (fillAt t place content)
      (FileNode.become (FileNode.alter place .parentNotFound (FileNode.fill content)) node) := by
  rw [fillAt,h.become_alter]
  cases hparent : lacksParent t place with
  | true => exact ⟨rfl,h⟩
  | false =>
    have hput : t.isDirectory place = false → ∀ c, Mirrors (.ok (),t.insert place (Entry.file c))
        (.ok (),(FileNode.put (some (.file c)) place (some node)).getD (.directory [])) := by
      intro hdir c
      have hplace : place ≠ [] := by
        rintro rfl
        simp [FileTree.isDirectory,h.top] at hdir
      refine ⟨rfl,h.put ?_ hplace hparent (FileNode.ordered_file c) ?_⟩
      · exact h.orderly.insert hnames (fun _ _ hx _ => isDirectory_of_parent hparent hx)
          (.inr (contains_inside h.orderly.connected hdir))
      · exact at?_insert_node h.orderly.connected hplace hdir (.file c)
    have hat := h.at?_eq place
    rcases hfind : find? place (some node) with _ | (old | es) <;> rw [hfind] at hat
    · rw [hat]
      exact hput (by simp [FileTree.isDirectory,hat]) _
    · rw [hat]
      exact hput (by simp [FileTree.isDirectory,hat,FileNode.entry]) _
    · rw [hat]
      exact ⟨rfl,h⟩

theorem lacksParent_of_contains (h : Models t node) (hc : t.contains place = true) :
    lacksParent t place = false := by
  by_cases hplace : place.dropLast = []
  · simp [lacksParent,hplace,FileTree.isDirectory,h.top]
  · have hne : place ≠ [] := by
      rintro rfl
      exact hplace rfl
    rw [← List.dropLast_concat_getLast hne] at hc
    simp [lacksParent,h.orderly.connected hplace hc]

theorem writeAt_eq_fillAt (place : List Text) (c : Bytes) (t : FileTree) :
    writeAt place c t = fillAt t place fun _ => c := by
  rw [writeAt_eq,fillAt]
  refine ite_congr rfl (fun _ => rfl) fun _ => ?_
  rcases hat : t.at? place with _ | (_ | _) <;> simp [FileTree.isDirectory,hat]

theorem mirrors_write (h : Models t node) (path : Text) (c : Bytes) :
    Mirrors (write path c t) (FileNode.fileSystem.write path c node) := by
  rw [write,writeAt_eq_fillAt,locate_eq_segments]
  exact mirrors_fill h (Path.areNames_segments path) fun _ => c

theorem mirrors_append (h : Models t node) (path : Text) (c : Bytes) :
    Mirrors (append path c t) (FileNode.fileSystem.append path c node) := by
  have happend : append path c t = fillAt t (Path.segments path) fun old? => old?.getD [] ++ c := by
    rw [append_eq,locate_eq_segments]
    rcases hat : t.at? (Path.segments path) with _ | there
    · rw [writeAt_eq_fillAt,fillAt,fillAt,hat]
      rfl
    · have hc : t.contains (Path.segments path) = true := by
        rw [FileTree.contains_eq,hat,Option.isSome_some]
      rw [fillAt,lacksParent_of_contains h hc,hat]
      cases there <;> rfl
  rw [happend]
  exact mirrors_fill h (Path.areNames_segments path) fun old? => old?.getD [] ++ c

theorem mirrors_makeDir (h : Models t node) (path : Text) :
    Mirrors (makeDir path false t) (FileNode.fileSystem.makeDir path false node) := by
  show Mirrors _ (FileNode.become
    (FileNode.alter (Path.segments path) .parentNotFound FileNode.create) node)
  rw [makeDir_eq,h.become_alter,locate_eq_segments]
  cases hparent : lacksParent t (Path.segments path) with
  | true => exact ⟨rfl,h⟩
  | false =>
    have hat := h.at?_eq (Path.segments path)
    rcases hfind : find? (Path.segments path) (some node) with _ | there <;> rw [hfind] at hat
    · have hnone : t.contains (Path.segments path) = false := by rw [FileTree.contains_eq,hat]; rfl
      have hdir : t.isDirectory (Path.segments path) = false := by simp [FileTree.isDirectory,hat]
      have hplace : Path.segments path ≠ [] := by
        intro hplace
        rw [hplace,FileTree.isDirectory,h.top] at hdir
        simp at hdir
      rw [hnone]
      refine ⟨rfl,h.put ?_ hplace hparent (ordered_node .directory) ?_⟩
      · exact h.orderly.insert (Path.areNames_segments path)
          (fun _ _ hx _ => isDirectory_of_parent hparent hx) (.inl rfl)
      · exact at?_insert_node h.orderly.connected hplace hdir .directory
    · have hsome : t.contains (Path.segments path) = true := by rw [FileTree.contains_eq,hat]; rfl
      rw [hsome]
      exact ⟨rfl,h⟩

theorem isFile_iff : t.isFile place = true ↔ ∃ c, t.at? place = some (.file c) := by
  rw [FileTree.isFile]
  rcases t.at? place with _ | (c | _) <;> simp

theorem at?_makeWay_clear (htop : t.at? [] = some .directory) {names : List Text}
    (hclear : t.blocked [] names = false) (q : List Text) :
    (makeWay [] names t).2.at? q = if q <+: names then some .directory else t.at? q := by
  split
  · next hpre =>
    by_cases hq : q = []
    · rw [hq,← htop]
      exact at?_makeWay_unmade fun way hne _ hway => absurd hway.symm hne
    · refine at?_makeWay_made hq hpre (Bool.eq_false_iff.2 fun hblocked => ?_)
      obtain ⟨way,hne,hway,hfile⟩ := FileTree.blocked_iff.1 hblocked
      have hblocked := FileTree.blocked_iff.2 ⟨way,hne,hway.trans hpre,hfile⟩
      exact Bool.false_ne_true (hclear.symm.trans hblocked)
  · next hpre => exact at?_makeWay_unmade fun way _ hway hq => absurd (hq ▸ hway) hpre

/-- A way that a file stands in is made in neither, and any other in both. -/
theorem mirrors_makeWay (h : Models t node) (path : Text) :
    Mirrors (makeDir path true t) (FileNode.fileSystem.makeDir path true node) := by
  show Mirrors (makeWay [] (locate path) t)
    (FileNode.become (fun top => some <$> FileNode.makeWay (Path.segments path) top) node)
  rw [FileNode.become,Action.get_bind,← locate_eq_segments]
  obtain ⟨hresult,-⟩ := makeWay_spec [] (locate path) t
  cases hblocked : t.blocked [] (locate path) with
  | true =>
    obtain ⟨way,-,hpre,hfile⟩ := FileTree.blocked_iff.1 hblocked
    obtain ⟨c,hc⟩ := isFile_iff.1 hfile
    rw [FileNode.makeWay_blocked ⟨way,hpre,(h.same way).symm.trans hc⟩]
    rw [hblocked,if_pos rfl] at hresult
    refine ⟨hresult,?_⟩
    rw [makeWay_refused h.orderly.connected hresult]
    exact h
  | false =>
    have hclear : ∀ way c, way <+: locate path → at? way (some node) ≠ some (.file c) := by
      intro way c hpre hfile
      rw [← h.same] at hfile
      have hne : way ≠ [] := by
        rintro rfl
        simp [h.top] at hfile
      have htrue : t.blocked [] (locate path) = true :=
        FileTree.blocked_iff.2 ⟨way,hne,hpre,isFile_iff.2 ⟨c,hfile⟩⟩
      exact Bool.false_ne_true (hblocked.symm.trans htrue)
    obtain ⟨node',hmade,hordered,hall⟩ := FileNode.makeWay_clear h.ordered hclear
    rw [hmade]
    rw [hblocked] at hresult
    have hway := at?_makeWay_clear h.top hblocked
    refine ⟨hresult,orderly_makeDir h.orderly path true,?_,hordered,fun q => ?_⟩
    · exact (hway []).trans (if_pos List.nil_prefix)
    · refine Eq.trans ?_ (hall q).symm
      rw [← h.same]
      exact hway q

theorem mem_keys_iff : q ∈ t.keys ↔ t.at? q ≠ none := by
  constructor
  · intro hq
    obtain ⟨e,he,rfl⟩ := List.mem_map.1 hq
    exact Option.isSome_iff_ne_none.1 (Table.contains_of_mem he)
  · intro hq
    obtain ⟨e,he⟩ := Option.ne_none_iff_exists'.1 hq
    exact List.mem_map_of_mem (Table.mem_of_get? he)

theorem below_isEmpty (h : Models t node) {es : List (Text × FileNode)}
    (hfind : find? place (some node) = some (.directory es)) :
    (t.below place).isEmpty = es.isEmpty := by
  have hinside : ∀ names, t.at? (place ++ names) =
      (find? names (some (.directory es))).map FileNode.entry := by
    intro names
    rw [h.at?_eq,FileNode.find?_append,hfind]
  rw [Bool.eq_iff_iff,List.isEmpty_iff,List.isEmpty_iff]
  constructor
  · intro hbelow
    rcases es with _ | ⟨⟨name,child⟩,es⟩
    · rfl
    · have hkey : place ++ [name] ∈ t.below place := by
        refine List.mem_filter.2 ⟨mem_keys_iff.2 ?_,by simp [FileTree.isAbove]⟩
        rw [hinside,FileNode.find?_cons,Table.get?,if_pos rfl]
        simp [find?]
      rw [hbelow] at hkey
      cases hkey
  · rintro rfl
    refine List.eq_nil_iff_forall_not_mem.2 fun q hq => ?_
    obtain ⟨hkey,habove⟩ := List.mem_filter.1 hq
    rw [FileTree.isAbove,Bool.and_eq_true,List.isPrefixOf_iff_prefix,decide_eq_true_eq] at habove
    obtain ⟨⟨names,rfl⟩,hne⟩ := habove
    refine mem_keys_iff.1 hkey ?_
    cases names with
    | nil => simp at hne
    | cons x names => rw [hinside,FileNode.find?_cons,Table.get?,FileNode.find?_none]; rfl

theorem mirrors_remove (h : Models t node) (hpath : Path.segments path ≠ []) (recursive : Bool) :
    Mirrors (remove path recursive t) (FileNode.fileSystem.remove path recursive node) := by
  show Mirrors _ (FileNode.become
    (FileNode.alter (Path.segments path) (.notFound (Path.normalize path))
      (FileNode.delete (.notFound (Path.normalize path)) recursive)) node)
  have horderly := orderly_remove h.orderly path recursive
  rw [remove_eq,locate_eq_segments] at horderly
  rw [remove_eq,h.become_alter,locate_eq_segments]
  have hdelete : t.contains (Path.segments path) = true → ∀ t' : FileTree, t'.Orderly →
      (∀ q, t'.at? q = if Path.segments path <+: q then none else t.at? q) →
      Mirrors (.ok (),t')
        (.ok (),(FileNode.put none (Path.segments path) (some node)).getD (.directory [])) := by
    intro hc t' ht' hsame
    refine ⟨rfl,h.put ht' hpath (lacksParent_of_contains h hc) FileNode.ordered_none fun q => ?_⟩
    rw [hsame,at?,FileNode.find?_none]
    rfl
  have hat := h.at?_eq (Path.segments path)
  have hc : t.contains (Path.segments path) = (find? (Path.segments path) (some node)).isSome := by
    rw [FileTree.contains_eq,hat,Option.isSome_map]
  rcases hfind : find? (Path.segments path) (some node) with _ | (c | es) <;> rw [hfind] at hat hc
  · rw [hat]
    dsimp only [Option.map_none,FileNode.delete]
    split <;> exact ⟨rfl,h⟩
  · rw [hat,lacksParent_of_contains h hc]
    rw [hat] at horderly
    refine hdelete hc _ horderly fun q => ?_
    have hdir : t.isDirectory (Path.segments path) = false := by
      simp [FileTree.isDirectory,hat,FileNode.entry]
    rw [at?_erase]
    by_cases hq : q = Path.segments path
    · rw [if_pos hq,if_pos (hq ▸ List.prefix_refl _)]
    · rw [if_neg hq]
      split
      · next hpre => exact nothing_below h.orderly.connected hpath hdir hpre hq
      · rfl
  · rw [hat,lacksParent_of_contains h hc]
    rw [hat] at horderly
    simp only [Option.map_some,FileNode.entry,below_isEmpty h hfind] at horderly ⊢
    have hprune := fun ht' =>
      hdelete hc (t.prune (Path.segments path)) ht' (at?_prune t (Path.segments path))
    cases es with
    | nil => exact hprune horderly
    | cons e es =>
      cases recursive with
      | true => exact hprune horderly
      | false => exact ⟨rfl,h⟩

/-! Looking. -/

theorem mirrors_read (h : Models t node) (path : Text) :
    Mirrors (read path t) (FileNode.fileSystem.read path node) := by
  show Mirrors _ (FileNode.look path FileNode.content node)
  have hat := h.at?_eq (Path.segments path)
  rw [read,Action.get_bind,FileNode.look,Action.get_bind,locate_eq_segments]
  rcases hfind : find? (Path.segments path) (some node) with _ | (c | es) <;> rw [hfind] at hat <;>
    rw [hat] <;> exact ⟨rfl,h⟩

theorem mirrors_stat (h : Models t node) (path : Text) :
    Mirrors (stat path t) (FileNode.fileSystem.stat path node) := by
  show Mirrors _ (FileNode.look path (fun there => pure there.entry.info) node)
  have hat := h.at?_eq (Path.segments path)
  rw [stat,Action.get_bind,FileNode.look,Action.get_bind,locate_eq_segments]
  rcases hfind : find? (Path.segments path) (some node) with _ | there <;> rw [hfind] at hat <;>
    rw [hat] <;> exact ⟨rfl,h⟩

theorem mirrors_has (h : Models t node) (path : Text) :
    Mirrors (has path t) (FileNode.fileSystem.has path node) := by
  refine ⟨?_,h⟩
  show Except.ok (t.contains (locate path)) = .ok (find? (Path.segments path) (some node)).isSome
  rw [FileTree.contains_eq,locate_eq_segments,h.at?_eq,Option.isSome_map]

def nameIn (directory place : List Text) : Option Text :=
  if place.dropLast = directory then place.getLast? else none

@[simp] theorem nameIn_eq_some {directory : List Text} {name : Text} :
    nameIn directory place = some name ↔ place = directory ++ [name] := by
  rw [nameIn]
  constructor
  · intro h
    split at h
    · next hdir =>
      obtain ⟨init,hinit⟩ := List.getLast?_eq_some_iff.1 h
      rw [← hdir,hinit,List.dropLast_concat]
    · cases h
  · rintro rfl
    simp

def members (t : FileTree) (directory : List Text) : Table Text Entry :=
  t.filterMap fun e => (nameIn directory e.1).map fun name => (name,e.2)

theorem children_eq (t : FileTree) (directory : List Text) :
    t.children directory = (members t directory).map fun e => ⟨e.1,e.2.info⟩ := by
  rw [members,List.map_filterMap]
  refine congrArg (List.filterMap · t) (funext fun e => ?_)
  obtain ⟨place,e⟩ := e
  by_cases hdir : place.dropLast = directory <;> cases hlast : place.getLast? <;>
    simp [nameIn,hdir,hlast]

@[simp] theorem get?_members (t : FileTree) (directory : List Text) (name : Text) :
    Table.get? name (members t directory) = t.at? (directory ++ [name]) := by
  induction t with
  | nil => rfl
  | cons e t ih =>
    obtain ⟨place,e⟩ := e
    rw [members] at ih ⊢
    rw [List.filterMap_cons,FileTree.at?,Table.get?,← FileTree.at?,← ih]
    cases hname : nameIn directory place with
    | none =>
      have hne : directory ++ [name] ≠ place := by
        intro hplace
        rw [nameIn_eq_some.2 hplace.symm] at hname
        cases hname
      simp [hne]
    | some x =>
      obtain rfl := nameIn_eq_some.1 hname
      simp [Table.get?]

theorem lt_of_append_lt {directory : List Text} {a b : Text}
    (h : directory ++ [a] < directory ++ [b]) : a < b := by
  refine Classical.byContradiction fun hlt => ?_
  rcases List.le_iff_lt_or_eq.1 (List.not_lt.1 hlt) with hba | rfl
  · have hcons : ([b] : List Text) < [a] := List.Lex.rel hba
    exact List.lt_asymm h (List.append_left_lt hcons)
  · exact List.lt_irrefl _ h

theorem sorted_members (h : t.Sorted) (directory : List Text) : (members t directory).Sorted := by
  refine List.Pairwise.filterMap _ (fun e e' hlt f hf f' hf' => ?_) h
  obtain ⟨a,ha,rfl⟩ := Option.map_eq_some_iff.1 hf
  obtain ⟨b,hb,rfl⟩ := Option.map_eq_some_iff.1 hf'
  rw [nameIn_eq_some.1 ha,nameIn_eq_some.1 hb] at hlt
  exact lt_of_append_lt hlt

theorem mirrors_list (h : Models t node) (path : Text) :
    Mirrors (list path t) (FileNode.fileSystem.list path node) := by
  show Mirrors _ (FileNode.look path FileNode.children node)
  have hat := h.at?_eq (Path.segments path)
  rw [list,Action.get_bind,FileNode.look,Action.get_bind,locate_eq_segments]
  rcases hfind : find? (Path.segments path) (some node) with _ | (c | es) <;> rw [hfind] at hat <;>
    rw [hat]
  · exact ⟨rfl,h⟩
  · exact ⟨rfl,h⟩
  · have hes : members t (Path.segments path) = Table.mapValues FileNode.entry es := by
      refine Table.Sorted.ext (sorted_members h.orderly.sorted _)
        (Table.Sorted.mapValues (h.ordered _ es hfind) _) fun name => ?_
      rw [get?_members,Table.get?_mapValues,h.at?_eq,FileNode.find?_append,hfind,
        FileNode.find?_cons]
      rfl
    refine ⟨?_,h⟩
    show Except.ok (t.children (Path.segments path)) = .ok (es.map fun e => ⟨e.1,e.2.entry.info⟩)
    rw [children_eq,hes,Table.mapValues,List.map_map]
    rfl

/-- Whatever is called, but for a removal of the top, the same comes of it. -/
theorem mirrors_call (h : Models t node) {call : FileSystem.Call}
    (hspared : call.removesTop = false) :
    Mirrors (call.run fileSystem t) (call.run FileNode.fileSystem node) := by
  have hmap : ∀ {α : Type} {m : Except Error α × FileTree} {d : Except Error α × FileNode}
      {f : α → FileReply}, Mirrors m d → Mirrors (m.1.map f,m.2) (d.1.map f,d.2) :=
    fun hm => ⟨congrArg (Except.map _) hm.1,hm.2⟩
  rw [FileSystem.Call.run_eq,FileSystem.Call.run_eq]
  cases call with
  | read path => exact hmap (mirrors_read h path)
  | write path c => exact hmap (mirrors_write h path c)
  | append path c => exact hmap (mirrors_append h path c)
  | makeDir path recursive =>
    cases recursive with
    | true => exact hmap (mirrors_makeWay h path)
    | false => exact hmap (mirrors_makeDir h path)
  | remove path recursive =>
    have hpath : Path.segments path ≠ [] := by
      simpa [FileSystem.Call.removesTop,← locate_eq_nil_iff,locate_eq_segments] using hspared
    exact hmap (mirrors_remove h hpath recursive)
  | stat path => exact hmap (mirrors_stat h path)
  | list path => exact hmap (mirrors_list h path)
  | has path => exact hmap (mirrors_has h path)

theorem run_models (h : Models t node) {calls : List FileSystem.Call}
    (hspared : ∀ call ∈ calls, call.removesTop = false) :
    (fileSystem.run calls t).1 = (FileNode.fileSystem.run calls node).1 ∧
      Models (fileSystem.run calls t).2 (FileNode.fileSystem.run calls node).2 := by
  induction calls generalizing t node with
  | nil => exact ⟨rfl,h⟩
  | cons call calls ih =>
    obtain ⟨hreply,hafter⟩ := mirrors_call h (hspared call List.mem_cons_self)
    obtain ⟨hreplies,hend⟩ := ih hafter fun c hc => hspared c (List.mem_cons_of_mem _ hc)
    rw [FileSystem.run_cons,FileSystem.run_cons,hreply,hreplies]
    exact ⟨rfl,hend⟩

theorem models_empty : Models FileTree.empty (.directory []) where
  orderly := FileTree.orderly_empty
  top := rfl
  ordered := ordered_node .directory
  same place := by
    cases place with
    | nil => rfl
    | cons name place =>
      rw [show FileNode.directory [] = Entry.directory.node from rfl,at?_node]
      rfl

/-! Reading a table. -/

/-- All that lies in a place lies in a directory, the top among them. -/
def Rooted (t : FileTree) : Prop :=
  ∀ (place : List Text) (name : Text), t.contains (place ++ [name]) = true →
    t.isDirectory place = true

theorem lt_of_prefix_ne {way place : List Text} (hpre : way <+: place) (hne : way ≠ place) :
    way < place := by
  obtain ⟨names,rfl⟩ := hpre
  cases names with
  | nil => simp at hne
  | cons x names =>
    have h : way ++ [] < way ++ x :: names := List.append_left_lt (List.nil_lt_cons x names)
    rwa [List.append_nil] at h

section Last

/-! The last entry of a table in order lies above no other. -/

variable {e : Entry} (hbefore : ∀ f ∈ t, f.1 < place) (hrooted : Rooted (t.insert place e))

include hbefore

theorem hierarchy_insert :
    FileTree.hierarchy (t.insert place e) = FileNode.put (some e.node) place t.hierarchy := by
  rw [Table.insert_of_forall_lt e hbefore,FileTree.hierarchy,List.foldl_append]
  rfl

include hrooted

theorem isDirectory_before {way : List Text} {name : Text}
    (hc : (t.insert place e).contains (way ++ [name]) = true)
    (hnot : ¬ place < way ++ [name]) : t.isDirectory way = true := by
  have hne : way ≠ place := by
    rintro rfl
    exact hnot (lt_of_prefix_ne (List.prefix_append _ _) (by simp))
  have hway := hrooted way name hc
  rwa [FileTree.isDirectory,FileTree.at?_insert,if_neg hne] at hway

theorem rooted_before : Rooted t := by
  intro way name hc
  obtain ⟨e',he'⟩ := Option.isSome_iff_exists.1 hc
  refine isDirectory_before hbefore hrooted ?_ (List.lt_asymm (hbefore _ (Table.mem_of_get? he')))
  rw [FileTree.contains_insert,hc,Bool.or_true]

theorem parent_before : place = [] ∨ t.isDirectory place.dropLast = true := by
  rcases List.eq_nil_or_concat place with hplace | ⟨way,name,hplace⟩
  · exact .inl hplace
  · rw [List.concat_eq_append] at hplace
    rw [hplace,List.dropLast_concat,← hplace]
    have hnot : ¬ place < way ++ [name] := hplace ▸ List.lt_irrefl _
    refine .inr (isDirectory_before hbefore hrooted ?_ hnot)
    rw [FileTree.contains_insert,hplace]
    simp

end Last

/-- What is read from a table in order, in which all lies in directories, holds in all places
what the table holds there. -/
theorem at?_hierarchy (hsorted : t.Sorted) (hrooted : Rooted t) :
    Ordered t.hierarchy ∧ ∀ q, at? q t.hierarchy = t.at? q := by
  induction t using List.reverseRecOn with
  | nil =>
    refine ⟨FileNode.ordered_none,fun q => ?_⟩
    show (find? q none).map FileNode.entry = none
    rw [FileNode.find?_none]
    rfl
  | append_singleton t e ih =>
    obtain ⟨place,e⟩ := e
    obtain ⟨ht,-,hlast⟩ := List.pairwise_append.1 hsorted
    have hbefore : ∀ f ∈ t, f.1 < place := fun f hf => hlast f hf _ List.mem_cons_self
    rw [← Table.insert_of_forall_lt e hbefore] at hrooted ⊢
    obtain ⟨hordered,hentries⟩ := ih ht (rooted_before hbefore hrooted)
    have hparent : place = [] ∨ at? place.dropLast (FileTree.hierarchy t) = some .directory := by
      rw [hentries]
      simpa [FileTree.isDirectory] using parent_before hbefore hrooted
    rw [hierarchy_insert hbefore]
    refine ⟨FileNode.ordered_put hordered (ordered_node e) place,fun q => ?_⟩
    rw [FileNode.at?_put hparent,hentries,FileTree.at?_insert,at?_drop_node]
    -- What the table holds so far comes before the new place, and so is not below it.
    intro hpre hne
    refine Table.get?_eq_none fun f hf hq => ?_
    have hlt := hbefore f hf
    rw [← hq] at hlt
    exact List.lt_asymm (lt_of_prefix_ne hpre (Ne.symm hne)) hlt

/-- A table is read as the hierarchy that holds the same. -/
theorem Models.hierarchy_eq (h : Models t node) : t.hierarchy = some node := by
  obtain ⟨hordered,hentries⟩ := at?_hierarchy h.orderly.sorted fun place name hc => by
    by_cases hplace : place = []
    · rw [hplace,FileTree.isDirectory,h.top]
      rfl
    · exact h.orderly.connected hplace hc
  have hsame : ∀ q, at? q t.hierarchy = at? q (some node) :=
    fun q => (hentries q).trans (h.same q)
  cases hread : t.hierarchy with
  | none =>
    rw [hread] at hsame
    simpa [at?,find?] using hsame []
  | some node' =>
    rw [hread] at hordered hsame
    exact congrArg some (FileNode.eq_of_entries hordered h.ordered hsame)

@[simp] theorem run_normalize (call : FileSystem.Call) :
    (call.onPath Path.normalize).run fileSystem = call.run fileSystem := by
  have hplace : ∀ path, locate (Path.normalize path) = locate path := by
    intro path
    simp [locate_eq_segments]
  funext t
  rw [FileSystem.Call.run_eq,FileSystem.Call.run_eq]
  cases call <;>
    simp only [FileSystem.Call.onPath,fileSystem,read,write,append,makeDir,remove,stat,list,has,
      hplace]

/-- File systems in memory are hierarchies of directories. In every run of calls that leaves the
top in place, the same calls on a hierarchy give the same answers, and the hierarchy that they
leave, with the names of each directory in order, is what is read from the table: it holds the
same in all places. So it is for each further call; and a path acts as its normal form. -/
theorem run_refines (calls : List FileSystem.Call)
    (hspared : ∀ call ∈ calls, call.removesTop = false) :
    let m := fileSystem.run calls FileTree.empty
    let d := FileNode.fileSystem.run calls (.directory [])
    m.1 = d.1 ∧ m.2.hierarchy = some d.2 ∧ Ordered (some d.2) ∧
      (∀ place, m.2.at? place = at? place (some d.2)) ∧
      ∀ call : FileSystem.Call,
        (call.onPath Path.normalize).run fileSystem = call.run fileSystem ∧
          (call.removesTop = false →
            (call.run fileSystem m.2).1 = (call.run FileNode.fileSystem d.2).1 ∧
              (call.run fileSystem m.2).2.hierarchy = some (call.run FileNode.fileSystem d.2).2) := by
  intro m d
  obtain ⟨hreplies,hmodels⟩ := run_models models_empty hspared
  refine ⟨hreplies,hmodels.hierarchy_eq,hmodels.ordered,hmodels.same,fun call => ?_⟩
  refine ⟨run_normalize call,fun hcall => ?_⟩
  obtain ⟨hreply,hafter⟩ := mirrors_call hmodels hcall
  exact ⟨hreply,hafter.hierarchy_eq⟩

/-- Neighbours whose names begin alike are kept apart, and a directory goes with all it holds. -/
theorem run_refines_neighbours :
    let calls : List FileSystem.Call := [.makeDir "/a/b".toList true,.makeDir "/ab".toList false,
      .write "/ab/./y".toList [1],.append "/ab//y".toList [2],.remove "/a".toList false,
      .remove "/ab/../a".toList true,.list "/".toList,.read "/ab/y".toList]
    let m := fileSystem.run calls FileTree.empty
    (∀ call ∈ calls, call.removesTop = false) ∧
      m.1 = (FileNode.fileSystem.run calls (.directory [])).1 ∧
      m.1 = [.ok .done,.ok .done,.ok .done,.ok .done,.error (.file .directoryNotEmpty),.ok .done,
        .ok (.entries [⟨"ab".toList,.directory⟩]),.ok (.bytes [1,2])] ∧
      m.2.hierarchy = some (.directory [("ab".toList,.directory [("y".toList,.file [1,2])])]) := by
  intro calls m
  have hspared : ∀ call ∈ calls, call.removesTop = false := by decide
  obtain ⟨hreplies,hread,-⟩ := run_refines calls hspared
  exact ⟨hspared,hreplies,rfl,hread.trans rfl⟩

end Memory
end Realm
