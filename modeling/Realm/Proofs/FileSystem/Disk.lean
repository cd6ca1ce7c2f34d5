import Realm.FileSystem.Disk
import Realm.Proofs.FileSystem.Connected

/-! File systems of the host. Where everything lies in a directory, a file is stored together
with the directories above it, or nothing is done at all. -/
namespace Realm

open Realm.Path (ofSegments AreNames)

namespace FileTree

/-- The top of a tree is a directory, and so is whatever something else lies in. -/
structure Closed (t : FileTree) : Prop where
  top : t.isDirectory [] = true
  above : ∀ {place : List Text} {name : Text}, t.contains (place ++ [name]) = true →
    t.isDirectory place = true

variable {t : FileTree} {place names q : List Text}

namespace Closed

variable (ht : t.Closed)

include ht

theorem way (hne : names ≠ []) (hc : t.contains (place ++ names) = true) :
    t.isDirectory place = true := by
  by_cases hplace : place = []
  · subst hplace
    exact ht.top
  · exact Connected.way (fun _ h => ht.above h) hplace hne hc

theorem clear (hfile : t.isFile place = false) (hc : t.contains place = true) :
    t.blocked [] place = false := by
  refine Bool.eq_false_iff.2 fun hblocked => ?_
  obtain ⟨way,-,⟨rest,rfl⟩,hway⟩ := blocked_iff.1 hblocked
  rw [List.nil_append] at hway
  by_cases hrest : rest = []
  · subst hrest
    rw [List.append_nil] at hfile
    exact Bool.false_ne_true (hfile.symm.trans hway)
  · exact Bool.false_ne_true ((isFile_of_isDirectory (ht.way hrest hc)).symm.trans hway)

end Closed

theorem blocked_concat (t : FileTree) (place names : List Text) (name : Text) :
    t.blocked place (names ++ [name]) =
      (t.blocked place names || t.isFile (place ++ names ++ [name])) := by
  induction names generalizing place with
  | nil => simp [blocked]
  | cons x names ih => simp [blocked,ih,Bool.or_assoc]

@[simp] theorem mem_wayTo : q ∈ wayTo place ↔ q <+: place := by
  induction place generalizing q with
  | nil => simp [wayTo]
  | cons name place ih =>
    cases q with
    | nil => simp [wayTo]
    | cons x q =>
      have hmem : x :: q ∈ wayTo (name :: place) ↔ name = x ∧ q ∈ wayTo place := by
        simp only [wayTo,List.mem_cons,List.mem_map,List.cons.injEq,reduceCtorEq,false_or]
        constructor
        · rintro ⟨q',hq',hx,rfl⟩
          exact ⟨hx,hq'⟩
        · rintro ⟨hx,hq⟩
          exact ⟨q,hq,hx,rfl⟩
      rw [hmem,ih,List.cons_prefix_cons,eq_comm]

end FileTree

namespace Disk

open FileTree (Entry mem_wayTo)

theorem foldl_down {step : List Text × Nat → Text → List Text × Nat} {segs : List Text}
    (h : ∀ part ∈ segs, ∀ place depth, step (place,depth) part = (place ++ [part],depth + 1))
    (place : List Text) (depth : Nat) : (segs.foldl step (place,depth)).1 = place ++ segs := by
  induction segs generalizing place depth with
  | nil => simp
  | cons s segs ih =>
    rw [List.foldl_cons,h s (by simp),ih fun part hpart => h part (by simp [hpart])]
    simp

theorem resolve_ofSegments (root : List Text) {segs : List Text} (h : AreNames segs) :
    resolve root (ofSegments segs) = root ++ segs := by
  rw [resolve,Path.parts_ofSegments h]
  refine foldl_down (fun part hpart place depth => ?_) root 0
  exact if_neg (h part hpart).2.2.1

def hindrance? (t : FileTree) (place : List Text) : Option HostError :=
  match t.at? place with
  | some .directory => none
  | some (.file _) => some .notADirectory
  | none => some .noSuchFile

variable {t : FileTree}

theorem findSome?_wayTo (ht : t.Closed) (place names : List Text) :
    ((FileTree.wayTo names).map (place ++ ·)).findSome? (hindrance? t) =
      if t.isFile place || t.blocked place names then some .notADirectory
      else if t.contains (place ++ names) then none
      else some .noSuchFile := by
  induction names generalizing place with
  | nil =>
    have hcontains : t.contains place = (t.at? place).isSome := rfl
    simp only [FileTree.wayTo,List.map_cons,List.map_nil,List.append_nil,List.findSome?_cons,
      List.findSome?_nil,hindrance?,FileTree.isFile,FileTree.blocked,Bool.or_false,hcontains]
    cases hat : t.at? place with
    | none => rfl
    | some e => cases e <;> rfl
  | cons name names ih =>
    have hway : (FileTree.wayTo (name :: names)).map (place ++ ·) =
        place :: (FileTree.wayTo names).map (place ++ [name] ++ ·) := by
      simp [FileTree.wayTo,Function.comp_def]
    rw [hway,List.findSome?_cons,ih]
    -- Nothing lies below a place that holds nothing, and so no file is in the way further down.
    have hdown : ∀ way : List Text, way ≠ [] → t.isDirectory place = false →
        t.contains (place ++ way) = false := by
      refine fun way hne hdir => Bool.eq_false_iff.2 fun hc => ?_
      exact Bool.false_ne_true (hdir.symm.trans (ht.way hne hc))
    cases hat : t.at? place with
    | none =>
      have hdir : t.isDirectory place = false := by simp [FileTree.isDirectory,hat]
      have hfile : t.isFile place = false := by simp [FileTree.isFile,hat]
      have hclear : t.blocked place (name :: names) = false := by
        refine Bool.eq_false_iff.2 fun hblocked => ?_
        obtain ⟨way,hne,-,hfile⟩ := FileTree.blocked_iff.1 hblocked
        exact Bool.false_ne_true ((hdown way hne hdir).symm.trans (FileTree.contains_of_isFile hfile))
      simp [hindrance?,hat,hfile,hclear,hdown (name :: names) (by simp) hdir]
    | some e =>
      cases e with
      | directory =>
        have hfile : t.isFile place = false := by simp [FileTree.isFile,hat]
        simp [hindrance?,hat,hfile,FileTree.blocked]
      | file c =>
        have hfile : t.isFile place = true := by simp [FileTree.isFile,hat]
        simp [hindrance?,hat,hfile]

theorem obstacle?_eq (ht : t.Closed) (place : List Text) (name : Text) :
    obstacle? t (place ++ [name]) =
      if t.blocked [] place then some .notADirectory
      else if t.contains place then none
      else some .noSuchFile := by
  have hall := findSome?_wayTo ht [] place
  rw [FileTree.isFile_of_isDirectory ht.top,Bool.false_or] at hall
  simp only [List.nil_append,List.map_id'] at hall
  rw [← hall,obstacle?,List.dropLast_concat]
  rfl

theorem obstacle?_file (ht : t.Closed) {place : List Text} (hfile : t.isFile place = true) :
    obstacle? t place = none := by
  rcases List.eq_nil_or_concat place with rfl | ⟨above,name,hplace⟩
  · exact absurd hfile (by simp [FileTree.isFile_of_isDirectory ht.top])
  · rw [List.concat_eq_append] at hplace
    subst hplace
    have hdir := ht.above (FileTree.contains_of_isFile hfile)
    have hhas := FileTree.contains_of_isDirectory hdir
    simp [obstacle?_eq ht,ht.clear (FileTree.isFile_of_isDirectory hdir) hhas,hhas]

theorem obstacle?_blocked (ht : t.Closed) {place : List Text} (hfile : t.isFile place = false)
    (hblocked : t.blocked [] place = true) : obstacle? t place = some .notADirectory := by
  rcases List.eq_nil_or_concat place with rfl | ⟨above,name,hplace⟩
  · simp [FileTree.blocked] at hblocked
  · rw [List.concat_eq_append] at hplace
    subst hplace
    rw [FileTree.blocked_concat,List.nil_append,hfile,Bool.or_false] at hblocked
    simp [obstacle?_eq ht,hblocked]

theorem obstacle?_clear (ht : t.Closed) {place : List Text} (hclear : t.blocked [] place = false) :
    obstacle? t place = none ∨ obstacle? t place = some .noSuchFile := by
  rcases List.eq_nil_or_concat place with rfl | ⟨above,name,hplace⟩
  · have htop := ht.top
    rw [FileTree.isDirectory,decide_eq_true_eq] at htop
    exact .inl (by simp [obstacle?,FileTree.wayTo,htop])
  · rw [List.concat_eq_append] at hplace
    subst hplace
    rw [FileTree.blocked_concat,Bool.or_eq_false_iff] at hclear
    rw [obstacle?_eq ht,hclear.1]
    cases t.contains above
    · exact .inr rfl
    · exact .inl rfl

/-- A tree with directories for all places on a way that hold nothing. -/
def pave (place : List Text) (t : FileTree) : FileTree :=
  ((FileTree.wayTo place).filter fun p => !t.contains p).foldl
    (fun t p => t.insert p Entry.directory) t

theorem at?_pave (place : List Text) (t : FileTree) (q : List Text) :
    (pave place t).at? q =
      if q <+: place ∧ t.contains q = false then some .directory else t.at? q := by
  have hfold : ∀ (ps : List (List Text)) (t : FileTree),
      (ps.foldl (fun t p => t.insert p Entry.directory) t : FileTree).at? q =
        if q ∈ ps then some .directory else t.at? q := by
    intro ps
    induction ps with
    | nil => simp
    | cons p ps ih =>
      intro t
      rw [List.foldl_cons,ih]
      by_cases hq : q = p
      · subst hq
        have hnew : FileTree.at? (t.insert q Entry.directory) q = some .directory :=
          Table.get?_insert_self _ _ _
        simp [hnew]
      · have hold : FileTree.at? (t.insert p Entry.directory) q = t.at? q :=
          Table.get?_insert_of_ne hq _ _
        simp [hold,hq]
  rw [pave,hfold]
  simp

theorem makeWayTo_eq (ht : t.Closed) (place : List Text) :
    makeWayTo place t =
      if t.isFile place then (.error (.file (.host .fileExists)),t)
      else if t.blocked [] place then (.error (.file (.host .notADirectory)),t)
      else (.ok (),pave place t) := by
  rw [makeWayTo,Action.get_bind]
  cases hfile : t.isFile place with
  | true =>
    obtain ⟨c,hat⟩ : ∃ c, t.at? place = some (.file c) := by
      rw [FileTree.isFile] at hfile
      split at hfile
      · next c hat => exact ⟨c,hat⟩
      · cases hfile
    rw [obstacle?_file ht hfile,hat]
    rfl
  | false =>
    cases hblocked : t.blocked [] place with
    | true =>
      rw [obstacle?_blocked ht hfile hblocked]
      rfl
    | false =>
      rw [FileTree.isFile] at hfile
      rcases obstacle?_clear ht hblocked with h | h
      · rw [h]
        rcases hat : t.at? place with _ | (c | _)
        · rfl
        · simp [hat] at hfile
        · rfl
      · rw [h]
        rfl

theorem pave_eq {place : List Text} (h : ∀ q, q <+: place → t.contains q = true) :
    pave place t = t := by
  have hnone : (FileTree.wayTo place).filter (fun p => !t.contains p) = [] := by
    refine List.filter_eq_nil_iff.2 fun q hq => ?_
    simp [h q (mem_wayTo.1 hq)]
  rw [pave,hnone]
  rfl

section Paved

variable (ht : t.Closed) {place : List Text} (hclear : t.blocked [] place = false)

include ht hclear

/-- A way on which no file stands leads through directories, once it has been made. -/
theorem isDirectory_pave {q : List Text} (hq : q <+: place) : (pave place t).isDirectory q = true := by
  rw [FileTree.isDirectory,at?_pave,decide_eq_true_eq]
  cases hc : t.contains q with
  | false => simp [hq]
  | true =>
    rw [if_neg (by simp)]
    by_cases hne : q = []
    · subst hne
      simpa [FileTree.isDirectory] using ht.top
    · have hfile : t.isFile q = false := by
        refine Bool.eq_false_iff.2 fun hfile => ?_
        have hblocked : t.blocked [] place = true := FileTree.blocked_iff.2 ⟨q,hne,hq,hfile⟩
        exact Bool.false_ne_true (hclear.symm.trans hblocked)
      have hcontains : t.contains q = (t.at? q).isSome := rfl
      rw [hcontains] at hc
      rw [FileTree.isFile] at hfile
      rcases hat : t.at? q with _ | (b | _)
      · simp [hat] at hc
      · simp [hat] at hfile
      · rfl

theorem closed_pave : (pave place t).Closed where
  top := isDirectory_pave ht hclear (List.nil_prefix)
  above {p x} hc := by
    have hcontains : (pave place t).contains (p ++ [x]) = ((pave place t).at? (p ++ [x])).isSome := rfl
    rw [hcontains,at?_pave] at hc
    by_cases hpre : p <+: place
    · exact isDirectory_pave ht hclear hpre
    · rw [if_neg fun h => hpre ((List.prefix_append p [x]).trans h.1)] at hc
      have hdir := ht.above hc
      rw [FileTree.isDirectory] at hdir ⊢
      rw [at?_pave,if_neg fun h => hpre h.1]
      exact hdir

end Paved

/-! Looking changes nothing. -/

theorem hasAt_still (place : List Text) (t : FileTree) : (hasAt place t).2 = t := by
  rw [hasAt,Action.get_bind]
  rcases obstacle? t place with _ | e
  · rfl
  · cases e <;> rfl

@[simp] theorem find_still (place : List Text) (t : FileTree) : (find place t).2 = t := by
  rw [find,Action.get_bind]
  cases obstacle? t place <;> rfl

@[simp] theorem readAt_still (place : List Text) (t : FileTree) : (readAt place t).2 = t := by
  have hfind := find_still place t
  rw [readAt,Action.bind_eq,require,Action.bind_eq]
  rcases hf : find place t with ⟨err | (_ | (b | _)),t'⟩ <;> rw [hf] at hfind <;> exact hfind

/-! Looking and storing in a closed tree. -/

theorem has_eq {c : Config} (ht : t.Closed) {path : Text} {place : List Text} {name : Text}
    (hfile : resolve c.root path = place ++ [name]) :
    ((fileSystem c).has path t).1 =
      if t.blocked [] place then .error (.file (.host .notADirectory))
      else .ok (t.contains (place ++ [name])) := by
  show (hasAt (resolve c.root path) t).1 = _
  rw [hfile,hasAt,Action.get_bind,obstacle?_eq ht]
  cases hblocked : t.blocked [] place with
  | true => rfl
  | false =>
    cases hc : t.contains place with
    | true => rfl
    | false =>
      have hnone : t.contains (place ++ [name]) = false := by
        refine Bool.eq_false_iff.2 fun h => ?_
        exact Bool.false_ne_true (hc.symm.trans (FileTree.contains_of_isDirectory (ht.above h)))
      rw [hnone]
      rfl

theorem has_of_contains {c : Config} (ht : t.Closed) {path : Text} {place : List Text} {name : Text}
    (hfile : resolve c.root path = place ++ [name]) (h : t.contains (place ++ [name]) = true) :
    ((fileSystem c).has path t).1 = .ok true := by
  have hdir := ht.above h
  have hclear := ht.clear (FileTree.isFile_of_isDirectory hdir) (FileTree.contains_of_isDirectory hdir)
  rw [has_eq ht hfile,hclear,h]
  rfl

theorem has_eq_ok {c : Config} (ht : t.Closed) {path : Text} {place : List Text} {name : Text}
    (hfile : resolve c.root path = place ++ [name]) {b : Bool}
    (h : ((fileSystem c).has path t).1 = .ok b) :
    t.blocked [] place = false ∧ t.contains (place ++ [name]) = b := by
  rw [has_eq ht hfile] at h
  cases hblocked : t.blocked [] place with
  | true => simp [hblocked] at h
  | false => simpa [hblocked] using h

theorem find_eq (ht : t.Closed) (place : List Text) (name : Text) :
    find (place ++ [name]) t =
      if t.blocked [] place then (.error (.file (.host .notADirectory)),t)
      else if t.contains place then (.ok (t.at? (place ++ [name])),t)
      else (.error (.file (.host .noSuchFile)),t) := by
  rw [find,Action.get_bind,obstacle?_eq ht]
  cases t.blocked [] place <;> cases t.contains place <;> rfl

theorem read_eq {c : Config} (ht : t.Closed) {path : Text} {place : List Text} {name : Text}
    (hfile : resolve c.root path = place ++ [name]) :
    ((fileSystem c).read path t).1 =
      if t.blocked [] place then .error (.file (.host .notADirectory))
      else match t.at? (place ++ [name]) with
        | some (.file b) => .ok b
        | some .directory => .error (.file (.host .isADirectory))
        | none => .error (.file (.host .noSuchFile)) := by
  show (readAt (resolve c.root path) t).1 = _
  rw [hfile,readAt,Action.bind_eq,require,Action.bind_eq,find_eq ht]
  cases t.blocked [] place with
  | true => rfl
  | false =>
    cases hc : t.contains place with
    | true => rcases t.at? (place ++ [name]) with _ | (b | _) <;> rfl
    | false =>
      have hnone : t.at? (place ++ [name]) = none := by
        cases hat : t.at? (place ++ [name]) with
        | none => rfl
        | some e =>
          have hhere : t.contains (place ++ [name]) = true := congrArg Option.isSome hat
          exact absurd (FileTree.contains_of_isDirectory (ht.above hhere)) (by simp [hc])
      rw [hnone]
      rfl

theorem writeAt_eq (ht : t.Closed) {place : List Text} (hdir : t.isDirectory place = true)
    (name : Text) (b : Bytes) :
    changeAt (place ++ [name]) (fun _ => b) t =
      if t.isDirectory (place ++ [name]) then (.error (.file (.host .isADirectory)),t)
      else (.ok (),t.insert (place ++ [name]) (Entry.file b)) := by
  have hc := FileTree.contains_of_isDirectory hdir
  have hclear := ht.clear (FileTree.isFile_of_isDirectory hdir) hc
  rw [changeAt,Action.bind_eq,find_eq ht,hclear,hc,FileTree.isDirectory]
  rcases t.at? (place ++ [name]) with _ | (_ | _) <;> rfl

/-- What keeps a file of some name from being stored in the directory of a place. -/
def refusal? (t : FileTree) (place : List Text) (name : Text) : Option HostError :=
  if t.isFile place then some .fileExists
  else if t.blocked [] place then some .notADirectory
  else if t.isDirectory (place ++ [name]) then some .isADirectory
  else none

theorem refusal?_eq_none {place : List Text} {name : Text} :
    refusal? t place name = none ↔
      t.isFile place = false ∧ t.blocked [] place = false ∧ t.isDirectory (place ++ [name]) = false := by
  rw [refusal?]
  cases t.isFile place <;> cases t.blocked [] place <;> cases t.isDirectory (place ++ [name]) <;> simp

/-- A file is stored in one go together with the way to it, or nothing is done. -/
theorem store_eq {c : Config} (hc : c.readOnly = false) (ht : t.Closed) {path : Text}
    {place : List Text} {name : Text} (hfile : resolve c.root path = place ++ [name])
    (hparent : resolve c.root (Path.parent path) = place) (b : Bytes) :
    (fileSystem c).store path b t =
      match refusal? t place name with
      | some err => (.error (.file (.host err)),t)
      | none => (.ok (),(pave place t).insert (place ++ [name]) (Entry.file b)) := by
  have hmake : (fileSystem c).makeDir (Path.parent path) true t = makeWayTo place t := by
    simp [fileSystem,guarded,hc,hparent]
  have hwrite : ∀ t₁, (fileSystem c).write path b t₁ = changeAt (place ++ [name]) (fun _ => b) t₁ := by
    intro t₁
    simp [fileSystem,guarded,hc,hfile]
  rw [FileSystem.store,Action.bind_eq,hmake,makeWayTo_eq ht,refusal?]
  cases t.isFile place with
  | true => rfl
  | false =>
    cases hclear : t.blocked [] place with
    | true => rfl
    | false =>
      have hdir := isDirectory_pave ht hclear (List.prefix_refl place)
      have hsame : (pave place t).isDirectory (place ++ [name]) = t.isDirectory (place ++ [name]) := by
        have hnot : ¬ place ++ [name] <+: place := fun h => absurd h.length_le (by simp)
        rw [FileTree.isDirectory,at?_pave,if_neg fun h => hnot h.1]
        rfl
      simp only [Bool.false_eq_true,if_false,hwrite,
        writeAt_eq (closed_pave ht hclear) hdir,hsame]
      cases hbusy : t.isDirectory (place ++ [name]) with
      | false => rfl
      | true =>
        have hhere := FileTree.contains_of_isDirectory hbusy
        have hall : ∀ q, q <+: place → t.contains q = true := by
          rintro q ⟨rest,rfl⟩
          rw [List.append_assoc] at hhere
          exact FileTree.contains_of_isDirectory (ht.way (by simp) hhere)
        rw [pave_eq hall]
        rfl

section Stored

variable {c : Config} (hc : c.readOnly = false) (ht : t.Closed) {path : Text} {place : List Text}
  {name : Text} (hfile : resolve c.root path = place ++ [name])
  (hparent : resolve c.root (Path.parent path) = place)

include hc ht hfile hparent

theorem at?_store (b : Bytes) (q : List Text) :
    ((fileSystem c).store path b t).2.at? q =
      if refusal? t place name = none ∧ q = place ++ [name] then some (.file b)
      else if refusal? t place name = none ∧ q <+: place then some .directory
      else t.at? q := by
  rw [store_eq hc ht hfile hparent]
  cases hrefusal : refusal? t place name with
  | some err => simp
  | none =>
    obtain ⟨-,hclear,-⟩ := refusal?_eq_none.1 hrefusal
    by_cases hq : q = place ++ [name]
    · subst hq
      have hnew : FileTree.at? ((pave place t).insert (place ++ [name]) (Entry.file b))
          (place ++ [name]) = some (.file b) := Table.get?_insert_self _ _ _
      simp [hnew]
    · have hold : FileTree.at? ((pave place t).insert (place ++ [name]) (Entry.file b)) q =
          (pave place t).at? q := Table.get?_insert_of_ne hq _ _
      by_cases hpre : q <+: place
      · have hdir := isDirectory_pave ht hclear hpre
        rw [FileTree.isDirectory,decide_eq_true_eq] at hdir
        simp [hold,hq,hpre,hdir]
      · simp [hold,hq,hpre,at?_pave]

theorem isFile_store (b : Bytes) (q : List Text) :
    ((fileSystem c).store path b t).2.isFile q =
      (t.isFile q || decide (refusal? t place name = none ∧ q = place ++ [name])) := by
  rw [FileTree.isFile,at?_store hc ht hfile hparent]
  by_cases hnew : refusal? t place name = none ∧ q = place ++ [name]
  · simp [hnew]
  · by_cases hway : refusal? t place name = none ∧ q <+: place
    · obtain ⟨hend,hclear,-⟩ := refusal?_eq_none.1 hway.1
      have hq : t.isFile q = false := by
        refine Bool.eq_false_iff.2 fun hq => ?_
        by_cases hne : q = []
        · subst hne
          exact Bool.false_ne_true ((FileTree.isFile_of_isDirectory ht.top).symm.trans hq)
        · have hblocked : t.blocked [] place = true := FileTree.blocked_iff.2 ⟨q,hne,hway.2,hq⟩
          exact Bool.false_ne_true (hclear.symm.trans hblocked)
      rw [if_neg hnew,if_pos hway,hq,decide_eq_false hnew]
      rfl
    · simp [hnew,hway,FileTree.isFile]

theorem blocked_store (b : Bytes) (q : List Text) :
    ((fileSystem c).store path b t).2.blocked [] q =
      (t.blocked [] q || decide (refusal? t place name = none ∧ place ++ [name] <+: q)) :=
  FileTree.blocked_of_isFile (by simp) (isFile_store hc ht hfile hparent b) q

theorem contains_store (b : Bytes) {q : List Text} (h : t.contains q = true) :
    ((fileSystem c).store path b t).2.contains q = true := by
  have hat := at?_store hc ht hfile hparent b q
  rw [FileTree.at?] at hat
  rw [Table.contains,hat]
  split
  · rfl
  · split
    · rfl
    · exact h

theorem closed_store (b : Bytes) : ((fileSystem c).store path b t).2.Closed := by
  have hat := at?_store hc ht hfile hparent b
  cases hrefusal : refusal? t place name with
  | some err =>
    rw [store_eq hc ht hfile hparent,hrefusal]
    exact ht
  | none =>
    simp only [hrefusal,true_and] at hat
    obtain ⟨-,-,hfree⟩ := refusal?_eq_none.1 hrefusal
    have hdir : ∀ q, t.isDirectory q = true ∨ q <+: place →
        ((fileSystem c).store path b t).2.isDirectory q = true := by
      intro q hq
      rw [FileTree.isDirectory,hat,decide_eq_true_eq]
      split
      · next he =>
        subst he
        rcases hq with hq | hq
        · exact absurd hq (by simp [hfree])
        · exact absurd hq.length_le (by simp)
      · split
        · rfl
        · next hpre =>
          rcases hq with hq | hq
          · simpa [FileTree.isDirectory] using hq
          · exact absurd hq hpre
    refine ⟨hdir [] (.inl ht.top),fun {p x} h => hdir p ?_⟩
    have hcontains : ((fileSystem c).store path b t).2.contains (p ++ [x]) =
      (((fileSystem c).store path b t).2.at? (p ++ [x])).isSome := rfl
    rw [hcontains,hat] at h
    split at h
    · next he => exact .inr (List.append_inj_left' he rfl ▸ List.prefix_refl p)
    · split at h
      · next hpre => exact .inr ((List.prefix_append p [x]).trans hpre)
      · exact .inl (ht.above h)

end Stored

/-! Trees that agree from a directory on. -/

/-- Two closed trees in which the files of a directory and of those below it are the same, and
can be reached or not. The directories stand below `root`, and their files have one name. -/
structure Agree (root : List Text) (name : Text) (dir : List Text) (t t' : FileTree) : Prop where
  closed : t.Closed
  closed' : t'.Closed
  files : ∀ names, t.at? (root ++ (dir ++ names) ++ [name]) = t'.at? (root ++ (dir ++ names) ++ [name])
  ways : ∀ names, t.blocked [] (root ++ (dir ++ names)) = t'.blocked [] (root ++ (dir ++ names))
  ends : ∀ names, t.isFile (root ++ (dir ++ names)) = t'.isFile (root ++ (dir ++ names))

namespace Agree

variable {root dir : List Text} {name : Text} {t t' : FileTree}

theorem refusal?_eq (h : Agree root name dir t t') (names : List Text) :
    refusal? t (root ++ (dir ++ names)) name = refusal? t' (root ++ (dir ++ names)) name := by
  have hfile : t.isDirectory (root ++ (dir ++ names) ++ [name]) =
      t'.isDirectory (root ++ (dir ++ names) ++ [name]) := by
    simp only [FileTree.isDirectory,h.files]
  simp only [refusal?,h.ways,h.ends,hfile]

end Agree

section Local

variable {c : Config} (hc : c.readOnly = false) {file : List Text → Text} {root dir : List Text}
  {name : Text} (hfile : ∀ dir, AreNames dir → resolve c.root (file dir) = root ++ dir ++ [name])
  (hparent : ∀ dir, AreNames dir → resolve c.root (Path.parent (file dir)) = root ++ dir)

include hc hfile hparent

theorem Agree.store {names : List Text} {t t' : FileTree} (h : Agree root name dir t t')
    (hnames : AreNames (dir ++ names)) (b : Bytes) :
    ((fileSystem c).store (file (dir ++ names)) b t).1 =
        ((fileSystem c).store (file (dir ++ names)) b t').1 ∧
      Agree root name dir ((fileSystem c).store (file (dir ++ names)) b t).2
        ((fileSystem c).store (file (dir ++ names)) b t').2 := by
  have hf := hfile _ hnames
  have hp := hparent _ hnames
  have hrefusal := h.refusal?_eq names
  refine ⟨?_,closed_store hc h.closed hf hp b,closed_store hc h.closed' hf hp b,fun names' => ?_,
    fun names' => ?_,fun names' => ?_⟩
  · rw [store_eq hc h.closed hf hp,store_eq hc h.closed' hf hp,hrefusal]
    cases refusal? t' (root ++ (dir ++ names)) name <;> rfl
  · rw [at?_store hc h.closed hf hp,at?_store hc h.closed' hf hp,hrefusal,h.files]
  · rw [blocked_store hc h.closed hf hp,blocked_store hc h.closed' hf hp,hrefusal,h.ways]
  · rw [isFile_store hc h.closed hf hp,isFile_store hc h.closed' hf hp,hrefusal,h.ends]

/-- To store a file makes no difference to directories that lie neither at or above its own nor
behind it. -/
theorem agree_store_apart {t : FileTree} (ht : t.Closed) {dir' : List Text} (hdir : AreNames dir)
    (h : ¬ dir ++ [name] <+: dir') (h' : ¬ dir' <+: dir) (b : Bytes) :
    Agree root name dir' ((fileSystem c).store (file dir) b t).2 t := by
  have hf := hfile dir hdir
  have hp := hparent dir hdir
  refine ⟨closed_store hc ht hf hp b,ht,fun names => ?_,fun names => ?_,fun names => ?_⟩
  · obtain ⟨-,habove,hne⟩ := FileTree.files_apart h h' root names
    rw [at?_store hc ht hf hp,if_neg fun hn => hne hn.2,if_neg fun hn => habove hn.2]
  · obtain ⟨hbelow,-⟩ := FileTree.files_apart h h' root names
    rw [blocked_store hc ht hf hp,decide_eq_false fun hn => hbelow hn.2,Bool.or_false]
  · obtain ⟨hbelow,-⟩ := FileTree.files_apart h h' root names
    have hnot : ¬ (refusal? t (root ++ dir) name = none ∧
        root ++ (dir' ++ names) = root ++ dir ++ [name]) :=
      fun hn => hbelow (hn.2 ▸ List.prefix_refl _)
    rw [isFile_store hc ht hf hp,decide_eq_false hnot,Bool.or_false]

/-- The directories of a closed tree below a root keep out of each other's way. -/
def locality : FileSystem.Locality (fileSystem c) file where
  agree := Agree root name
  symm h := ⟨h.closed',h.closed,fun _ => (h.files _).symm,fun _ => (h.ways _).symm,
    fun _ => (h.ends _).symm⟩
  trans h h' := ⟨h.closed,h'.closed',fun _ => (h.files _).trans (h'.files _),
    fun _ => (h.ways _).trans (h'.ways _),fun _ => (h.ends _).trans (h'.ends _)⟩
  below names h := ⟨h.closed,h.closed',fun names' => by simpa using h.files (names ++ names'),
    fun names' => by simpa using h.ways (names ++ names'),
    fun names' => by simpa using h.ends (names ++ names')⟩
  has_eq {dir t t'} hdir h := by
    have hat : t.at? (root ++ dir ++ [name]) = t'.at? (root ++ dir ++ [name]) := by
      simpa using h.files []
    have hway : t.blocked [] (root ++ dir) = t'.blocked [] (root ++ dir) := by
      simpa using h.ways []
    have hcontains : t.contains (root ++ dir ++ [name]) = t'.contains (root ++ dir ++ [name]) :=
      congrArg Option.isSome hat
    rw [has_eq h.closed (hfile dir hdir),has_eq h.closed' (hfile dir hdir),hway,hcontains]
  has_still dir dir' t h := by
    rw [show ((fileSystem c).has (file dir) t).2 = t from hasAt_still _ _]
    exact h
  read_eq {dir t t'} hdir h := by
    have hat : t.at? (root ++ dir ++ [name]) = t'.at? (root ++ dir ++ [name]) := by
      simpa using h.files []
    have hway : t.blocked [] (root ++ dir) = t'.blocked [] (root ++ dir) := by
      simpa using h.ways []
    rw [read_eq h.closed (hfile dir hdir),read_eq h.closed' (hfile dir hdir),hway,hat]
  read_still dir dir' t h := by
    rw [show ((fileSystem c).read (file dir) t).2 = t from readAt_still _ _]
    exact h
  store_eq _ _ b _ _ hnames h := h.store hc hfile hparent hnames b
  store_apart hdir h h' hfine := agree_store_apart hc hfile hparent hfine.closed hdir
    (fun hpre => h ((List.prefix_append _ _).trans hpre)) h' _
  store_refused {dir b t err} hdir h hrefused := by
    have hstore := store_eq hc h.closed (hfile dir hdir) (hparent dir hdir) b
    rw [hstore] at hrefused ⊢
    cases hrefusal : refusal? t (root ++ dir) name with
    | none => simp [hrefusal] at hrefused
    | some err' => exact h
  has_stored {dir b t} hdir h hok := by
    have hf := hfile dir hdir
    have hp := hparent dir hdir
    have hstore := store_eq hc h.closed hf hp b
    have hrefusal : refusal? t (root ++ dir) name = none := by
      rw [hstore] at hok
      cases hrefusal : refusal? t (root ++ dir) name with
      | none => rfl
      | some err => simp [hrefusal] at hok
    have hat := at?_store hc h.closed hf hp b (root ++ dir ++ [name])
    rw [if_pos ⟨hrefusal,rfl⟩] at hat
    exact has_of_contains (closed_store hc h.closed hf hp b) hf (congrArg Option.isSome hat)
  has_kept {dir dir' b t} hdir hdir' h hhad := by
    have hf := hfile dir' hdir'
    have hp := hparent dir' hdir'
    obtain ⟨-,hhere⟩ := has_eq_ok h.closed (hfile dir hdir) hhad
    exact has_of_contains (closed_store hc h.closed hf hp b) (hfile dir hdir)
      (contains_store hc h.closed hf hp b hhere)
  has_before {dir dir' b t} hdir hdir' h hlacks := by
    have hf := hfile dir' hdir'
    have hp := hparent dir' hdir'
    obtain ⟨hclear,hgone⟩ := has_eq_ok (closed_store hc h.closed hf hp b) (hfile dir hdir) hlacks
    rw [blocked_store hc h.closed hf hp,Bool.or_eq_false_iff] at hclear
    have hnone : t.contains (root ++ dir ++ [name]) = false := by
      refine Bool.eq_false_iff.2 fun hhere => ?_
      exact Bool.false_ne_true (hgone.symm.trans (contains_store hc h.closed hf hp b hhere))
    rw [has_eq h.closed (hfile dir hdir),hclear.1,hnone]
    rfl

theorem locality_layered : (locality hc hfile hparent).Layered name :=
  fun hdir h h' hfine => agree_store_apart hc hfile hparent hfine.closed hdir h h' _

end Local

def readOnlyLocality {c : Config} (hc : c.readOnly = true) (file : List Text → Text) :
    FileSystem.Locality (fileSystem c) file :=
  .ofReadOnly (fun _ _ => hasAt_still _ _) (fun _ _ => readAt_still _ _)
    fun path b t => by
      have hmake : (fileSystem c).makeDir (Path.parent path) true t =
          (.error (.file .readOnly),t) := by
        simp only [fileSystem,guarded,hc,if_true]
        rfl
      exact ⟨.file .readOnly,by rw [FileSystem.store,Action.bind_eq,hmake]⟩

end Disk
end Realm
