import Mathlib.Data.List.Induction
import Realm.Proofs.FileSystem.Disk
import Realm.Proofs.Routing

/-! One notion of normal path. Texts are brought into normal form for the rules of access, and the
file systems walk along the components of a path on their own; all of them come to the same
segments. So a path leads no further up than the top of a file system, or the directory of the
host that is shown as one. -/
namespace Realm

namespace Path

/-- A part of a path as the host tells them apart: the slash at its beginning, a dot at its
beginning, the way up and a name. -/
inductive Component where
  | top
  | here
  | up
  | name (text : Text)
deriving DecidableEq, Repr

def Component.ofPart (part : Text) : Component :=
  if part = Path.up then up else name part

/-- The components of a path. Repeated slashes count once, one at the end does not count, and a
dot counts at the beginning of a relative path only. -/
def components (path : Text) : List Component :=
  let more := (parts path).map Component.ofPart
  if isAbsolute path then .top :: more
  else if (pieces path).head? = some ['.'] then .here :: more
  else more

example : components ['.','/','a','/','/','.','/','.','.','/','b','/'] =
    [.here,.name ['a'],.up,.name ['b']] := by
  decide

/-- A walk that the beginning of a path does not move goes by the parts of the path. -/
theorem foldl_components {α : Type} {walk : α → Component → α} (htop : ∀ a, walk a .top = a)
    (hhere : ∀ a, walk a .here = a) (a : α) (path : Text) :
    (components path).foldl walk a =
      (parts path).foldl (fun a part => walk a (.ofPart part)) a := by
  rw [components]
  split
  · rw [List.foldl_cons,htop,List.foldl_map]
  · split
    · rw [List.foldl_cons,hhere,List.foldl_map]
    · rw [List.foldl_map]

@[simp] theorem normalize_normalize (path : Text) : normalize (normalize path) = normalize path :=
  (isNormal_normalize path).normalize_eq

@[simp] theorem resolve_normalize (cwd path : Text) :
    resolve (normalize cwd) path = resolve cwd path := by
  rw [resolve,resolve]
  split
  · rfl
  · rw [normalize,segments_behind,segments_normalize,← segments_behind,normalize]

/-- A path in normal form falls apart into its directory and its last segment. -/
theorem IsNormal.split {path : Text} (h : IsNormal path) (hne : path ≠ ['/']) :
    child (parent path) (fileName path) = path ∧ IsNormal (parent path) := by
  obtain ⟨segs,rfl,hsegs⟩ := h
  have hsegs : AreNames segs := hsegs
  cases segs using List.reverseRecOn with
  | nil => exact absurd rfl hne
  | append_singleton above name =>
    obtain ⟨habove,hname⟩ := hsegs.of_append
    have hslash := (hname name (.head _)).2.2.2
    rw [parent_ofSegments hslash,fileName_ofSegments hslash,child_ofSegments habove]
    exact ⟨rfl,above,rfl,habove⟩

theorem IsNormal.isWithin_iff {path top : Text} (h : IsNormal path) (ht : IsNormal top) :
    isWithin path top = true ↔ segments top <+: segments path := by
  rw [← isWithin_normalize ht,h.normalize_eq]

end Path

open Realm.Path (Component)

/-- A step of a walk in a file system in memory: the way up leaves the directory entered last, and
stays at the top. -/
def Memory.enter (place : List Text) : Component → List Text
  | .name text => place ++ [text]
  | .up => place.dropLast
  | .top | .here => place

theorem Memory.locate_eq_foldl (path : Text) :
    locate path = (Path.components path).foldl enter [] := by
  rw [Path.foldl_components (fun _ => rfl) (fun _ => rfl),locate]
  congr 1
  funext place part
  by_cases hup : part = Path.up
  · simp [Component.ofPart,hup,enter]
  · simp [Component.ofPart,hup,enter]

namespace Disk

/-- A step of a walk below a directory of the host, with the number of names that it is below the
directory: the way up is taken as long as there are any. -/
def enter : List Text × Nat → Component → List Text × Nat
  | (place,depth), .name text => (place ++ [text],depth + 1)
  | (place,depth + 1), .up => (place.dropLast,depth)
  | (place,0), .up => (place,0)
  | walk, .top | walk, .here => walk

theorem resolve_eq_foldl (root : List Text) (path : Text) :
    resolve root path = ((Path.components path).foldl enter (root,0)).1 := by
  rw [Path.foldl_components (fun _ => rfl) (fun _ => rfl),resolve]
  congr 2
  funext walk part
  obtain ⟨place,depth⟩ := walk
  by_cases hup : part = Path.up
  · cases depth <;> simp [Component.ofPart,hup,enter]
  · simp [Component.ofPart,hup,enter]

/-- Where a walk is that has left this trail below a directory, innermost name first. -/
def below (root trail : List Text) : List Text × Nat :=
  (root ++ trail.reverse,trail.length)

theorem resolve_eq_segments (root : List Text) (path : Text) :
    resolve root path = root ++ Path.segments path := by
  have hstart : (root,0) = below root [] := by simp [below]
  rw [resolve,hstart,Path.foldl_parts (below root) (fun trail => ?_) fun trail part hpart => ?_]
  · simp [below]
  · cases trail with
    | nil => rfl
    | cons name trail => simp [below,← List.append_assoc]
  · simp [below,hpart]

end Disk

/-- Whatever a path looks like, there is one list of names that it leads through: its normal form
is made of them, a file system in memory finds them as the place, and a file system of the host
goes down by them from its directory. -/
theorem Path.normal_form_agrees (path : Text) :
    (IsNormal (normalize path) ∧ normalize (normalize path) = normalize path) ∧
    (∀ cwd, resolve cwd path = resolve (normalize cwd) path) ∧
    (IsNormal path → path ≠ ['/'] →
      child (parent path) (fileName path) = path ∧ IsNormal (parent path)) ∧
    (∀ top, IsNormal path → IsNormal top →
      (isWithin path top = true ↔ segments top <+: segments path)) ∧
    (Memory.locate path = (components path).foldl Memory.enter [] ∧
      Memory.locate path = segments (normalize path)) ∧
    ∀ root, Disk.resolve root path = ((components path).foldl Disk.enter (root,0)).1 ∧
      Disk.resolve root path = root ++ segments (normalize path) ∧
      ∀ name ∈ segments (normalize path), IsName name := by
  rw [segments_normalize]
  exact ⟨⟨isNormal_normalize path,normalize_normalize path⟩,
    fun cwd => (resolve_normalize cwd path).symm,fun h hne => h.split hne,
    fun top h ht => h.isWithin_iff ht,
    ⟨Memory.locate_eq_foldl path,Memory.locate_eq_segments path⟩,
    fun root => ⟨Disk.resolve_eq_foldl root path,Disk.resolve_eq_segments root path,
      areNames_segments path⟩⟩

/-- A path of two names. -/
theorem Path.normal_form_agrees_nested :
    IsNormal ['/','a','/','b'] ∧
      child (parent ['/','a','/','b']) (fileName ['/','a','/','b']) = ['/','a','/','b'] ∧
      IsNormal (parent ['/','a','/','b']) ∧ segments ['/','a'] <+: segments ['/','a','/','b'] := by
  have hnormal : IsNormal ['/','a','/','b'] := ⟨[['a'],['b']],rfl,by decide⟩
  have htop : IsNormal ['/','a'] := ⟨[['a']],rfl,by decide⟩
  obtain ⟨-,-,hsplit,hwithin,-⟩ := normal_form_agrees ['/','a','/','b']
  obtain ⟨hchild,hparent⟩ := hsplit hnormal (by decide)
  exact ⟨hnormal,hchild,hparent,(hwithin _ hnormal htop).1 (by decide)⟩

end Realm
