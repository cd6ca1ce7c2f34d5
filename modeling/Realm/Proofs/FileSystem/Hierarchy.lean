import Realm.FileSystem.Tree
import Realm.Proofs.Path
import Realm.Proofs.Table

/-! Directories that hold files and directories. The operations of a file system are said here
of such a hierarchy itself: they look at the node that a path leads to, or put another node in
its place. -/
namespace Realm

/-- A file, or a directory with what it holds under each name. -/
inductive FileNode where
  | file (content : Bytes)
  | directory (entries : List (Text × FileNode))

namespace FileNode

open FileTree (Entry)

def entry : FileNode → Entry
  | file content => .file content
  | directory _ => .directory

def find? : List Text → Option FileNode → Option FileNode
  | [],node? => node?
  | name :: names,some (directory es) => find? names (Table.get? name es)
  | _ :: _,_ => none

def at? (place : List Text) (node? : Option FileNode) : Option Entry :=
  (find? place node?).map entry

def assign (name : Text) (node? : Option FileNode) (es : Table Text FileNode) :
    Table Text FileNode :=
  match node? with
  | some node => es.insert name node
  | none => es.erase name

/-- Put a node, or nothing, where names lead to. Without a directory to hold it, all stays. -/
def put (new? : Option FileNode) : List Text → Option FileNode → Option FileNode
  | [],_ => new?
  | name :: names,some (directory es) =>
    some (directory (assign name (put new? names (Table.get? name es)) es))
  | _ :: _,old? => old?

/-! The operations. -/

/-- Change what stands at a place, if the directory that is to hold it is there. -/
def alter (place : List Text) (missing : FileError)
    (change : Option FileNode → Except FileError (Option FileNode)) (node : FileNode) :
    Except FileError (Option FileNode) := do
  if place ≠ [] ∧ at? place.dropLast (some node) ≠ some .directory then throw missing
  let new? ← change (find? place (some node))
  pure (put new? place (some node))

def fill (content : Option Bytes → Bytes) : Option FileNode → Except FileError (Option FileNode)
  | none => pure (some (file (content none)))
  | some (file old) => pure (some (file (content (some old))))
  | some (directory _) => throw .isDirectory

def create : Option FileNode → Except FileError (Option FileNode)
  | none => pure (some (directory []))
  | some _ => throw .directoryExists

def delete (missing : FileError) (recursive : Bool) :
    Option FileNode → Except FileError (Option FileNode)
  | none => throw missing
  | some (directory (_ :: _)) => if recursive then pure none else throw .directoryNotEmpty
  | some (directory []) => pure none
  | some (file _) => pure none

/-- Create the directories on the way down through some names, as far as they are missing. -/
def makeWay : List Text → FileNode → Except FileError FileNode
  | _,file _ => throw .notDirectory
  | [],directory es => pure (directory es)
  | name :: names,directory es => do
    let child ← makeWay names ((Table.get? name es).getD (directory []))
    pure (directory (Table.insert name child es))

def content : FileNode → Except FileError Bytes
  | file content => pure content
  | directory _ => throw .isDirectory

def children : FileNode → Except FileError (List DirectoryEntry)
  | file _ => throw .notDirectory
  | directory es => pure (es.map fun e => ⟨e.1,e.2.entry.info⟩)

def look {α : Type} (path : Text) (see : FileNode → Except FileError α) : Action FileNode α := do
  let top ← get
  match find? (Path.segments path) (some top) with
  | none => throw (.file (.notFound (Path.normalize path)))
  | some node =>
    match see node with
    | .ok a => pure a
    | .error err => throw (.file err)

/-- Take what an operation makes of the hierarchy. Its top is never taken away. -/
def become (operation : FileNode → Except FileError (Option FileNode)) : Action FileNode Unit := do
  let top ← get
  match operation top with
  | .ok new? => set (new?.getD (directory []))
  | .error err => throw (.file err)

def fileSystem : FileSystem FileNode where
  read path := look path content
  write path new := become (alter (Path.segments path) .parentNotFound (fill fun _ => new))
  append path more :=
    become (alter (Path.segments path) .parentNotFound (fill fun old? => old?.getD [] ++ more))
  makeDir path recursive :=
    if recursive then become fun top => some <$> makeWay (Path.segments path) top
    else become (alter (Path.segments path) .parentNotFound create)
  remove path recursive :=
    become (alter (Path.segments path) (.notFound (Path.normalize path))
      (delete (.notFound (Path.normalize path)) recursive))
  stat path := look path fun node => pure node.entry.info
  list path := look path children
  has path := do
    let top ← get
    pure (find? (Path.segments path) (some top)).isSome

/-! Nodes that are put in place. -/

variable {node? new? : Option FileNode} {es : List (Text × FileNode)} {place names q : List Text}
  {name : Text}

@[simp] theorem find?_cons (name : Text) (names : List Text) (es : List (Text × FileNode)) :
    find? (name :: names) (some (directory es)) = find? names (Table.get? name es) :=
  rfl

@[simp] theorem find?_none (place : List Text) : find? place none = none := by
  cases place <;> rfl

theorem find?_append (place names : List Text) (node? : Option FileNode) :
    find? (place ++ names) node? = find? names (find? place node?) := by
  induction place generalizing node? with
  | nil => rfl
  | cons name place ih =>
    rcases node? with _ | (c | es)
    · simp
    · exact (find?_none names).symm
    · exact ih _

theorem at?_eq_directory : at? place node? = some .directory ↔
    ∃ es, find? place node? = some (directory es) := by
  rw [at?]
  rcases find? place node? with _ | (_ | es) <;> simp [entry]

@[simp] theorem get?_assign (x name : Text) (node? : Option FileNode) (es : Table Text FileNode) :
    Table.get? x (assign name node? es) = if x = name then node? else Table.get? x es := by
  cases node? with
  | some node => exact Table.get?_insert x name node es
  | none =>
    rw [assign,Table.erase,Table.get?_filter (fun k => decide (k ≠ name))]
    by_cases h : x = name <;> simp [h]

/-- A node that is put in its place is there with all that it holds, and the rest is as it was. -/
theorem at?_put (h : place = [] ∨ at? place.dropLast node? = some .directory) :
    at? q (put new? place node?) =
      if place <+: q then at? (q.drop place.length) new? else at? q node? := by
  induction place generalizing node? q with
  | nil => simp [put]
  | cons name names ih =>
    obtain ⟨es,rfl⟩ : ∃ es, node? = some (directory es) := by
      have h := h.resolve_left (by simp)
      rcases node? with _ | (c | es)
      · simp [at?] at h
      · rw [at?_eq_directory] at h
        obtain ⟨es,h⟩ := h
        cases hn : (name :: names).dropLast <;> rw [hn] at h <;> simp [find?] at h
      · exact ⟨es,rfl⟩
    have hnames : names = [] ∨ at? names.dropLast (Table.get? name es) = some .directory := by
      cases names with
      | nil => exact .inl rfl
      | cons x names => exact .inr (h.resolve_left (by simp))
    cases q with
    | nil => rfl
    | cons x q =>
      rw [put,at?,find?_cons,get?_assign]
      by_cases hx : x = name
      · subst hx
        have hchild := ih (q := q) hnames
        rw [at?] at hchild
        simpa [at?,find?] using hchild
      · simp [hx,Ne.symm hx,at?,find?]

/-! The order of the names. -/

def Ordered (node? : Option FileNode) : Prop :=
  ∀ place es, find? place node? = some (directory es) → Table.Sorted es

theorem ordered_none : Ordered none := by
  intro place es h
  rw [find?_none] at h
  cases h

theorem ordered_file (c : Bytes) : Ordered (some (file c)) := by
  intro place es h
  cases place <;> cases h

theorem ordered_directory : Ordered (some (directory es)) ↔
    Table.Sorted es ∧ ∀ name, Ordered (Table.get? name es) := by
  constructor
  · exact fun h => ⟨h [] es rfl,fun name place => h (name :: place)⟩
  · rintro ⟨hes,h⟩ place es' hfind
    cases place with
    | nil =>
      cases hfind
      exact hes
    | cons name place => exact h name place es' hfind

theorem sorted_assign {es : Table Text FileNode} (h : es.Sorted) (name : Text)
    (node? : Option FileNode) : Table.Sorted (assign name node? es) := by
  cases node? with
  | none => exact h.erase name
  | some node => exact h.insert name node

theorem ordered_put (h : Ordered node?) (hnew : Ordered new?) (place : List Text) :
    Ordered (put new? place node?) := by
  induction place generalizing node? with
  | nil => exact hnew
  | cons name names ih =>
    rcases node? with _ | (c | es)
    · exact h
    · exact h
    · obtain ⟨hes,hchildren⟩ := ordered_directory.1 h
      refine ordered_directory.2 ⟨sorted_assign hes name _,fun x => ?_⟩
      rw [get?_assign]
      split
      · exact ih (hchildren name)
      · exact hchildren x

/-- What holds of a directory because it holds of all nodes in it, holds of all nodes. -/
@[elab_as_elim] theorem ind {motive : FileNode → Prop} (file : ∀ c, motive (file c))
    (directory : ∀ es, (∀ e ∈ es, motive e.2) → motive (directory es)) : ∀ node, motive node
  | .file c => file c
  | .directory es => directory es fun e _he => ind file directory e.2
termination_by node => sizeOf node
decreasing_by
  have hsize := List.sizeOf_lt_of_mem _he
  obtain ⟨name,node⟩ := e
  simp only [Prod.mk.sizeOf_spec,FileNode.directory.sizeOf_spec] at hsize ⊢
  omega

/-- Hierarchies in order that hold the same in all places are the same. -/
theorem eq_of_entries {a b : FileNode} (ha : Ordered (some a)) (hb : Ordered (some b))
    (h : ∀ q, at? q (some a) = at? q (some b)) : a = b := by
  induction a using ind generalizing b with
  | file c =>
    cases b with
    | file c' => simpa [at?,find?,entry] using h []
    | directory es => simpa [at?,find?,entry] using h []
  | directory es ih =>
    cases b with
    | file c => simpa [at?,find?,entry] using h []
    | directory es' =>
      obtain ⟨hes,hchildren⟩ := ordered_directory.1 ha
      obtain ⟨hes',hchildren'⟩ := ordered_directory.1 hb
      refine congrArg _ (Table.Sorted.ext hes hes' fun name => ?_)
      have hnames : ∀ q, at? q (Table.get? name es) = at? q (Table.get? name es') :=
        fun q => h (name :: q)
      have hchild := hchildren name
      have hchild' := hchildren' name
      cases hget : Table.get? name es with
      | none =>
        cases hget' : Table.get? name es' with
        | none => rfl
        | some b => simpa [hget,hget',at?,find?] using hnames []
      | some a =>
        cases hget' : Table.get? name es' with
        | none => simpa [hget,hget',at?,find?] using hnames []
        | some b =>
          rw [hget,hget'] at hnames
          rw [hget] at hchild
          rw [hget'] at hchild'
          exact congrArg _ (ih _ (Table.mem_of_get? hget) hchild hchild' hnames)

/-! Ways. -/

theorem makeWay_blocked {top : FileNode} {c : Bytes}
    (h : ∃ way, way <+: names ∧ at? way (some top) = some (.file c)) :
    makeWay names top = .error .notDirectory := by
  induction names generalizing top with
  | nil =>
    obtain ⟨way,hpre,hfile⟩ := h
    obtain rfl := List.prefix_nil.1 hpre
    cases top with
    | file c' => rfl
    | directory es => simp [at?,find?,entry] at hfile
  | cons name names ih =>
    obtain ⟨way,hpre,hfile⟩ := h
    cases top with
    | file c' => rfl
    | directory es =>
      cases way with
      | nil => simp [at?,find?,entry] at hfile
      | cons x way =>
        obtain ⟨rfl,hway⟩ := List.cons_prefix_cons.1 hpre
        rw [at?,find?_cons] at hfile
        cases hget : Table.get? x es with
        | none => simp [hget] at hfile
        | some child =>
          rw [hget] at hfile
          rw [makeWay,hget,Option.getD_some,ih ⟨way,hway,hfile⟩]
          rfl

/-- Where no file is on the way, all of it becomes directories, and the rest is as it was. -/
theorem makeWay_clear {top : FileNode} (hordered : Ordered (some top))
    (h : ∀ way c, way <+: names → at? way (some top) ≠ some (.file c)) :
    ∃ top', makeWay names top = .ok top' ∧ Ordered (some top') ∧
      ∀ q, at? q (some top') = if q <+: names then some .directory else at? q (some top) := by
  induction names generalizing top with
  | nil =>
    cases top with
    | file c => exact absurd rfl (h [] c (List.prefix_refl _))
    | directory es =>
      refine ⟨_,rfl,hordered,fun q => ?_⟩
      cases q <;> simp [at?,find?,entry]
  | cons name names ih =>
    cases top with
    | file c => exact absurd rfl (h [] c List.nil_prefix)
    | directory es =>
      obtain ⟨hes,hchildren⟩ := ordered_directory.1 hordered
      have hchild : Ordered (some ((Table.get? name es).getD (directory []))) := by
        have hchild := hchildren name
        cases hget : Table.get? name es with
        | none => exact ordered_directory.2 ⟨.nil,fun _ => ordered_none⟩
        | some child => rwa [hget] at hchild
      have hfind : ∀ x q, at? (x :: q) (some ((Table.get? name es).getD (directory []))) =
          at? (name :: x :: q) (some (directory es)) := by
        intro x q
        rw [at?,at?,find?_cons name]
        cases Table.get? name es with
        | none => rw [Option.getD_none,find?_cons,Table.get?,find?_none,find?_none]
        | some child => rfl
      obtain ⟨child,hmade,hchild',hall⟩ := ih hchild fun way c hpre => by
        cases way with
        | nil =>
          have hname := h [name] c (by simp)
          rw [at?,find?_cons] at hname
          cases hget : Table.get? name es with
          | none => simp [at?,find?,entry]
          | some node => rwa [hget] at hname
        | cons x way =>
          rw [hfind]
          exact h (name :: x :: way) c (by simpa using hpre)
      refine ⟨directory (Table.insert name child es),?_,?_,fun q => ?_⟩
      · rw [makeWay,hmade]
        rfl
      · refine ordered_directory.2 ⟨Table.Sorted.insert hes name child,fun x => ?_⟩
        rw [Table.get?_insert]
        split
        · exact hchild'
        · exact hchildren x
      · cases q with
        | nil => simp [at?,find?,entry]
        | cons x q =>
          rw [at?,find?_cons,Table.get?_insert]
          by_cases hx : x = name
          · subst hx
            have hq := hall q
            rw [at?] at hq
            rw [if_pos rfl,hq]
            cases q with
            | nil => simp
            | cons y q => rw [hfind]; simp
          · simp [hx,at?,find?]

end FileNode
end Realm
