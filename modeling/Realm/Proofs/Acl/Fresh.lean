import Realm.Proofs.Acl.Alike
import Realm.Proofs.Acl.Nodes
import Realm.Proofs.FileSystem.Contents

/-! The access engine without a cache: each step reads from the shadow files what it needs,
and an engine that keeps nodes does the same. -/
namespace Realm.Acl

open Realm.Path (ofSegments AreNames)

variable {σ α β : Type}

namespace Fresh

def create (e : Engine σ) (n : Node) (name : Text) : Action σ Node := do
  let dir := Path.child n.path name
  let c := Node.new dir (n.depth + 1) name (e.source dir)
  e.persist c
  pure c

/-- Go down through some names below a pattern, where everything is at hand. -/
def inside (groups : Groups) (identity : Text) :
    List Text → Node → Bindings → Permission → Permission
  | [], _, _, total => total
  | name :: names, n, bindings, total =>
    match Table.get? name n.children with
    | some c => inside groups identity names c bindings (c.apply groups bindings identity total)
    | none =>
      match n.match? name with
      | some (_,c,bound) =>
        let bindings := Table.insertAll bound bindings
        inside groups identity names c bindings (c.apply groups bindings identity total)
      | none =>
        match Table.get? name n.files with
        | some f => f.apply groups bindings identity total
        | none => total

/-- Go down through some names, gathering what an identity may do. -/
def resolve (e : Engine σ) (identity : Text) :
    List Text → Node → Bindings → Permission → Action σ Permission
  | [], _, _, total => pure total
  | name :: names, n, bindings, total => do
    match ← e.load (Path.child n.path name) (n.depth + 1) name with
    | some c => resolve e identity names c bindings (c.apply e.groups bindings identity total)
    | none =>
      match n.match? name with
      | some (_,c,bound) =>
        let bindings := Table.insertAll bound bindings
        pure (inside e.groups identity names c bindings
          (c.apply e.groups bindings identity total))
      | none =>
        match Table.get? name n.files with
        | some f => pure (f.apply e.groups bindings identity total)
        | none =>
          if names.isEmpty then pure total
          else do
            let c ← create e n name
            resolve e identity names c bindings (c.apply e.groups bindings identity total)

def visitDirectory (e : Engine σ) (absent : Option α) (visit : Node → Action σ α) :
    List Text → Node → Action σ α
  | [], n => visit n
  | name :: names, n => do
    match ← e.load (Path.child n.path name) (n.depth + 1) name with
    | some c => visitDirectory e absent visit names c
    | none =>
      match absent with
      | some a => pure a
      | none => do
        let c ← create e n name
        visitDirectory e absent visit names c

def visitTop (e : Engine σ) (visit : Node → Action σ α) : Action σ α := do
  match ← e.load ['/'] 0 [] with
  | some n => visit n
  | none => visit (Node.new ['/'] 0 [] (e.source ['/']))

def change (e : Engine σ) (change : Change) (n : Node) : Action σ Node := do
  match change.apply n with
  | .error err => throw err
  | .ok n' => do
    e.persist n'
    pure n

end Fresh

/-! Where nodes are stored. -/

def aclName : Text := ".acl".toList

/-- Names that lead to a directory of which there may be a shadow file. -/
def Plain (dir : List Text) : Prop :=
  AreNames dir ∧ aclName ∉ dir

theorem Plain.of_append {dir dir' : List Text} (h : Plain (dir ++ dir')) : Plain dir :=
  ⟨h.1.of_append.1,fun hm => h.2 (by simp [hm])⟩

namespace Engine

/-- The places of the shadow files of an engine. -/
def IsShadowFile (e : Engine σ) (p : Text) : Prop :=
  ∃ dir, Plain dir ∧ p = e.shadowPath (ofSegments dir)

theorem isName_aclName : Path.IsName aclName := by
  refine ⟨?_,?_,?_,?_⟩ <;> decide

theorem areNames_aclName : AreNames [aclName] := by
  intro s hs
  obtain rfl := List.mem_singleton.1 hs
  exact isName_aclName

theorem shadowPath_ofSegments {e : Engine σ} {root : List Text} (hr : e.shadowRoot = ofSegments root)
    (hroot : AreNames root) {dir : List Text} (hdir : AreNames dir) :
    e.shadowPath (ofSegments dir) = ofSegments (root ++ dir ++ [aclName]) := by
  have hchild := Path.child_ofSegments (hroot.append hdir) aclName
  rw [← hchild,shadowPath,hr]
  show Path.child _ aclName = _
  congr 1
  by_cases hd : dir = []
  · subst hd
    simp [ofSegments]
  · rw [if_neg (mt (Path.ofSegments_eq_top_iff hdir).1 hd)]
    by_cases hr : root = []
    · subst hr
      rw [if_pos (by rfl)]
      rfl
    · rw [if_neg (mt (Path.ofSegments_eq_top_iff hroot).1 hr),Path.ofSegments_append hr]
      simp [ofSegments,hd]

/-- Where the shadow file of a directory lies, and the directory that holds it. -/
theorem shadowFile_spec {e : Engine σ} (hroot : Path.IsNormal e.shadowRoot) {dir : List Text}
    (hdir : AreNames dir) :
    AreNames (Path.segments e.shadowRoot ++ dir) ∧
      e.shadowPath (ofSegments dir) = ofSegments (Path.segments e.shadowRoot ++ dir ++ [aclName]) ∧
      Path.parent (e.shadowPath (ofSegments dir)) = ofSegments (Path.segments e.shadowRoot ++ dir) := by
  obtain ⟨root,hr,hnames⟩ := Path.isNormal_iff.1 hroot
  have hsegments : Path.segments e.shadowRoot = root := by rw [hr,Path.segments_ofSegments hnames]
  have hpath := shadowPath_ofSegments hr hnames hdir
  rw [hsegments]
  exact ⟨hnames.append hdir,hpath,by rw [hpath,Path.parent_ofSegments isName_aclName.2.2.2]⟩

theorem shadowPath_inj {e : Engine σ} (hr : Path.IsNormal e.shadowRoot) {dir dir' : List Text}
    (hd : AreNames dir) (hd' : AreNames dir')
    (h : e.shadowPath (ofSegments dir) = e.shadowPath (ofSegments dir')) : dir = dir' := by
  obtain ⟨root,hr,hroot⟩ := Path.isNormal_iff.1 hr
  rw [shadowPath_ofSegments hr hroot hd,shadowPath_ofSegments hr hroot hd'] at h
  have h := Path.ofSegments_inj ((hroot.append hd).append areNames_aclName)
    ((hroot.append hd').append areNames_aclName) h
  simpa using h

/-- The engine, with a note of whether a change of its shadow files was ever refused. -/
def noting (e : Engine σ) : Engine (σ × Bool) where
  shadow := e.shadow.noting
  shadowRoot := e.shadowRoot
  groups := e.groups
  source := e.source

end Engine

def Accepts (dir : List Text) (bytes : Bytes) (n : Node) : Prop :=
  ∃ s, Shadow.ofBytes bytes = .ok s ∧
    Node.ofShadow (ofSegments dir) dir.length (dir.getLastD []) s = .ok n

section Keeping

variable {e : Engine σ} (F : FileSystem.Contents e.shadow e.IsShadowFile)

def fileAt (v : σ × Bool) (dir : List Text) : Option Bytes :=
  F.seen v.1 (e.shadowPath (ofSegments dir))

/-- Nothing has been refused, and all shadow files can be read and stored again. -/
structure Ready (v : σ × Bool) : Prop where
  unrefused : v.2 = false
  fine : F.fine v.1
  accepted : ∀ dir, Plain dir → ∀ bytes, fileAt F v dir = some bytes →
    ∃ n, Accepts dir bytes n ∧ n.Sound

/-- The node that is to be kept for a directory: that of its shadow file. The top needs
none. -/
def Stored (v : σ × Bool) (dir : List Text) (n : Node) : Prop :=
  (∃ bytes, fileAt F v dir = some bytes ∧ Accepts dir bytes n ∧ n.Sound) ∨
    (dir = [] ∧ fileAt F v dir = none ∧ n = Node.new ['/'] 0 [] (e.source ['/']))

/-- A node is that of its directory, and so are those kept below it. -/
inductive Kept (v : σ × Bool) : List Text → Node → Prop
  | mk {dir : List Text} {n : Node} (plain : Plain dir) (stored : Stored F v dir n.bare)
    (below : ∀ name c, Table.get? name n.children = some c → Kept v (dir ++ [name]) c) :
    Kept v dir n

/-- After a visit, the node of its directory is kept again, and only shadow files from there
on have been changed. -/
structure Settled (v v' : σ × Bool) (dir : List Text) (n : Node) : Prop where
  ready : Ready F v'
  kept : Kept F v' dir n
  frame : ∀ dir', Plain dir' → ¬ dir <+: dir' → fileAt F v' dir' = fileAt F v dir'

variable {F} {v v' : σ × Bool} {dir : List Text} {n : Node}

theorem Accepts.spec {bytes : Bytes} (h : Accepts dir bytes n) :
    n.path = ofSegments dir ∧ n.depth = dir.length ∧ n.name = dir.getLastD [] ∧ n.bare = n := by
  obtain ⟨s,-,hs⟩ := h
  obtain ⟨h₁,h₂,h₃,-,h₄⟩ := ofShadow_spec hs
  exact ⟨h₁,h₂,h₃,h₄⟩

theorem Stored.spec (hsrc : ∀ d, (e.source d).Sorted) (h : Stored F v dir n) :
    n.Sound ∧ n.path = ofSegments dir ∧ n.depth = dir.length ∧ n.name = dir.getLastD [] := by
  rcases h with ⟨bytes,-,ha,hs⟩ | ⟨rfl,-,rfl⟩
  · obtain ⟨h₁,h₂,h₃,-⟩ := ha.spec
    exact ⟨hs,h₁,h₂,h₃⟩
  · exact ⟨Node.sound_new (hsrc _),rfl,rfl,rfl⟩

theorem Kept.spec (hsrc : ∀ d, (e.source d).Sorted) (h : Kept F v dir n) :
    n.Sound ∧ n.path = ofSegments dir ∧ n.depth = dir.length ∧ n.name = dir.getLastD [] := by
  cases h with
  | mk _ hst _ =>
    obtain ⟨hs,hp,hd,hn⟩ := hst.spec hsrc
    refine ⟨Node.sound_bare_iff.1 hs,?_,?_,?_⟩
    · rwa [Node.path_bare] at hp
    · rwa [Node.depth_bare] at hd
    · rwa [Node.name_bare] at hn

theorem Stored.bare_eq (h : Stored F v dir n) : n.bare = n := by
  rcases h with ⟨_,-,ha,-⟩ | ⟨-,-,rfl⟩
  · exact ha.spec.2.2.2
  · rfl

theorem Kept.of_stored (hp : Plain dir) (h : Stored F v dir n) : Kept F v dir n := by
  have hnone : n.children = [] := by
    rw [← h.bare_eq]
    cases n
    rfl
  exact .mk hp (by rwa [h.bare_eq]) (by simp [hnone,Table.get?])

theorem Accepts.unique {bytes : Bytes} {m : Node} (h : Accepts dir bytes n)
    (h' : Accepts dir bytes m) : n = m := by
  obtain ⟨s,hs,hn⟩ := h
  obtain ⟨s',hs',hm⟩ := h'
  obtain rfl : s = s' := Except.ok.inj (hs.symm.trans hs')
  exact Except.ok.inj (hn.symm.trans hm)

theorem Stored.unique {m : Node} (h : Stored F v dir n) (h' : Stored F v dir m) : n = m := by
  rcases h with ⟨bytes,hb,ha,-⟩ | ⟨-,hb,hn⟩ <;> rcases h' with ⟨bytes',hb',ha',-⟩ | ⟨-,hb',hm⟩
  · obtain rfl : bytes = bytes' := Option.some.inj (hb.symm.trans hb')
    exact ha.unique ha'
  · simp [hb] at hb'
  · simp [hb] at hb'
  · rw [hn,hm]

theorem Stored.congr (h : Stored F v dir n) (hf : fileAt F v' dir = fileAt F v dir) :
    Stored F v' dir n := by
  rcases h with ⟨bytes,hb,ha⟩ | ⟨hd,hb,hn⟩
  · exact .inl ⟨bytes,by rw [hf,hb],ha⟩
  · exact .inr ⟨hd,by rw [hf,hb],hn⟩

theorem Kept.congr (h : Kept F v dir n)
    (hf : ∀ dir', Plain dir' → dir <+: dir' → fileAt F v' dir' = fileAt F v dir') :
    Kept F v' dir n := by
  induction h with
  | @mk dir n hp hst _ ih =>
    refine .mk hp (hst.congr (hf dir hp (List.prefix_refl dir))) fun name c hc => ?_
    exact ih name c hc fun dir' hp' hpre => hf dir' hp' ((List.prefix_append dir _).trans hpre)

theorem Settled.trans {v'' : σ × Bool} {n' : Node} (h : Settled F v v' dir n)
    (h' : Settled F v' v'' dir n') : Settled F v v'' dir n' :=
  ⟨h'.ready,h'.kept,fun dir' hp hn => (h'.frame dir' hp hn).trans (h.frame dir' hp hn)⟩

theorem not_concat_isPrefix (dir : List Text) (name : Text) : ¬ dir ++ [name] <+: dir := by
  intro h
  have hl := h.length_le
  rw [List.length_append,List.length_singleton] at hl
  omega

theorem eq_of_concat_isPrefix {dir dir' : List Text} {a b : Text} (h : dir ++ [a] <+: dir')
    (h' : dir ++ [b] <+: dir') : a = b := by
  have h := List.prefix_of_prefix_length_le h h' (by simp)
  obtain ⟨t,ht⟩ := h
  simp at ht
  exact ht.1

theorem Settled.child {name : Text} {c : Node} (hK : Kept F v dir n)
    (h : Settled F v v' (dir ++ [name]) c) : Settled F v v' dir (n.withChild name c) := by
  refine ⟨h.ready,?_,fun dir' hp hn => h.frame dir' hp fun hpre =>
    hn ((List.prefix_append dir _).trans hpre)⟩
  cases hK with
  | mk hp hst hbelow =>
    refine .mk hp ?_ fun name' c' hc => ?_
    · rw [Node.bare_withChild]
      exact hst.congr (h.frame dir hp (not_concat_isPrefix dir name))
    · rw [Node.children_withChild] at hc
      by_cases hname : name' = name
      · subst hname
        rw [Table.get?_insert_self] at hc
        cases hc
        exact h.kept
      · rw [Table.get?_insert_of_ne hname] at hc
        exact (hbelow name' c' hc).congr fun dir' hp' hpre => h.frame dir' hp' fun hpre' =>
          hname (eq_of_concat_isPrefix hpre hpre')

end Keeping

end Realm.Acl
