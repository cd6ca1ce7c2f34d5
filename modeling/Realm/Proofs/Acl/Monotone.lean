import Realm.Proofs.Acl.Grants
import Realm.Proofs.Acl.InMemory
import Realm.Proofs.Acl.Placed
import Realm.Proofs.FileSystem.Parallel

/-! Who belongs to more groups may do more, and so does everyone where more is granted. Two
engines of which the second grants more go the same way down their trees, step by step. -/
namespace Realm.Acl

variable {σ τ α β : Type}

/-- Shadow files with the same rules but for grants, of which the second has more; or neither
can be read, for the same reason. -/
def Shadow.BytesWithin (bytes bytes' : Bytes) : Prop :=
  ResultRel Shadow.Within (Shadow.ofBytes bytes) (Shadow.ofBytes bytes')

def Shadow.seed (permissions : Grants) : Shadow :=
  .node permissions [] true [] []

theorem Shadow.ofBytes_seed {g : Grants} (hg : g.Sorted) :
    Shadow.ofBytes (Shadow.seed g).toBytes = .ok (Shadow.seed g) := by
  refine Shadow.ofBytes_toBytes ?_ ?_
  · exact .node hg Table.sorted_nil (by simp) (by simp) Table.sorted_nil (by simp)
  · exact (Shadow.depth_lt_iff (by decide)).2 ⟨by simp,by simp⟩

theorem Shadow.within_seed {g g' : Grants} (h : g.Within g') :
    (Shadow.seed g).Within (Shadow.seed g') :=
  .node h .nil .nil .nil

/-- An engine, and one that is the same but for groups and grants, of which the second has
more. `B` tells which contents of shadow files correspond. -/
structure Engine.Within (R : σ → τ → Prop) (B : Bytes → Bytes → Prop) (e : Engine σ)
    (e' : Engine τ) : Prop where
  shadow : FileSystem.Parallel R B e.shadow e'.shadow
  shadowRoot : e.shadowRoot = e'.shadowRoot
  groups : e.groups.Within e'.groups
  source : ∀ dir, (e.source dir).Within (e'.source dir)
  contents : ∀ {bytes bytes'}, B bytes bytes' → Shadow.BytesWithin bytes bytes'
  made : ∀ dir, B (Shadow.seed (e.source dir)).toBytes (Shadow.seed (e'.source dir)).toBytes

namespace Visit

variable {R : σ → τ → Prop} {Q : α → β → Prop}

theorem related_node : Action.Related (Both Node.Within R) Node.Within
    (Visit.node : Visit σ Node) Visit.node :=
  fun _ _ h => ⟨.ok h.1,h⟩

theorem related_put {n n' : Node} (h : n.Within n') :
    Action.Related (Both Node.Within R) Eq (Visit.put n : Visit σ Unit) (Visit.put n') :=
  fun _ _ hst => ⟨.ok rfl,h,hst.2⟩

theorem related_outside {x : Action σ α} {y : Action τ β} (h : Action.Related R Q x y) :
    Action.Related (Both Node.Within R) Q (Visit.outside x) (Visit.outside y) :=
  fun _ _ hst => ⟨(h _ _ hst.2).1,hst.1,(h _ _ hst.2).2⟩

theorem related_child (name : Text) {c c' : Node} (hc : c.Within c') {v : Visit σ α}
    {v' : Visit τ β} (h : Action.Related (Both Node.Within R) Q v v') :
    Action.Related (Both Node.Within R) Q (Visit.child name c v) (Visit.child name c' v') := by
  rintro ⟨n,s⟩ ⟨n',t⟩ ⟨hn,hR⟩
  obtain ⟨h₁,h₂,h₃⟩ := h (c,s) (c',t) ⟨hc,hR⟩
  exact ⟨h₁,hn.withChild name h₂,h₃⟩

theorem related_inner {c c' : Node} (hc : c.Within c') {v : Visit σ α} {v' : Visit τ β}
    (h : Action.Related (Both Node.Within R) Q v v') :
    Action.Related (Both Node.Within R) Q (Visit.inner c v) (Visit.inner c' v') := by
  rintro ⟨n,s⟩ ⟨n',t⟩ ⟨hn,hR⟩
  obtain ⟨h₁,-,h₃⟩ := h (c,s) (c',t) ⟨hc,hR⟩
  exact ⟨h₁,hn,h₃⟩

end Visit

namespace Engine.Within

variable {R : σ → τ → Prop} {B : Bytes → Bytes → Prop} {e : Engine σ} {e' : Engine τ}
  (h : Engine.Within R B e e')

include h

theorem shadowPath_eq (dir : Text) : e.shadowPath dir = e'.shadowPath dir := by
  rw [Engine.shadowPath,Engine.shadowPath,h.shadowRoot]

theorem load (dir : Text) (depth : Nat) (name : Text) :
    Action.Related R (Option.Rel Node.Within) (e.load dir depth name)
      (e'.load dir depth name) := by
  rw [Engine.load,Engine.load,h.shadowPath_eq]
  refine (h.shadow.has _).bind fun there _ hthere => ?_
  subst hthere
  cases there with
  | false => exact .pure .none
  | true =>
    refine (h.shadow.read _).bind fun bytes bytes' hbytes => ?_
    have hrules := h.contents hbytes
    rw [Shadow.BytesWithin] at hrules
    cases hs : Shadow.ofBytes bytes <;> cases hs' : Shadow.ofBytes bytes' <;> rw [hs,hs'] at hrules
    all_goals cases hrules
    · exact .throw _
    · next hrules =>
      have hnodes := Node.build_within hrules dir depth name false none
      change ResultRel Node.Within (Node.ofShadow dir depth name _)
        (Node.ofShadow dir depth name _) at hnodes
      simp only
      generalize Node.ofShadow dir depth name _ = r at hnodes ⊢
      generalize Node.ofShadow dir depth name _ = r' at hnodes ⊢
      cases hnodes with
      | error err => exact .throw err
      | ok hn => exact .pure (.some hn)

theorem child? (name : Text) :
    Action.Related (Both Node.Within R) (Option.Rel Node.Within) (e.child? name)
      (e'.child? name) := by
  rw [Engine.child?,Engine.child?]
  refine Visit.related_node.bind fun n n' hn => ?_
  have hget := hn.children.get? name
  generalize Table.get? name n.children = r at hget ⊢
  generalize Table.get? name n'.children = r' at hget ⊢
  cases hget with
  | some hc => exact .pure (.some hc)
  | none =>
    simp only
    rw [hn.isSpecial_eq,hn.path_eq,hn.depth_eq]
    split
    · exact .pure .none
    · refine (Visit.related_outside (h.load _ _ _)).bind fun c c' hc => ?_
      cases hc with
      | none => exact .pure .none
      | some hc =>
        exact (Visit.related_put (hn.withChild name hc)).bind fun _ _ _ => .pure (.some hc)

theorem create (name : Text) :
    Action.Related (Both Node.Within R) Node.Within (e.create name) (e'.create name) := by
  rw [Engine.create,Engine.create]
  refine Visit.related_node.bind fun n n' hn => ?_
  rw [hn.path_eq,hn.depth_eq]
  have hnew : (Node.new (Path.child n'.path name) (n'.depth + 1) name
      (e.source (Path.child n'.path name))).Within
    (Node.new (Path.child n'.path name) (n'.depth + 1) name
      (e'.source (Path.child n'.path name))) :=
    .mk (h.source _) .nil .nil .nil
  refine Action.Related.bind (Q := Eq) (Visit.related_outside ?_) fun _ _ _ =>
    (Visit.related_put (hn.withChild name hnew)).bind fun _ _ _ => .pure hnew
  rw [persist_eq e rfl,persist_eq e' rfl]
  show Action.Related R Eq (e.shadow.store (e.shadowPath (Path.child n'.path name)) _)
    (e'.shadow.store (e'.shadowPath (Path.child n'.path name)) _)
  rw [h.shadowPath_eq]
  exact (h.shadow.makeDir _ _).bind fun _ _ _ => h.shadow.write _ (h.made _)

/-- Both go down the same way, and the second always has at least as much in hand. -/
theorem resolve (identity : Text) (names : List Text) (bindings : Bindings)
    {total total' : Permission} (ht : total ≤ total') :
    Action.Related (Both Node.Within R) (· ≤ ·) (e.resolve identity names bindings total)
      (e'.resolve identity names bindings total') := by
  induction names generalizing bindings total total' with
  | nil => exact .pure ht
  | cons name names ih =>
    rw [Engine.resolve,Engine.resolve]
    refine (h.child? name).bind fun c c' hc => ?_
    cases hc with
    | some hc =>
      exact Visit.related_child name hc (ih _ (hc.apply_mono h.groups bindings identity ht))
    | none =>
      refine Visit.related_node.bind fun n n' hn => ?_
      have hmatch := hn.match? name
      generalize n.match? name = r at hmatch ⊢
      generalize n'.match? name = r' at hmatch ⊢
      cases hmatch with
      | some hr =>
        obtain ⟨-,hc,hbound⟩ := hr
        dsimp only
        rw [hbound]
        exact Visit.related_inner hc (ih _ (hc.apply_mono h.groups _ identity ht))
      | none =>
        have hfile := hn.files.get? name
        simp only
        generalize Table.get? name n.files = r at hfile ⊢
        generalize Table.get? name n'.files = r' at hfile ⊢
        cases hfile with
        | some hf => exact .pure (hf.apply_mono h.groups bindings identity ht)
        | none =>
          simp only
          rw [hn.isSpecial_eq]
          split
          · exact .pure ht
          · exact (h.create name).bind fun c c' hc =>
              Visit.related_child name hc (ih _ (hc.apply_mono h.groups bindings identity ht))

theorem visitTop {Q : α → β → Prop} {v : Visit σ α} {v' : Visit τ β}
    (hv : Action.Related (Both Node.Within R) Q v v') :
    Action.Related (Both (Option.Rel Node.Within) R) Q (e.visitTop v) (e'.visitTop v') := by
  have hgo : ∀ n n' s t, n.Within n' → R s t → ResultRel Q (v (n,s)).1 (v' (n',t)).1 ∧
      Both (Option.Rel Node.Within) R (some (v (n,s)).2.1,(v (n,s)).2.2)
        (some (v' (n',t)).2.1,(v' (n',t)).2.2) := by
    intro n n' s t hn hR
    obtain ⟨h₁,h₂,h₃⟩ := hv (n,s) (n',t) ⟨hn,hR⟩
    exact ⟨h₁,.some h₂,h₃⟩
  rintro ⟨cache,s⟩ ⟨cache',t⟩ ⟨hc,hR⟩
  replace hc : Option.Rel Node.Within cache cache' := hc
  cases hc with
  | some hn => exact hgo _ _ s t hn hR
  | none =>
    obtain ⟨h₁,h₂⟩ := h.load ['/'] 0 [] s t hR
    simp only [Engine.visitTop]
    rcases hl : e.load ['/'] 0 [] s with ⟨r,s'⟩
    rcases hl' : e'.load ['/'] 0 [] t with ⟨r',t'⟩
    rw [hl,hl'] at h₁ h₂
    cases h₁ with
    | error err => exact ⟨.error err,.none,h₂⟩
    | ok hn =>
      cases hn with
      | none => exact hgo _ _ s' t' (.mk (h.source _) .nil .nil .nil) h₂
      | some hn => exact hgo _ _ s' t' hn h₂

theorem effective (path identity : Text) :
    Action.Related (Both (Option.Rel Node.Within) R) (· ≤ ·) (e.effective path identity)
      (e'.effective path identity) :=
  h.visitTop (Visit.related_node.bind fun _ _ hn =>
    h.resolve identity _ [] (hn.lookup_mono h.groups [] identity))

end Engine.Within

/-- The same engine but for grants, of which the second has more: in the shadow files, and for
the directories that it makes. -/
structure Engine.Enlarged (R : σ → τ → Prop) (e : Engine σ) (e' : Engine τ) : Prop where
  shadow : FileSystem.Parallel R Shadow.BytesWithin e.shadow e'.shadow
  shadowRoot : e.shadowRoot = e'.shadowRoot
  groups : e.groups = e'.groups
  sorted : ∀ dir, (e.source dir).Sorted ∧ (e'.source dir).Sorted
  source : ∀ dir, (e.source dir).Within (e'.source dir)

theorem Engine.Enlarged.within {R : σ → τ → Prop} {e : Engine σ} {e' : Engine τ}
    (h : Engine.Enlarged R e e') : Engine.Within R Shadow.BytesWithin e e' where
  shadow := h.shadow
  shadowRoot := h.shadowRoot
  groups := h.groups ▸ fun _ _ hg => hg
  source := h.source
  contents hb := hb
  made dir := by
    rw [Shadow.BytesWithin,Shadow.ofBytes_seed (h.sorted dir).1,
      Shadow.ofBytes_seed (h.sorted dir).2]
    exact .ok (Shadow.within_seed (h.source dir))

theorem Engine.within_groups (e : Engine σ) {groups : Groups} (h : e.groups.Within groups) :
    Engine.Within Eq Eq e { e with groups } where
  shadow := .refl e.shadow
  shadowRoot := rfl
  groups := h
  source _ := .refl _
  contents hb := hb ▸ .refl Shadow.Within.refl _
  made _ := rfl

/-- Whoever belongs to more groups may do at least as much everywhere. And where all nodes are
the same but for grants, of which there are more in the second tree, in its shadow files and
for the directories that are made, nobody may do less anywhere. This holds again of the trees
and the files after the two have been asked, whether or not nodes were read or made for it. -/
theorem effective_mono (e : Engine σ) :
    (∀ groups, e.groups.Within groups → ∀ path identity s,
      ResultRel (· ≤ ·) (e.effective path identity s).1
        (({ e with groups } : Engine σ).effective path identity s).1) ∧
    ∀ {τ : Type} (e' : Engine τ) (R : σ → τ → Prop), Engine.Enlarged R e e' →
      ∀ path identity, Action.Related (Both (Option.Rel Node.Within) R) (· ≤ ·)
        (e.effective path identity) (e'.effective path identity) := by
  constructor
  case left =>
    intro groups h path identity s
    have hcache : Option.Rel Node.Within s.1 s.1 := by
      cases s.1 with
      | none => exact .none
      | some n => exact .some (.refl n)
    exact ((e.within_groups h).effective path identity s s ⟨hcache,rfl⟩).1
  case right =>
    intro τ e' R h path identity
    exact h.within.effective path identity

/-- A tree in memory of which only the top has rules. -/
def guildTree (permissions : Grants) : FileTree :=
  [([],.directory),([aclName],.file (Shadow.seed permissions).toBytes)]

theorem guildTree_rel {g g' : Grants} (hg : g.Sorted) (hg' : g'.Sorted) (h : g.Within g') :
    (guildTree g).Rel Shadow.BytesWithin (guildTree g') := by
  refine .cons .directory (.cons (.file ?_) .nil)
  rw [Shadow.BytesWithin,Shadow.ofBytes_seed hg,Shadow.ofBytes_seed hg']
  exact .ok (Shadow.within_seed h)

/-- Wizards may read. -/
def someGrants : Grants :=
  [("$wizards".toList,.of .read)]

/-- Wizards may write, too, and bob may read. -/
def moreGrants : Grants :=
  [("$wizards".toList,(Permission.of .read).union (.of .write)),("bob".toList,.of .read)]

/-- Ann is a wizard. -/
def wizards : Groups :=
  Groups.ofTable [("wizards".toList,["ann".toList])]

theorem enlarged_readingEngine :
    Engine.Enlarged (FileTree.Rel Shadow.BytesWithin) memoryEngine readingEngine where
  shadow := Memory.parallel _
  shadowRoot := rfl
  groups := rfl
  sorted _ := ⟨Table.sorted_nil,List.pairwise_singleton _ _⟩
  source _ := nofun

theorem effective_mono_memory :
    memoryEngine.groups.Within wizards ∧
    (memoryEngine.effective "/home/ann".toList "ann".toList (none,guildTree someGrants)).1 =
      .ok Permission.empty ∧
    (({ memoryEngine with groups := wizards } : Engine FileTree).effective "/home/ann".toList
      "ann".toList (none,guildTree someGrants)).1 = .ok (Permission.of .read) ∧
    ResultRel (· ≤ ·)
      (memoryEngine.effective "/home/ann".toList "ann".toList (none,guildTree someGrants)).1
      (({ memoryEngine with groups := wizards } : Engine FileTree).effective "/home/ann".toList
        "ann".toList (none,guildTree someGrants)).1 ∧
    (readingEngine.effective "/home/ann".toList "bob".toList (none,guildTree moreGrants)).1 =
      .ok (Permission.of .read) ∧
    ResultRel (· ≤ ·)
      (memoryEngine.effective "/home/ann".toList "bob".toList (none,guildTree someGrants)).1
      (readingEngine.effective "/home/ann".toList "bob".toList (none,guildTree moreGrants)).1 := by
  have hgroups : memoryEngine.groups.Within wizards := nofun
  have hwithin : someGrants.Within moreGrants := by
    intro e he
    obtain rfl := List.mem_singleton.1 he
    exact ⟨(Permission.of .read).union (.of .write),by decide,by decide⟩
  have htrees : (guildTree someGrants).Rel Shadow.BytesWithin (guildTree moreGrants) :=
    guildTree_rel (by decide) (by decide) hwithin
  obtain ⟨hmore,henlarged⟩ := effective_mono memoryEngine
  refine ⟨hgroups,by decide +kernel,by decide +kernel,hmore wizards hgroups _ _ _,
    by decide +kernel,?_⟩
  exact (henlarged readingEngine _ enlarged_readingEngine _ _ (none,_) (none,_) ⟨.none,htrees⟩).1

end Realm.Acl
