import Realm.Proofs.Acl.Nodes
import Realm.Proofs.Action
import Mathlib.Data.List.Forall2

/-! Rules that grant more. Two trees of rules can be the same but for their grants, and then
they have the same nodes at the same places. -/
namespace Realm

namespace Permission

/-- Whether every capability of the first is in the second. -/
instance instLE : LE Permission where
  le p q := q.allows p = true

instance instDecidableLE (p q : Permission) : Decidable (p ≤ q) :=
  inferInstanceAs (Decidable (q.allows p = true))

@[simp] theorem has_union (p q : Permission) (c : Capability) :
    (p.union q).has c = (p.has c || q.has c) := by
  simp [union,has]

@[simp] theorem has_empty (c : Capability) : empty.has c = false := by
  cases c <;> rfl

theorem exists_capability {i : Nat} (h : i < 13) : ∃ c : Capability, c.bit = i := by
  have hall : ∀ i : Fin 13, ∃ c ∈ Capability.all, c.bit = i := by decide
  obtain ⟨c,-,hc⟩ := hall ⟨i,h⟩
  exact ⟨c,hc⟩

theorem le_iff {p q : Permission} : p ≤ q ↔ ∀ c, p.has c = true → q.has c = true := by
  have hle : p ≤ q ↔ q.bits &&& p.bits = p.bits := by
    show q.allows p = true ↔ _
    simp [allows]
  rw [hle]
  constructor
  · intro h c hc
    have hbit : (q.has c && p.has c) = p.has c := by
      simpa [has] using congrArg (fun b : BitVec 13 => b.getLsbD c.bit) h
    simpa [hc] using hbit
  · intro h
    refine BitVec.eq_of_getLsbD_eq fun i hi => ?_
    obtain ⟨c,rfl⟩ := exists_capability hi
    have hc : p.bits.getLsbD c.bit = true → q.bits.getLsbD c.bit = true := h c
    simpa using hc

theorem le_refl (p : Permission) : p ≤ p :=
  le_iff.2 fun _ h => h

theorem union_le_union {p p' q q' : Permission} (h : p ≤ p') (h' : q ≤ q') :
    p.union q ≤ p'.union q' := by
  refine le_iff.2 fun c hc => ?_
  rw [has_union,Bool.or_eq_true] at hc ⊢
  exact hc.imp (le_iff.1 h c) (le_iff.1 h' c)

end Permission

namespace Acl

/-! Grants. -/

/-- Every key grants at least as much in the second. -/
def Grants.Within (g g' : Grants) : Prop :=
  ∀ e ∈ g, ∃ p, (e.1,p) ∈ g' ∧ e.2 ≤ p

/-- Whoever belongs to a group belongs to it in the second, too. -/
def Groups.Within (groups groups' : Groups) : Prop :=
  ∀ identity group, groups identity group = true → groups' identity group = true

theorem Grants.Within.refl (g : Grants) : g.Within g :=
  fun e he => ⟨e.2,he,Permission.le_refl _⟩

theorem keyApplies_mono {groups groups' : Groups} (h : groups.Within groups')
    {bindings : Bindings} {identity key : Text}
    (hk : keyApplies groups bindings identity key = true) :
    keyApplies groups' bindings identity key = true := by
  unfold keyApplies at hk ⊢
  by_cases hall : key = everyone
  · rw [if_pos hall]
  · rw [if_neg hall] at hk ⊢
    split at hk
    · next name =>
      cases hbound : bindings.get? name with
      | none => simp [hbound] at hk
      | some group =>
        simp only [hbound,Option.map_some,Option.getD_some] at hk ⊢
        exact h identity group hk
    · exact hk
    · exact h identity _ hk
    · exact hk

theorem has_foldl_union {ps : List Permission} {p : Permission} {c : Capability} :
    (ps.foldl Permission.union p).has c = true ↔ p.has c = true ∨ ∃ q ∈ ps, q.has c = true := by
  induction ps generalizing p with
  | nil => simp
  | cons q ps ih => simp [ih,or_assoc]

theorem has_granted {groups : Groups} {bindings : Bindings} {identity : Text} {g : Grants}
    {c : Capability} : (granted groups bindings identity g).has c = true ↔
      ∃ e ∈ g, keyApplies groups bindings identity e.1 = true ∧ e.2.has c = true := by
  simp only [granted,has_foldl_union,Permission.has_empty,Bool.false_eq_true,false_or,
    List.mem_map,List.mem_filter]
  constructor
  · rintro ⟨_,⟨e,he,rfl⟩,hhas⟩
    exact ⟨e,he.1,he.2,hhas⟩
  · rintro ⟨e,he,hkey,hhas⟩
    exact ⟨_,⟨e,⟨he,hkey⟩,rfl⟩,hhas⟩

theorem granted_mono {groups groups' : Groups} (h : groups.Within groups') {g g' : Grants}
    (hg : g.Within g') (bindings : Bindings) (identity : Text) :
    granted groups bindings identity g ≤ granted groups' bindings identity g' := by
  refine Permission.le_iff.2 fun c hc => ?_
  obtain ⟨e,he,hkey,hhas⟩ := has_granted.1 hc
  obtain ⟨p,hp,hle⟩ := hg e he
  exact has_granted.2 ⟨_,hp,keyApplies_mono h hkey,Permission.le_iff.1 hle c hhas⟩

theorem layer_mono {total total' own own' : Permission} (ht : total ≤ total') (ho : own ≤ own')
    (inherits : Bool) : layer inherits total own ≤ layer inherits total' own' := by
  cases inherits with
  | true => exact Permission.union_le_union ht ho
  | false => exact ho

/-! Rules. -/

/-- The same rules of a file but for grants, of which the second has more. -/
structure FileEntry.Within (f f' : FileEntry) : Prop where
  permissions : f.permissions.Within f'.permissions
  inherits : f.inherits = f'.inherits

theorem FileEntry.Within.refl (f : FileEntry) : f.Within f :=
  ⟨.refl _,rfl⟩

theorem FileEntry.Within.apply_mono {f f' : FileEntry} (hf : f.Within f') {groups groups' : Groups}
    (h : groups.Within groups') (bindings : Bindings) (identity : Text)
    {total total' : Permission} (ht : total ≤ total') :
    f.apply groups bindings identity total ≤ f'.apply groups' bindings identity total' := by
  rw [FileEntry.apply,FileEntry.apply,hf.inherits]
  exact layer_mono ht (granted_mono h hf.permissions bindings identity) _

/-- The same rules of a directory but for grants, of which the second has more. -/
inductive Shadow.Within : Shadow → Shadow → Prop
  | node {permissions permissions' : Grants} {files files' : Table Text FileEntry}
    {inherits : Bool} {patterns patterns' children children' : List (Text × Shadow)}
    (permissions_within : permissions.Within permissions')
    (files_within : Table.Rel FileEntry.Within files files')
    (patterns_within : Table.Rel Within patterns patterns')
    (children_within : Table.Rel Within children children') :
    Within (.node permissions files inherits patterns children)
      (.node permissions' files' inherits patterns' children')

/-- The same node but for grants, of which the second has more. -/
inductive Node.Within : Node → Node → Prop
  | mk {path : Text} {depth : Nat} {name : Text} {permissions permissions' : Grants}
    {files files' : Table Text FileEntry} {inherits isSpecial : Bool} {pattern : Option Pattern}
    {patterns patterns' : List Node} {children children' : List (Text × Node)}
    (permissions_within : permissions.Within permissions')
    (files_within : Table.Rel FileEntry.Within files files')
    (patterns_within : List.Forall₂ Within patterns patterns')
    (children_within : Table.Rel Within children children') :
    Within (.mk path depth name permissions files inherits isSpecial pattern patterns children)
      (.mk path depth name permissions' files' inherits isSpecial pattern patterns' children')

theorem Shadow.Within.refl (s : Shadow) : s.Within s := by
  cases s with
  | node g fs i ps cs =>
    exact .node (.refl g) (.refl fun f _ => .refl f.2) (.refl fun p hp => refl p.2)
      (.refl fun c hc => refl c.2)
termination_by sizeOf s
decreasing_by
  · have := List.sizeOf_lt_of_mem hp
    rcases p with ⟨_,_⟩
    simp only [Prod.mk.sizeOf_spec,Shadow.node.sizeOf_spec] at *
    omega
  · have := List.sizeOf_lt_of_mem hc
    rcases c with ⟨_,_⟩
    simp only [Prod.mk.sizeOf_spec,Shadow.node.sizeOf_spec] at *
    omega

theorem Node.Within.refl (n : Node) : n.Within n := by
  cases n with
  | mk path depth name g fs i s pt ps cs =>
    exact .mk (.refl g) (.refl fun f _ => .refl f.2) (List.forall₂_same.2 fun p hp => refl p)
      (.refl fun c hc => refl c.2)
termination_by sizeOf n
decreasing_by
  · have := List.sizeOf_lt_of_mem hp
    simp only [Node.mk.sizeOf_spec]
    omega
  · have := List.sizeOf_lt_of_mem hc
    rcases c with ⟨_,_⟩
    simp only [Prod.mk.sizeOf_spec,Node.mk.sizeOf_spec] at *
    omega

namespace Node

mutual

theorem build_within {s s' : Shadow} (h : s.Within s') (path : Text) (depth : Nat) (name : Text)
    (isSpecial : Bool) (pattern : Option Pattern) :
    ResultRel Within (build path depth name isSpecial pattern s)
      (build path depth name isSpecial pattern s') := by
  cases s with
  | node g fs i ps cs =>
    cases h with
    | node hg hfs hps hcs =>
      rw [build,build]
      refine (buildPatterns_within hps path (depth + 1)).bind fun ns ns' hns => ?_
      rw [hcs.isEmpty_eq]
      split
      · exact .error _
      · exact (buildChildren_within hcs path (depth + 1)).bind fun ms ms' hms =>
          .ok (.mk hg hfs hns hms)

theorem buildPatterns_within {ps ps' : List (Text × Shadow)} (h : Table.Rel Shadow.Within ps ps')
    (parent : Text) (depth : Nat) :
    ResultRel (List.Forall₂ Within) (buildPatterns parent depth ps)
      (buildPatterns parent depth ps') := by
  cases ps with
  | nil =>
    cases h
    exact .ok .nil
  | cons p ps =>
    cases h with
    | cons hs hps =>
      rw [buildPatterns,buildPatterns]
      refine (ResultRel.refl (Q := Eq) (fun _ => rfl) _).bind fun p _ hp => ?_
      subst hp
      refine (build_within hs _ depth _ true (some p)).bind fun n n' hn => ?_
      exact (buildPatterns_within hps parent depth).bind fun ns ns' hns => .ok (.cons hn hns)

theorem buildChildren_within {cs cs' : List (Text × Shadow)} (h : Table.Rel Shadow.Within cs cs')
    (parent : Text) (depth : Nat) :
    ResultRel (Table.Rel Within) (buildChildren parent depth cs)
      (buildChildren parent depth cs') := by
  cases cs with
  | nil =>
    cases h
    exact .ok .nil
  | cons c cs =>
    cases h with
    | cons hs hcs =>
      rw [buildChildren,buildChildren]
      refine (build_within hs _ depth _ true none).bind fun n n' hn => ?_
      exact (buildChildren_within hcs parent depth).bind fun ns ns' hns => .ok (.cons hn hns)

end

theorem firstMatch_within {ns ns' : List Node} (h : List.Forall₂ Within ns ns') (segment : Text) :
    Option.Rel (fun r r' => r.1 = r'.1 ∧ r.2.1.Within r'.2.1 ∧ r.2.2 = r'.2.2)
      (firstMatch segment ns) (firstMatch segment ns') := by
  induction h with
  | nil => exact .none
  | cons hn _ ih =>
    rename_i n n' ns ns' _
    have hpattern : n.pattern = n'.pattern := by
      cases hn
      rfl
    rw [firstMatch,firstMatch,hpattern]
    cases n'.pattern.bind (capture · segment) with
    | some bound => exact .some ⟨rfl,hn,rfl⟩
    | none =>
      generalize firstMatch segment ns = r at ih ⊢
      generalize firstMatch segment ns' = r' at ih ⊢
      cases ih with
      | none => exact .none
      | some h => exact .some ⟨congrArg (· + 1) h.1,h.2⟩

namespace Within

variable {n n' : Node} (h : n.Within n')

include h

theorem path_eq : n.path = n'.path := by
  cases h
  rfl

theorem depth_eq : n.depth = n'.depth := by
  cases h
  rfl

theorem isSpecial_eq : n.isSpecial = n'.isSpecial := by
  cases h
  rfl

theorem files : Table.Rel FileEntry.Within n.files n'.files := by
  cases h with
  | mk _ hfs _ _ => exact hfs

theorem children : Table.Rel Within n.children n'.children := by
  cases h with
  | mk _ _ _ hcs => exact hcs

theorem match? (segment : Text) :
    Option.Rel (fun r r' => r.1 = r'.1 ∧ r.2.1.Within r'.2.1 ∧ r.2.2 = r'.2.2)
      (n.match? segment) (n'.match? segment) := by
  cases h with
  | mk _ _ hps _ => exact firstMatch_within hps segment

theorem withChild (name : Text) {c c' : Node} (hc : c.Within c') :
    (n.withChild name c).Within (n'.withChild name c') := by
  cases h with
  | mk hg hfs hps hcs => exact .mk hg hfs hps (hcs.insert name hc)

theorem lookup_mono {groups groups' : Groups} (hg : groups.Within groups') (bindings : Bindings)
    (identity : Text) :
    n.lookup groups bindings identity ≤ n'.lookup groups' bindings identity := by
  cases h with
  | mk hp _ _ _ => exact granted_mono hg hp bindings identity

theorem apply_mono {groups groups' : Groups} (hg : groups.Within groups') (bindings : Bindings)
    (identity : Text) {total total' : Permission} (ht : total ≤ total') :
    n.apply groups bindings identity total ≤ n'.apply groups' bindings identity total' := by
  have hinherits : n.inherits = n'.inherits := by
    cases h
    rfl
  rw [Node.apply,Node.apply,hinherits]
  exact layer_mono ht (h.lookup_mono hg bindings identity) _

end Within

end Node

end Acl
end Realm
