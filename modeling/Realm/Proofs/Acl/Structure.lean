import Realm.Proofs.Acl.Nodes

/-! The shape of the access tree: where each node is, told from the one above it, and which nodes
lie at or below a pattern. -/
namespace Realm.Acl

namespace Node

structure Above (n c : Node) : Prop where
  depth : c.depth = n.depth + 1
  path : c.path = Path.child n.path c.name

/-- A tree of nodes each of which is where it should be, the nodes of patterns apart from those
that are kept under their names. Being stored with the node above passes on to the nodes below. -/
inductive Formed : Node → Prop
  | mk {n : Node} (special : n.pattern.isSome = true → n.isSpecial = true)
    (pattern_at : ∀ p ∈ n.patterns, n.Above p ∧ p.pattern.isSome = true)
    (child_at : ∀ c ∈ n.children, n.Above c.2 ∧ c.2.name = c.1 ∧ c.2.pattern = none ∧
      c.2.isSpecial = n.isSpecial)
    (patterns : ∀ p ∈ n.patterns, Formed p) (children : ∀ c ∈ n.children, Formed c.2) : Formed n

structure ChildOf (n : Node) (name : Text) (c : Node) : Prop where
  formed : c.Formed
  above : n.Above c
  name : c.name = name
  pattern : c.pattern = none
  isSpecial : c.isSpecial = n.isSpecial

namespace Formed

variable {n : Node} (h : n.Formed)

include h

theorem special (hp : n.pattern.isSome = true) : n.isSpecial = true := by
  cases h with
  | mk h _ _ _ _ => exact h hp

theorem pattern {p : Node} (hp : p ∈ n.patterns) :
    p.Formed ∧ n.Above p ∧ p.pattern.isSome = true := by
  cases h with
  | mk _ hat _ hps _ => exact ⟨hps p hp,hat p hp⟩

theorem child {name : Text} {c : Node} (hc : (name,c) ∈ n.children) : n.ChildOf name c := by
  cases h with
  | mk _ _ hat _ hcs =>
    obtain ⟨habove,hname,hpattern,hspecial⟩ := hat _ hc
    exact ⟨hcs _ hc,habove,hname,hpattern,hspecial⟩

end Formed

structure SamePlace (n n' : Node) : Prop where
  path : n'.path = n.path
  depth : n'.depth = n.depth
  name : n'.name = n.name
  isSpecial : n'.isSpecial = n.isSpecial
  pattern : n'.pattern = n.pattern

theorem SamePlace.refl (n : Node) : n.SamePlace n :=
  ⟨rfl,rfl,rfl,rfl,rfl⟩

theorem SamePlace.symm {n n' : Node} (h : n.SamePlace n') : n'.SamePlace n :=
  ⟨h.path.symm,h.depth.symm,h.name.symm,h.isSpecial.symm,h.pattern.symm⟩

theorem SamePlace.trans {n n' n'' : Node} (h : n.SamePlace n') (h' : n'.SamePlace n'') :
    n.SamePlace n'' :=
  ⟨h'.path.trans h.path,h'.depth.trans h.depth,h'.name.trans h.name,
    h'.isSpecial.trans h.isSpecial,h'.pattern.trans h.pattern⟩

theorem samePlace_withChild (n : Node) (name : Text) (c : Node) :
    n.SamePlace (n.withChild name c) := by
  cases n
  exact ⟨rfl,rfl,rfl,rfl,rfl⟩

/-- A child is one wherever its parent's place is, and whatever is done in its own. -/
theorem ChildOf.congr {n n' c c' : Node} {name : Text} (h : n.ChildOf name c)
    (hn : n.SamePlace n') (hc : c.SamePlace c') (hformed : c'.Formed) : n'.ChildOf name c' where
  formed := hformed
  above := ⟨by rw [hc.depth,hn.depth,h.above.depth],by rw [hc.path,hn.path,hc.name,h.above.path]⟩
  name := hc.name.trans h.name
  pattern := hc.pattern.trans h.pattern
  isSpecial := by rw [hc.isSpecial,hn.isSpecial,h.isSpecial]

theorem ChildOf.of_samePlace {n n' c : Node} {name : Text} (h : n'.ChildOf name c)
    (hplace : n.SamePlace n') : n.ChildOf name c :=
  h.congr hplace.symm (.refl c) h.formed

/-- A node that stands in the place of another may have other patterns and children. -/
theorem Formed.of_samePlace {n n' : Node} (h : n.Formed) (hplace : n.SamePlace n')
    (hpatterns : ∀ p ∈ n'.patterns, p.Formed ∧ n.Above p ∧ p.pattern.isSome = true)
    (hchildren : ∀ c ∈ n'.children, n.ChildOf c.1 c.2) : n'.Formed := by
  have hchild : ∀ c ∈ n'.children, n'.ChildOf c.1 c.2 :=
    fun c hc => (hchildren c hc).congr hplace (.refl c.2) (hchildren c hc).formed
  refine .mk (fun hp => ?_) (fun p hp => ?_) (fun c hc => ?_) (fun p hp => (hpatterns p hp).1)
    fun c hc => (hchild c hc).formed
  · rw [hplace.pattern] at hp
    rw [hplace.isSpecial]
    exact h.special hp
  · obtain ⟨-,habove,hsome⟩ := hpatterns p hp
    exact ⟨⟨by rw [habove.depth,hplace.depth],by rw [habove.path,hplace.path]⟩,hsome⟩
  · obtain ⟨-,habove,hname,hpattern,hspecial⟩ := hchild c hc
    exact ⟨habove,hname,hpattern,hspecial⟩

theorem Formed.withChild {n c : Node} {name : Text} (h : n.Formed) (hc : n.ChildOf name c) :
    (n.withChild name c).Formed := by
  refine h.of_samePlace (samePlace_withChild n name c) (fun p hp => h.pattern ?_) fun x hx => ?_
  · cases n
    exact hp
  · rw [children_withChild] at hx
    rcases Table.mem_insert hx with rfl | hx
    · exact hc
    · exact h.child hx

/-! The nodes that are made. -/

theorem Formed.new (path : Text) (depth : Nat) (name : Text) (g : Grants) :
    (Node.new path depth name g).Formed :=
  .mk (by simp [Node.new,Node.pattern]) (by simp [Node.new,patterns])
    (by simp [Node.new,children]) (by simp [Node.new,patterns]) (by simp [Node.new,children])

mutual

theorem formed_build {path : Text} {depth : Nat} {name : Text} {isSpecial : Bool}
    {pattern : Option Pattern} {s : Shadow} {n : Node}
    (hp : pattern.isSome = true → isSpecial = true)
    (h : build path depth name isSpecial pattern s = .ok n) : n.Formed := by
  cases s with
  | node g fs i ps cs =>
    rw [build] at h
    obtain ⟨ns,hns,h⟩ := bind_eq_ok.1 h
    split at h
    · cases h
    · next hcs =>
      obtain ⟨ms,hms,h⟩ := bind_eq_ok.1 h
      cases h
      have hpatterns := formed_buildPatterns hns
      have hchildren := formed_buildChildren hms
      refine .mk hp (fun p hp => ?_) (fun c hc => ?_) (fun p hp => (hpatterns p hp).1)
        fun c hc => (hchildren c hc).1
      · obtain ⟨-,⟨hdepth,hpath⟩,hsome⟩ := hpatterns p hp
        exact ⟨⟨hdepth,hpath⟩,hsome⟩
      obtain ⟨-,hdepth,hpath,hname,hpattern,hspecial⟩ := hchildren c hc
      -- Where nothing is stored with the node, there are no children in its rules.
      cases isSpecial with
      | true => exact ⟨⟨hdepth,hpath⟩,hname,hpattern,hspecial⟩
      | false =>
        obtain rfl : cs = [] := by simpa using hcs
        cases hms
        simp [children] at hc

theorem formed_buildPatterns {parent : Text} {depth : Nat} {ps : List (Text × Shadow)}
    {ns : List Node} (h : buildPatterns parent depth ps = .ok ns) :
    ∀ n ∈ ns, n.Formed ∧ (n.depth = depth ∧ n.path = Path.child parent n.name) ∧
      n.pattern.isSome = true := by
  cases ps with
  | nil =>
    cases h
    simp
  | cons p ps =>
    obtain ⟨pattern,s⟩ := p
    rw [buildPatterns] at h
    obtain ⟨p,-,h⟩ := bind_eq_ok.1 h
    obtain ⟨n,hn,h⟩ := bind_eq_ok.1 h
    obtain ⟨ns,hns,h⟩ := bind_eq_ok.1 h
    cases h
    obtain ⟨hpath,hdepth,hname,-,hpattern,-⟩ := build_spec hn
    intro m hm
    rcases List.mem_cons.1 hm with rfl | hm
    · exact ⟨formed_build (fun _ => rfl) hn,⟨hdepth,by rw [hpath,hname]⟩,by rw [hpattern]; rfl⟩
    · exact formed_buildPatterns hns m hm

theorem formed_buildChildren {parent : Text} {depth : Nat} {cs : List (Text × Shadow)}
    {ns : List (Text × Node)} (h : buildChildren parent depth cs = .ok ns) :
    ∀ c ∈ ns, c.2.Formed ∧ c.2.depth = depth ∧ c.2.path = Path.child parent c.2.name ∧
      c.2.name = c.1 ∧ c.2.pattern = none ∧ c.2.isSpecial = true := by
  cases cs with
  | nil =>
    cases h
    simp
  | cons c cs =>
    obtain ⟨name,s⟩ := c
    rw [buildChildren] at h
    obtain ⟨n,hn,h⟩ := bind_eq_ok.1 h
    obtain ⟨ns,hns,h⟩ := bind_eq_ok.1 h
    cases h
    obtain ⟨hpath,hdepth,hname,hspecial,hpattern,-⟩ := build_spec hn
    intro m hm
    rcases List.mem_cons.1 hm with rfl | hm
    · exact ⟨formed_build (by simp) hn,hdepth,by rw [hpath,hname],hname,hpattern,hspecial⟩
    · exact formed_buildChildren hns m hm

end

theorem Formed.ofShadow {path : Text} {depth : Nat} {name : Text} {s : Shadow} {n : Node}
    (h : ofShadow path depth name s = .ok n) :
    n.Formed ∧ n.path = path ∧ n.depth = depth ∧ n.name = name ∧ n.isSpecial = false ∧
      n.pattern = none := by
  obtain ⟨hpath,hdepth,hname,hspecial,hpattern,-⟩ := build_spec h
  exact ⟨formed_build (by simp) h,hpath,hdepth,hname,hspecial,hpattern⟩

/-- A change of rules leaves the tree in its shape. -/
theorem Formed.change {n n' : Node} (h : n.Formed) {c : Change} (hc : c.apply n = .ok n') :
    n'.Formed ∧ n.SamePlace n' := by
  have hsame : ∀ n' : Node, n.SamePlace n' → n'.children = n.children →
      (∀ p ∈ n'.patterns, p.Formed ∧ n.Above p ∧ p.pattern.isSome = true) →
      n'.Formed ∧ n.SamePlace n' := by
    intro n' hplace hchildren hpatterns
    refine ⟨h.of_samePlace hplace hpatterns fun x hx => ?_,hplace⟩
    rw [hchildren] at hx
    exact h.child hx
  have hold : ∀ p ∈ n.patterns, p.Formed ∧ n.Above p ∧ p.pattern.isSome = true :=
    fun p hp => h.pattern hp
  cases n with
  | mk path depth name g fs i s pt ps cs =>
    cases c with
    | grant | inherit | grantFile | inheritFile =>
      cases hc
      exact hsame _ ⟨rfl,rfl,rfl,rfl,rfl⟩ rfl hold
    | touch file =>
      cases hc
      split <;> exact hsame _ ⟨rfl,rfl,rfl,rfl,rfl⟩ rfl hold
    | addPattern pattern g' on =>
      simp only [Change.apply] at hc
      split at hc
      · cases hc
      · rw [Node.ofPattern] at hc
        cases hp : compilePattern pattern with
        | error err =>
          rw [hp] at hc
          cases hc
        | ok p =>
          rw [hp] at hc
          cases hc
          refine hsame _ ⟨rfl,rfl,rfl,rfl,rfl⟩ rfl fun m hm => ?_
          rcases List.mem_append.1 hm with hm | hm
          · exact hold m hm
          · obtain rfl := List.mem_singleton.1 hm
            exact ⟨.mk (fun _ => rfl) (by simp [patterns]) (by simp [children])
              (by simp [patterns]) (by simp [children]),⟨rfl,rfl⟩,rfl⟩

/-! Nodes and those above them. -/

/-- A node of a tree, and the nodes above it from the nearest one on. -/
inductive Lineage (root : Node) : List Node → Node → Prop
  | top : Lineage root [] root
  | child {above : List Node} {n : Node} {name : Text} {c : Node} (h : Lineage root above n)
    (hc : (name,c) ∈ n.children) : Lineage root (n :: above) c
  | pattern {above : List Node} {n p : Node} (h : Lineage root above n) (hp : p ∈ n.patterns) :
    Lineage root (n :: above) p

/-- The access tree: each node is one step below its parent, at the path of its name there. The
nodes of patterns are at the patterns of a node and not among its children, and exactly those at
or below a pattern are stored with a node above. -/
structure IsTree (root : Node) : Prop where
  path : root.path = ['/']
  depth : root.depth = 0
  name : root.name = []
  below : ∀ {above parent n}, Lineage root (parent :: above) n →
    n.depth = parent.depth + 1 ∧ n.path = Path.child parent.path n.name
  patterns : ∀ {above n}, Lineage root above n → ∀ p ∈ n.patterns, p.pattern.isSome = true
  children : ∀ {above n}, Lineage root above n → ∀ c ∈ n.children,
    c.2.name = c.1 ∧ c.2.pattern = none
  special : ∀ {above n}, Lineage root above n →
    (n.isSpecial = true ↔ ∃ m ∈ n :: above, m.pattern.isSome = true)
  regular : ∀ {above n}, Lineage root above n → n.isSpecial = false →
    ∀ c ∈ n.children, c.2.isSpecial = false

theorem Formed.lineage {root : Node} (h : root.Formed) (hspecial : root.isSpecial = false)
    (hpattern : root.pattern = none) {above : List Node} {n : Node} (hn : Lineage root above n) :
    n.Formed ∧ (∀ parent ∈ above.head?, parent.Above n) ∧
      (n.isSpecial = true ↔ ∃ m ∈ n :: above, m.pattern.isSome = true) := by
  induction hn with
  | top => exact ⟨h,by simp,by simp [hspecial,hpattern]⟩
  | child _ hc ih =>
    obtain ⟨hformed,-,hiff⟩ := ih
    obtain ⟨hchild,habove,-,hnone,heq⟩ := hformed.child hc
    refine ⟨hchild,by simpa using habove,?_⟩
    rw [heq,hiff]
    simp [hnone]
  | pattern _ hp ih =>
    obtain ⟨hchild,habove,hsome⟩ := ih.1.pattern hp
    refine ⟨hchild,by simpa using habove,?_⟩
    exact iff_of_true (hchild.special hsome) ⟨_,by simp,hsome⟩

/-- The nodes of the top and of all that is kept below it make an access tree. -/
theorem Formed.isTree {root : Node} (h : root.Formed)
    (htop : (Node.new ['/'] 0 [] []).SamePlace root) : root.IsTree := by
  have hlineage : ∀ {above n}, Lineage root above n → _ :=
    fun hn => h.lineage htop.isSpecial htop.pattern hn
  refine ⟨htop.path,htop.depth,htop.name,fun hn => ?_,fun hn p hp => ?_,fun hn c hc => ?_,
    fun hn => (hlineage hn).2.2,fun hn hregular c hc => ?_⟩
  · obtain ⟨-,habove,-⟩ := hlineage hn
    have hparent := habove _ rfl
    exact ⟨hparent.depth,hparent.path⟩
  · exact ((hlineage hn).1.pattern hp).2.2
  · obtain ⟨-,-,hname,hpattern,-⟩ := (hlineage hn).1.child hc
    exact ⟨hname,hpattern⟩
  · obtain ⟨-,-,-,-,hspecial⟩ := (hlineage hn).1.child hc
    exact hspecial.trans hregular

end Node

end Realm.Acl
