import Realm.Proofs.Acl.Placed

/-! How the answers of an engine before a visit compare to those after it. Nothing that is
asked of a node depends on more than the node and the shadow files from its directory on, so
that a visit matters only to what lies on its way. -/
namespace Realm.Acl

open Realm.Path (ofSegments AreNames)

variable {σ α : Type}

/-- A file system on which the shadow files of an engine keep out of each other's way. -/
abbrev Engine.Locality (e : Engine σ) :=
  e.shadow.Locality fun dir => e.shadowPath (ofSegments dir)

/-- Whether a directory has a shadow file. -/
def Engine.stored (e : Engine σ) (dir : List Text) (w : σ) : Except Error Bool :=
  (e.shadow.has (e.shadowPath (ofSegments dir)) w).1

/-- A directory that had no shadow file has got one. -/
def Engine.Made (e : Engine σ) (dir : List Text) (w w' : σ) : Prop :=
  e.stored dir w = .ok false ∧ e.stored dir w' = .ok true

/-- Whoever asks from a node on is told the same before and after, but for the directories
that have been made in between, where the grants of their source come on top, and for what is
left open. -/
def Engine.Answers (e : Engine σ) (made left : List Text → Prop) (dir : List Text)
    (before after : Node × σ) : Prop :=
  ∀ identity names bindings total, AreNames (dir ++ names) →
    (e.ask identity names bindings total after).1 = (e.ask identity names bindings total before).1 ∨
    (made names ∧ e.Made (dir ++ names) before.2 after.2 ∧
      ∃ p, (e.ask identity names bindings total before).1 = .ok p ∧
        (e.ask identity names bindings total after).1 = .ok (p.union
          (granted e.groups bindings identity (e.source (ofSegments (dir ++ names)))))) ∨
    left names

/-- What is so of the names that follow a first one. -/
def Beneath (name : Text) (P : List Text → Prop) (names : List Text) : Prop :=
  ∃ rest, names = name :: rest ∧ P rest

section

variable {e : Engine σ} {dir : List Text} {name : Text} {n n' : Node} {w w' : σ}

theorem Engine.Answers.mono {made made' left left' : List Text → Prop} {s s' : Node × σ}
    (h : e.Answers made left dir s s') (hmade : ∀ names, made names → made' names)
    (hleft : ∀ names, left names → left' names) : e.Answers made' left' dir s s' := by
  intro identity names bindings total hnames
  rcases h identity names bindings total hnames with h | ⟨hm,h⟩ | h
  · exact .inl h
  · exact .inr (.inl ⟨hmade names hm,h⟩)
  · exact .inr (.inr (hleft names h))

/-! Asking in states that agree. -/

variable {L : e.Locality}

theorem load_still (depth : Nat) (dir : List Text) (name : Text) {dir' : List Text}
    (h : L.agree dir' w w) : L.agree dir' (e.load (ofSegments dir) depth name w).2 w := by
  have hhas := L.has_still dir h
  rw [load_eq]
  rcases hs : e.shadow.has (e.shadowPath (ofSegments dir)) w with ⟨err | (_ | _),w₁⟩
  · rwa [hs] at hhas
  · rwa [hs] at hhas
  · rw [hs] at hhas
    have hread := L.read_still dir (L.trans hhas (L.symm hhas))
    dsimp only
    rcases hr : e.shadow.read (e.shadowPath (ofSegments dir)) w₁ with ⟨err | bytes,w₂⟩
    · rw [hr] at hread
      exact L.trans hread hhas
    · rw [hr] at hread
      exact L.trans hread hhas

theorem load_agree (depth : Nat) (name : Text) (hdir : AreNames dir) (h : L.agree dir w w') :
    (e.load (ofSegments dir) depth name w).1 = (e.load (ofSegments dir) depth name w').1 ∧
      L.agree dir (e.load (ofSegments dir) depth name w).2
        (e.load (ofSegments dir) depth name w').2 := by
  have hself := L.trans h (L.symm h)
  have hself' := L.trans (L.symm h) h
  refine ⟨?_,L.trans (load_still depth dir name hself)
    (L.trans h (L.symm (load_still depth dir name hself')))⟩
  have hhas := L.has_eq hdir h
  have hstill := L.has_still dir hself
  have hstill' := L.has_still dir hself'
  rw [load_eq,load_eq]
  rcases hs : e.shadow.has (e.shadowPath (ofSegments dir)) w with ⟨r,w₁⟩
  rcases hs' : e.shadow.has (e.shadowPath (ofSegments dir)) w' with ⟨r',w₁'⟩
  rw [hs] at hhas hstill
  rw [hs'] at hhas hstill'
  obtain rfl : r = r' := hhas
  rcases r with err | (_ | _)
  · rfl
  · rfl
  · have hread := L.read_eq hdir (L.trans hstill (L.trans h (L.symm hstill')))
    dsimp only at hread ⊢
    rcases hr : e.shadow.read (e.shadowPath (ofSegments dir)) w₁ with ⟨r,w₂⟩
    rcases hr' : e.shadow.read (e.shadowPath (ofSegments dir)) w₁' with ⟨r',w₂'⟩
    rw [hr,hr'] at hread
    obtain rfl : r = r' := hread
    cases r <;> rfl

theorem persist_agree (hn : n.Placed dir) (hdir : AreNames dir) (h : L.agree dir w w') :
    (e.persist n w).1 = (e.persist n w').1 ∧ L.agree dir (e.persist n w).2 (e.persist n w').2 := by
  rw [persist_eq e hn.regular,hn.path]
  have hstore := L.store_eq dir [] n.toShadow.toBytes (by simpa using hdir) h
  simpa using hstore

theorem create_agree {visit : Node → Visit σ α} (hn : n.Placed dir) (hn' : n'.Placed dir)
    (hdepth : n'.depth = n.depth) (hdir : AreNames (dir ++ [name]))
    (h : L.agree (dir ++ [name]) w' w)
    (hvisit : ∀ (c : Node) (w w' : σ), c.Placed (dir ++ [name]) →
      L.agree (dir ++ [name]) w' w → (visit c (c,w')).1 = (visit c (c,w)).1) :
    ((e.create name >>= fun c => Visit.child name c (visit c)) (n',w')).1 =
      ((e.create name >>= fun c => Visit.child name c (visit c)) (n,w)).1 := by
  obtain ⟨c,hc⟩ : ∃ c, c = e.seeded (dir ++ [name]) (n.depth + 1) name := ⟨_,rfl⟩
  have hplaced : c.Placed (dir ++ [name]) := hc ▸ .new ..
  have hc' : c = e.seeded (dir ++ [name]) (n'.depth + 1) name := by rw [hc,hdepth]
  obtain ⟨hresult,hstate⟩ := persist_agree hplaced hdir h
  rw [Action.bind_eq,Action.bind_eq,
    create_eq e name n w (hn.child_eq hdir.of_append.1 name) hc,
    create_eq e name n' w' (hn'.child_eq hdir.of_append.1 name) hc']
  rcases hp : e.persist c w with ⟨r,w₁⟩
  rcases hp' : e.persist c w' with ⟨r',w₁'⟩
  rw [hp,hp'] at hresult hstate
  obtain rfl : r' = r := hresult
  cases r' with
  | error err => rfl
  | ok u => exact hvisit c w₁ w₁' hplaced hstate

/-- The steps of an engine keep to the shadow files of their directories. -/
theorem Engine.confined (L : e.Locality) : e.Confined L.Within where
  refl := .refl _ _
  trans := .trans
  above := .above
  load depth name _ _ := FileSystem.Locality.within_of_still fun _ h => load_still depth _ name h
  persist w hdir hn := by
    rw [persist_eq e hn.regular,hn.path]
    exact FileSystem.Locality.within_store hdir _ w

/-- The same is told of a place if the first directory on the way to it looks the same, and so
do the patterns and the files beside it. -/
theorem resolve_agree (identity : Text) {names : List Text} (hdir : AreNames (dir ++ names))
    (hn : n.Placed dir) (hn' : n'.Placed dir) (hdepth : n'.depth = n.depth)
    (hfiles : n'.files = n.files) (hpatterns : n'.patterns = n.patterns)
    (hfirst : ∀ name rest, names = name :: rest →
      Table.get? name n'.children = Table.get? name n.children ∧ L.agree (dir ++ [name]) w' w)
    (bindings : Bindings) (total : Permission) :
    (e.resolve identity names bindings total (n',w')).1 =
      (e.resolve identity names bindings total (n,w)).1 := by
  induction names generalizing dir n n' w w' bindings total with
  | nil => rfl
  | cons name names ih =>
    -- Only the first step is taken at different nodes; below it both runs are at the same one.
    obtain ⟨hget,hagree⟩ := hfirst name names rfl
    rw [List.append_cons] at hdir
    have hname := hdir.of_append.1
    have hrest : ∀ (c : Node) (w w' : σ), c.Placed (dir ++ [name]) →
        L.agree (dir ++ [name]) w' w → ∀ bindings total,
        (e.resolve identity names bindings total (c,w')).1 =
          (e.resolve identity names bindings total (c,w)).1 := by
      intro c w w' hc h
      exact ih hdir hc hc rfl rfl rfl fun name' _ _ => ⟨rfl,L.below [name'] h⟩
    have hmatch : n'.match? name = n.match? name := congrArg (Node.firstMatch name) hpatterns
    rw [resolve_cons,resolve_cons,child?_eq,child?_eq,hget]
    cases hc : Table.get? name n.children with
    | some c => exact hrest c w w' (hn.child hc) hagree _ _
    | none =>
      simp only [hn.regular,hn'.regular,Bool.false_eq_true,if_false,hdepth,
        hn.child_eq hname.of_append.1,hn'.child_eq hname.of_append.1]
      obtain ⟨hresult,hstate⟩ := load_agree (n.depth + 1) name hname hagree
      rcases hl : e.load (ofSegments (dir ++ [name])) (n.depth + 1) name w with ⟨r,w₁⟩
      rcases hl' : e.load (ofSegments (dir ++ [name])) (n.depth + 1) name w' with ⟨r',w₁'⟩
      rw [hl,hl'] at hresult hstate
      obtain rfl : r' = r := hresult
      rcases r' with err | (_ | c)
      · rfl
      · dsimp only
        rw [hmatch,hfiles]
        cases hm : n.match? name with
        | some r =>
          have hinner := hn.inner _ (mem_of_firstMatch hm)
          obtain ⟨_,h⟩ := resolve_inner e identity hinner names (Table.insertAll r.2.2 bindings)
            (r.2.1.apply e.groups (Table.insertAll r.2.2 bindings) identity total) w₁
          obtain ⟨_,h'⟩ := resolve_inner e identity hinner names (Table.insertAll r.2.2 bindings)
            (r.2.1.apply e.groups (Table.insertAll r.2.2 bindings) identity total) w₁'
          simp only [Visit.inner,h,h']
        | none =>
          dsimp only
          cases Table.get? name n.files with
          | some f => rfl
          | none =>
            dsimp only
            rw [hn.regular,hn'.regular]
            split
            · rfl
            · exact create_agree hn hn' hdepth hname hstate fun c _ _ hc h => hrest c _ _ hc h _ _
      · have hplaced : c.Placed (dir ++ [name]) := .of_load (congrArg Prod.fst hl)
        exact hrest c w₁ w₁' hplaced hstate _ _

/-! What the steps of a visit matter. -/

theorem apply_of_bare (h : n'.bare = n.bare) (groups : Groups) (bindings : Bindings)
    (identity : Text) (total : Permission) :
    n'.apply groups bindings identity total = n.apply groups bindings identity total := by
  rw [← Node.apply_bare,h,Node.apply_bare]

theorem ask_agree (identity : Text) {names : List Text} (hdir : AreNames (dir ++ names))
    (hn : n.Placed dir) (hn' : n'.Placed dir) (hbare : n'.bare = n.bare)
    (hfirst : ∀ name rest, names = name :: rest →
      Table.get? name n'.children = Table.get? name n.children ∧ L.agree (dir ++ [name]) w' w)
    (bindings : Bindings) (total : Permission) :
    (e.ask identity names bindings total (n',w')).1 =
      (e.ask identity names bindings total (n,w)).1 := by
  have htotal := apply_of_bare hbare e.groups bindings identity total
  show (e.resolve identity names bindings (n'.apply e.groups bindings identity total) (n',w')).1 =
    (e.resolve identity names bindings (n.apply e.groups bindings identity total) (n,w)).1
  have hdepth : n'.depth = n.depth := by rw [← Node.depth_bare,hbare,Node.depth_bare]
  have hfiles : n'.files = n.files := by rw [← Node.files_bare,hbare,Node.files_bare]
  have hpatterns : n'.patterns = n.patterns := by
    rw [← Node.patterns_bare,hbare,Node.patterns_bare]
  rw [htotal]
  exact resolve_agree identity hdir hn hn' hdepth hfiles hpatterns hfirst bindings _

theorem answers_unmoved (hn : n.Placed dir)
    (hagree : ∀ name, AreNames (dir ++ [name]) → L.agree (dir ++ [name]) w' w)
    (made left : List Text → Prop) : e.Answers made left dir (n,w) (n,w') := by
  intro identity names bindings total hnames
  have hfirst : ∀ name rest, names = name :: rest →
      Table.get? name n.children = Table.get? name n.children ∧ L.agree (dir ++ [name]) w' w := by
    intro name rest hcons
    rw [hcons,List.append_cons] at hnames
    exact ⟨rfl,hagree name hnames.of_append.1⟩
  exact .inl (ask_agree identity hnames hn hn rfl hfirst bindings total)

theorem answers_loaded (hfine : L.agree [] w w) (hn : n.Placed dir) {place : List Text}
    {depth : Nat} {r : Except Error (Option Node)} {w₁ : σ}
    (hload : e.load (ofSegments place) depth name w = (r,w₁)) (made left : List Text → Prop) :
    e.Answers made left dir (n,w) (n,w₁) := by
  have hagree : ∀ name', AreNames (dir ++ [name']) → L.agree (dir ++ [name']) w₁ w := by
    intro name' _
    have h := load_still depth place name (L.below (dir ++ [name']) hfine)
    rwa [hload] at h
  exact answers_unmoved hn hagree made left

/-- Places that are not beneath a child look the same after a visit to it. -/
theorem ask_beside (hfine : L.agree [] w w) (hn : n.Placed dir) {n₁ : Node} (hn₁ : n.ExceptAt name n₁)
    (hplaced : n₁.Placed dir) (hw : L.Within (dir ++ [name]) w w') (identity : Text)
    {names : List Text} (hdir : AreNames (dir ++ names)) (hne : ∀ rest, names ≠ name :: rest)
    (bindings : Bindings) (total : Permission) :
    (e.ask identity names bindings total (n₁,w')).1 =
      (e.ask identity names bindings total (n,w)).1 := by
  have hfirst : ∀ name rest, names = name :: rest →
      Table.get? name n₁.children = Table.get? name n.children ∧ L.agree (dir ++ [name]) w' w := by
    intro name' rest hcons
    have hname : name' ≠ name := fun h => hne rest (h ▸ hcons)
    exact ⟨hn₁.others name' hname,(hw hfine).beside hname⟩
  exact ask_agree identity hdir hn hplaced hn₁.bare hfirst bindings total

theorem ask_child {c : Node} {s : Node × σ} (h : e.child? name (n,w) = (.ok (some c),s))
    (identity : Text) (names : List Text) (bindings : Bindings) (total : Permission) :
    (e.ask identity (name :: names) bindings total (n,w)).1 =
      (e.ask identity names bindings (n.apply e.groups bindings identity total) (c,s.2)).1 := by
  rw [Engine.ask,resolve_cons,h]
  rfl

@[simp] theorem child?_withChild (e : Engine σ) (n : Node) (name : Text) (c : Node) (w : σ) :
    e.child? name (n.withChild name c,w) = (.ok (some c),(n.withChild name c,w)) := by
  rw [child?_eq,Node.get?_withChild]

theorem answers_child (hfine : L.agree [] w w) (hn : n.Placed dir) {c c' n₁ : Node} {w₁ : σ}
    (hchild : e.child? name (n,w) = (.ok (some c),(n₁,w₁))) (hn₁ : n.ExceptAt name n₁)
    (hw₁ : L.Within (dir ++ [name]) w w₁) (hc' : c'.Placed (dir ++ [name]))
    (hw' : L.Within (dir ++ [name]) w₁ w') {made left : List Text → Prop}
    (h : e.Answers made left (dir ++ [name]) (c,w₁) (c',w')) :
    e.Answers (Beneath name made) (Beneath name left) dir (n,w) (n₁.withChild name c',w') := by
  intro identity names bindings total hnames
  have hafter := hn₁.withChild c'
  by_cases hbeneath : ∃ rest, names = name :: rest
  · obtain ⟨rest,rfl⟩ := hbeneath
    have htotal := apply_of_bare hafter.bare e.groups bindings identity total
    rw [List.append_cons] at hnames
    rw [ask_child hchild,ask_child (child?_withChild e n₁ name c' w'),htotal]
    rcases h identity rest bindings (n.apply e.groups bindings identity total) hnames with
      hsame | ⟨hm,⟨hno,hyes⟩,hp⟩ | hleft
    · exact .inl hsame
    · refine .inr (.inl ⟨⟨rest,rfl,hm⟩,?_⟩)
      rw [List.append_cons]
      exact ⟨⟨(hw₁ hfine).before _ hnames hno,hyes⟩,hp⟩
    · exact .inr (.inr ⟨rest,rfl,hleft⟩)
  · exact .inl (ask_beside hfine hn hafter (hn.withChild hn₁ hc') (hw₁.trans hw') identity hnames
      (fun rest hcons => hbeneath ⟨rest,hcons⟩) bindings total)

/-- Whether a directory has a rule for a name that is not the name of a node: that of a pattern
or of a file. -/
def Node.HasRule (n : Node) (name : Text) : Prop :=
  n.match? name ≠ none ∨ Table.get? name n.files ≠ none

theorem Node.hasRule_of_bare (h : n'.bare = n.bare) (name : Text) :
    n'.HasRule name ↔ n.HasRule name := by
  rw [HasRule,HasRule,← match?_bare,← files_bare,h,match?_bare,files_bare]

@[simp] theorem seeded_apply (e : Engine σ) (dir : List Text) (depth : Nat) (name : Text)
    (groups : Groups) (bindings : Bindings) (identity : Text) (total : Permission) :
    (e.seeded dir depth name).apply groups bindings identity total =
      total.union (granted groups bindings identity (e.source (ofSegments dir))) :=
  rfl

/-- Nothing is known of a place without a node or a rule. Where it lies on the way to another
its node is made. -/
theorem ask_missing (hn : n.Placed dir) {w₁ w₂ : σ} {c n₁ : Node}
    (hchild : e.child? name (n,w) = (.ok none,(n,w₁)))
    (hcreate : e.create name (n,w₁) = (.ok c,(n₁,w₂))) (hrule : ¬ n.HasRule name)
    (identity : Text) (names : List Text) (bindings : Bindings) (total : Permission) :
    (e.ask identity (name :: names) bindings total (n,w)).1 =
      if names = [] then .ok (n.apply e.groups bindings identity total)
      else (e.ask identity names bindings (n.apply e.groups bindings identity total) (c,w₂)).1 := by
  obtain ⟨hmatch,hfile⟩ : n.match? name = none ∧ Table.get? name n.files = none := by
    simpa [Node.HasRule] using hrule
  rw [Engine.ask,resolve_cons,hchild]
  simp only [hmatch,hfile,hn.regular,Bool.or_false,List.isEmpty_iff]
  split
  · rfl
  · rw [Action.bind_eq,hcreate]
    rfl

/-- A visit to a child that is made for it matters to the child and to what lies beneath it,
and to more than that where a rule stood in its place. -/
theorem answers_create (hfine : L.agree [] w w) (hn : n.Placed dir)
    (hname : AreNames (dir ++ [name])) {c c' n₁ : Node} {w₁ w₂ : σ}
    (hchild : e.child? name (n,w) = (.ok none,(n,w₁)))
    (hload : e.load (ofSegments (dir ++ [name])) (n.depth + 1) name w = (.ok none,w₁))
    (hcreate : e.create name (n,w₁) = (.ok c,(n₁,w₂))) (hn₁ : n.ExceptAt name n₁)
    (hc : c = e.seeded (dir ++ [name]) (n.depth + 1) name) (hpersist : e.persist c w₁ = (.ok (),w₂))
    (hw₁ : L.Within (dir ++ [name]) w w₁) (hw₂ : L.Within (dir ++ [name]) w₁ w₂)
    (hc' : c'.Placed (dir ++ [name])) (hw' : L.Within (dir ++ [name]) w₂ w')
    {made left : List Text → Prop} (hmade : ¬ made [])
    (h : e.Answers made left (dir ++ [name]) (c,w₂) (c',w')) :
    e.Answers (Beneath name fun rest => rest = [] ∨ made rest)
      (Beneath name fun rest => (n.HasRule name ∧ e.Made (dir ++ [name]) w w') ∨ left rest)
      dir (n,w) (n₁.withChild name c',w') := by
  have hfine₁ := (hw₁ hfine).fine
  have hfine₂ := (hw₂ hfine₁).fine
  have hplaced : c.Placed (dir ++ [name]) := hc ▸ .new ..
  have hno : e.stored (dir ++ [name]) w = .ok false := has_of_load_none (congrArg Prod.fst hload)
  have hnew : e.stored (dir ++ [name]) w₂ = .ok true := by
    rw [persist_eq e hplaced.regular,hplaced.path] at hpersist
    have hstored := L.has_stored (c := c.toShadow.toBytes) hname
      (FileSystem.Locality.fine_below hfine₁ _) (congrArg Prod.fst hpersist)
    rwa [hpersist] at hstored
  have hyes := (hw' hfine₂).kept _ hname hnew
  have hafter := hn₁.withChild c'
  intro identity names bindings total hnames
  by_cases hbeneath : ∃ rest, names = name :: rest
  · obtain ⟨rest,rfl⟩ := hbeneath
    -- From now on the node is found in the place of the rule.
    by_cases hrule : n.HasRule name
    · exact .inr (.inr ⟨rest,rfl,.inl ⟨hrule,hno,hyes⟩⟩)
    have htotal := apply_of_bare hafter.bare e.groups bindings identity total
    rw [ask_missing hn hchild hcreate hrule,ask_child (child?_withChild e n₁ name c' w'),htotal]
    rw [List.append_cons] at hnames
    have hrest := h identity rest bindings (n.apply e.groups bindings identity total) hnames
    by_cases hlast : rest = []
    · subst hlast
      rw [if_pos rfl]
      rcases hrest with hsame | ⟨hm,-⟩ | hleft
      · refine .inr (.inl ⟨⟨[],rfl,.inl rfl⟩,⟨hno,hyes⟩,_,rfl,hsame.trans ?_⟩)
        show Except.ok (c.apply e.groups bindings identity _) = _
        rw [hc,seeded_apply]
      · exact absurd hm hmade
      · exact .inr (.inr ⟨[],rfl,.inr hleft⟩)
    · rw [if_neg hlast]
      rcases hrest with hsame | ⟨hm,⟨hno',hyes'⟩,hp⟩ | hleft
      · exact .inl hsame
      · refine .inr (.inl ⟨⟨rest,rfl,.inr hm⟩,?_⟩)
        rw [List.append_cons]
        exact ⟨⟨(hw₁.trans hw₂ hfine).before _ hnames hno',hyes'⟩,hp⟩
      · exact .inr (.inr ⟨rest,rfl,.inr hleft⟩)
  · have hplaced' := hn.withChild hn₁ hc'
    exact .inl (ask_beside hfine hn hafter hplaced' ((hw₁.trans hw₂).trans hw') identity hnames
      (fun rest hcons => hbeneath ⟨rest,hcons⟩) bindings total)

theorem answers_refused (hfine : L.agree [] w w) (hn : n.Placed dir)
    (hname : AreNames (dir ++ [name])) {c : Node} {err : Error} {w₁ w₂ : σ}
    (hload : e.load (ofSegments (dir ++ [name])) (n.depth + 1) name w = (.ok none,w₁))
    (hc : c.Placed (dir ++ [name])) (hpersist : e.persist c w₁ = (.error err,w₂))
    (hw₂ : L.Within (dir ++ [name]) w₁ w₂) (made left : List Text → Prop) :
    e.Answers made left dir (n,w) (n,w₂) := by
  have hstill : ∀ dir', L.agree dir' w₁ w := by
    intro dir'
    have h := load_still (n.depth + 1) (dir ++ [name]) name
      (FileSystem.Locality.fine_below hfine dir')
    rwa [hload] at h
  have hfine₁ := L.trans (hstill []) (L.symm (hstill []))
  refine answers_unmoved hn (fun name' _ => L.trans ?_ (hstill (dir ++ [name']))) made left
  rw [persist_eq e hc.regular,hc.path] at hpersist
  by_cases hne : name' = name
  · subst hne
    have hrefused := L.store_refused (c := c.toShadow.toBytes) hname
      (FileSystem.Locality.fine_below hfine₁ _) (congrArg Prod.fst hpersist)
    rwa [hpersist] at hrefused
  · exact (hw₂ hfine₁).beside hne

/-! From the top. -/

/-- Whoever asks an engine is told the same in two states, but for the directories that have
been made in between, where the grants of their source come on top, and for what is left
open. -/
def Engine.Tells (e : Engine σ) (made left : List Text → Prop) (s s' : Cache × σ) : Prop :=
  ∀ path identity,
    (e.effective path identity s').1 = (e.effective path identity s).1 ∨
    (made (Path.segments path) ∧ e.Made (Path.segments path) s.2 s'.2 ∧
      ∃ p, (e.effective path identity s).1 = .ok p ∧
        (e.effective path identity s').1 = .ok (p.union
          (granted e.groups [] identity (e.source (Path.normalize path))))) ∨
    left (Path.segments path)

theorem stored_agree (hdir : AreNames dir) (h : L.agree [] w w') : e.stored dir w = e.stored dir w' :=
  L.has_eq hdir (L.below dir h)

theorem visitTop_again {err : Error} (hfine : L.agree [] w w)
    (h : e.load (ofSegments []) 0 [] w = (.error err,w')) (visit : Visit σ α) :
    (e.visitTop visit (none,w')).1 = .error err := by
  have hstill := load_still 0 [] [] hfine
  rw [h] at hstill
  have hagain := (load_agree 0 [] Path.areNames_nil hstill).1
  rw [h] at hagain
  replace hagain : (e.load ['/'] 0 [] w').1 = .error err := hagain
  simp only [Engine.visitTop]
  rcases hl : e.load ['/'] 0 [] w' with ⟨r,w₁⟩
  rw [hl] at hagain
  obtain rfl : r = .error err := hagain
  rfl

/-- A visit to the top begins in a state that cannot be told from the one before. -/
theorem begins_agree {s : Cache × σ} (hfine : L.agree [] s.2 s.2)
    (hw : w = s.2 ∨ w = (e.load (ofSegments []) 0 [] s.2).2) : L.agree [] w s.2 := by
  rcases hw with rfl | rfl
  · exact hfine
  · exact load_still 0 [] [] hfine

/-- What a visit to the top matters to whoever asks from there on, it matters to whoever asks
the engine. -/
theorem visitTop_tells {s : Cache × σ} (hs : s.1.Placed) (hfine : L.agree [] s.2 s.2)
    {visit : Visit σ α} {made left : List Text → Prop}
    (h : ∀ n w, n.Placed [] → L.agree [] w s.2 →
      (∀ {β : Type} (v : Visit σ β),
        e.visitTop v s = ((v (n,w)).1,(some (v (n,w)).2.1,(v (n,w)).2.2))) →
      e.Answers made left [] (n,w) (visit (n,w)).2) :
    e.Tells made left s (e.visitTop visit s).2 := by
  intro path identity
  rw [effective_eq]
  rcases visitTop_begins e hs with ⟨n,w,hn,hw,htop⟩ | ⟨err,w,hl,htop⟩
  · have hagree := begins_agree hfine hw
    have hans := h n w hn hagree htop identity (Path.segments path) [] Permission.empty
      (Path.areNames_segments path)
    rw [htop visit,htop (e.ask identity (Path.segments path) [] Permission.empty)]
    rcases hans with hsame | ⟨hm,⟨hno,hyes⟩,hp⟩ | hleft
    · exact .inl hsame
    · refine .inr (.inl ⟨hm,⟨?_,hyes⟩,hp⟩)
      exact (stored_agree (Path.areNames_segments path) hagree).symm.trans hno
    · exact .inr (.inr hleft)
  · rw [htop visit,htop (e.ask identity (Path.segments path) [] Permission.empty)]
    exact .inl (visitTop_again hfine hl _)

end

end Realm.Acl
