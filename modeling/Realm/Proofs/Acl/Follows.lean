import Realm.Proofs.Acl.Fresh

/-! The visits of an engine that keeps nodes, step by step beside those of one that keeps
none. -/
namespace Realm.Acl

open Realm.Path (ofSegments AreNames)

variable {σ α β : Type}

theorem Action.unnoted_eq {x : Action σ α} {w w' : σ} {r : Except Error α} (h : x w = (r,w'))
    (b : Bool) : x.unnoted (w,b) = (r,(w',b)) := by
  rw [Action.unnoted,h]

theorem Action.noting_eq {x : Action σ α} {w w' : σ} {r : Except Error α} (h : x w = (r,w')) :
    x.noting (w,false) = (r,(w',!r.isOk)) := by
  rw [Action.noting,h]
  rfl

/-! The steps of visits on a state. -/

theorem child?_eq (e : Engine σ) (name : Text) (n : Node) (s : σ) :
    e.child? name (n,s) =
      match Table.get? name n.children with
      | some c => (.ok (some c),(n,s))
      | none =>
        if n.isSpecial then (.ok none,(n,s))
        else
          match e.load (Path.child n.path name) (n.depth + 1) name s with
          | (.ok (some c),s) => (.ok (some c),(n.withChild name c,s))
          | (.ok none,s) => (.ok none,(n,s))
          | (.error err,s) => (.error err,(n,s)) := by
  rw [Engine.child?,Action.bind_eq]
  show (match Table.get? name n.children with
    | some c => _
    | none => _ : Visit _ _) (n,s) = _
  cases Table.get? name n.children with
  | some c => rfl
  | none =>
    simp only
    split
    · rfl
    · rw [Action.bind_eq,Visit.outside]
      rcases e.load (Path.child n.path name) (n.depth + 1) name s with ⟨_ | _ | _,_⟩ <;> rfl

theorem create_eq (e : Engine σ) (name : Text) (n : Node) (s : σ) {dir : Text}
    (hdir : Path.child n.path name = dir) {c : Node}
    (hc : c = Node.new dir (n.depth + 1) name (e.source dir)) :
    e.create name (n,s) =
      match e.persist c s with
      | (.ok _,s) => (.ok c,(n.withChild name c,s))
      | (.error err,s) => (.error err,(n,s)) := by
  subst hdir
  rw [Engine.create,Action.bind_eq]
  change (Visit.outside (e.persist (Node.new (Path.child n.path name) (n.depth + 1) name
    (e.source (Path.child n.path name)))) >>= fun _ => _) (n,s) = _
  rw [← hc,Action.bind_eq,Visit.outside]
  rcases e.persist c s with ⟨_ | _,_⟩
  · rfl
  · subst hc
    rfl

@[simp] theorem Visit.child_eq (name : Text) (c : Node) (visit : Visit σ α) (n : Node) (s : σ) :
    Visit.child name c visit (n,s) =
      ((visit (c,s)).1,(n.withChild name (visit (c,s)).2.1,(visit (c,s)).2.2)) :=
  rfl

theorem resolve_cons (e : Engine σ) (identity name : Text) (names : List Text)
    (bindings : Bindings) (total : Permission) (n : Node) (s : σ) :
    e.resolve identity (name :: names) bindings total (n,s) =
      match e.child? name (n,s) with
      | (.error err,x) => (.error err,x)
      | (.ok (some c),x) =>
        Visit.child name c
          (e.resolve identity names bindings (c.apply e.groups bindings identity total)) x
      | (.ok none,(n,s)) =>
        match n.match? name with
        | some (_,c,bound) =>
          Visit.inner c
            (e.resolve identity names (Table.insertAll bound bindings)
              (c.apply e.groups (Table.insertAll bound bindings) identity total)) (n,s)
        | none =>
          match Table.get? name n.files with
          | some f => (.ok (f.apply e.groups bindings identity total),(n,s))
          | none =>
            if names.isEmpty || n.isSpecial then (.ok total,(n,s))
            else
              (e.create name >>= fun c => Visit.child name c
                (e.resolve identity names bindings (c.apply e.groups bindings identity total)))
                (n,s) := by
  rw [Engine.resolve,Action.bind_eq]
  rcases e.child? name (n,s) with ⟨err | (_ | c),n,s⟩
  · rfl
  · show (match n.match? name with
      | some (_,c,bound) => _
      | none => _ : Visit _ _) (n,s) = _
    dsimp only
    cases n.match? name with
    | some r => rfl
    | none =>
      simp only
      cases Table.get? name n.files with
      | some f => rfl
      | none =>
        simp only
        split <;> rfl
  · rfl

theorem Fresh.resolve_cons (e : Engine σ) (identity name : Text) (names : List Text) (n : Node)
    (bindings : Bindings) (total : Permission) (s : σ) :
    Fresh.resolve e identity (name :: names) n bindings total s =
      match e.load (Path.child n.path name) (n.depth + 1) name s with
      | (.error err,s) => (.error err,s)
      | (.ok (some c),s) =>
        Fresh.resolve e identity names c bindings (c.apply e.groups bindings identity total) s
      | (.ok none,s) =>
        match n.match? name with
        | some (_,c,bound) =>
          (.ok (Fresh.inside e.groups identity names c (Table.insertAll bound bindings)
            (c.apply e.groups (Table.insertAll bound bindings) identity total)),s)
        | none =>
          match Table.get? name n.files with
          | some f => (.ok (f.apply e.groups bindings identity total),s)
          | none =>
            if names.isEmpty then (.ok total,s)
            else
              (Fresh.create e n name >>= fun c => Fresh.resolve e identity names c bindings
                (c.apply e.groups bindings identity total)) s := by
  rw [Fresh.resolve,Action.bind_eq]
  rcases e.load (Path.child n.path name) (n.depth + 1) name s with ⟨err | (_ | c),s⟩
  · rfl
  · simp only
    cases n.match? name with
    | some r => rfl
    | none =>
      simp only
      cases Table.get? name n.files with
      | some f => rfl
      | none =>
        simp only
        split <;> rfl
  · rfl

theorem visitDirectory_cons (e : Engine σ) (dir : Text) (absent : Option α) (visit : Visit σ α)
    (name : Text) (names : List Text) (n : Node) (s : σ) :
    e.visitDirectory dir absent visit (name :: names) (n,s) =
      if n.isSpecial then (.error (.config (.beneathPattern dir)),(n,s))
      else
        match e.child? name (n,s) with
        | (.error err,x) => (.error err,x)
        | (.ok (some c),x) => Visit.child name c (e.visitDirectory dir absent visit names) x
        | (.ok none,x) =>
          match absent with
          | some a => (.ok a,x)
          | none =>
            (e.create name >>= fun c =>
              Visit.child name c (e.visitDirectory dir absent visit names)) x := by
  simp only [Engine.visitDirectory]
  rw [Action.bind_eq]
  show (if n.isSpecial then _ else _ : Visit _ _) (n,s) = _
  split
  · rfl
  · rw [Action.bind_eq]
    rcases e.child? name (n,s) with ⟨err | (_ | c),x⟩
    · rfl
    · cases absent <;> rfl
    · rfl

theorem Fresh.visitDirectory_cons (e : Engine σ) (absent : Option α)
    (visit : Node → Action σ α) (name : Text) (names : List Text) (n : Node) (s : σ) :
    Fresh.visitDirectory e absent visit (name :: names) n s =
      match e.load (Path.child n.path name) (n.depth + 1) name s with
      | (.error err,s) => (.error err,s)
      | (.ok (some c),s) => Fresh.visitDirectory e absent visit names c s
      | (.ok none,s) =>
        match absent with
        | some a => (.ok a,s)
        | none => (Fresh.create e n name >>= Fresh.visitDirectory e absent visit names) s := by
  simp only [Fresh.visitDirectory]
  rw [Action.bind_eq]
  rcases e.load (Path.child n.path name) (n.depth + 1) name s with ⟨err | (_ | c),s⟩
  · rfl
  · cases absent <;> rfl
  · rfl

theorem resolve_inner (e : Engine σ) (identity : Text) {n : Node} (hn : n.Inner)
    (names : List Text) (bindings : Bindings) (total : Permission) (s : σ) :
    ∃ n', e.resolve identity names bindings total (n,s) =
      (.ok (Fresh.inside e.groups identity names n bindings total),(n',s)) := by
  induction names generalizing n bindings total with
  | nil => exact ⟨n,rfl⟩
  | cons name names ih =>
    have hspecial : n.isSpecial = true := by
      cases hn
      rfl
    have hpatterns : ∀ p ∈ n.patterns, p.Inner := by
      cases hn with
      | mk hps _ => exact hps
    have hchildren : ∀ c ∈ n.children, c.2.Inner := by
      cases hn with
      | mk _ hcs => exact hcs
    rw [resolve_cons,child?_eq,Fresh.inside]
    cases hget : Table.get? name n.children with
    | some c =>
      obtain ⟨c',hc'⟩ := ih (hchildren _ (Table.mem_of_get? hget)) bindings
        (c.apply e.groups bindings identity total)
      simp only [Visit.child,hc']
      exact ⟨_,rfl⟩
    | none =>
      simp only [hspecial,if_true]
      cases hmatch : n.match? name with
      | some r =>
        obtain ⟨c',hc'⟩ := ih (hpatterns _ (mem_of_firstMatch hmatch))
          (Table.insertAll r.2.2 bindings)
          (r.2.1.apply e.groups (Table.insertAll r.2.2 bindings) identity total)
        simp only [Visit.inner,hc']
        exact ⟨_,rfl⟩
      | none =>
        simp only
        cases Table.get? name n.files with
        | some f => exact ⟨_,rfl⟩
        | none => exact ⟨n,by simp⟩

section Steps

variable {e : Engine σ} {F : FileSystem.Contents e.shadow e.IsShadowFile}
  {v v' : σ × Bool} {dir : List Text} {n : Node}

theorem isShadowFile (h : Plain dir) : e.IsShadowFile (e.shadowPath (ofSegments dir)) :=
  ⟨dir,h,rfl⟩

/-- The node of a directory is read if there is a shadow file, and nothing is changed. -/
theorem load_spec (hR : Ready F v) (hp : Plain dir) :
    (e.noting.load (ofSegments dir) dir.length (dir.getLastD []) v = (.ok none,v) ∧
      fileAt F v dir = none) ∨
    ∃ n, e.noting.load (ofSegments dir) dir.length (dir.getLastD []) v = (.ok (some n),v) ∧
      fileAt F v dir ≠ none ∧ Stored F v dir n := by
  obtain ⟨w,b⟩ := v
  have hhas : e.noting.shadow.has (e.noting.shadowPath (ofSegments dir)) (w,b) =
      (.ok (fileAt F (w,b) dir).isSome,(w,b)) :=
    Action.unnoted_eq (F.has_eq w _ hR.fine (isShadowFile hp)) b
  cases hfile : fileAt F (w,b) dir with
  | none =>
    refine .inl ⟨?_,rfl⟩
    rw [hfile] at hhas
    rw [Engine.load,Action.bind_eq]
    rw [hhas]
    rfl
  | some bytes =>
    obtain ⟨n,⟨s,hs,hn⟩,hsound⟩ := hR.accepted dir hp bytes hfile
    have hread : e.noting.shadow.read (e.noting.shadowPath (ofSegments dir)) (w,b) =
        (.ok bytes,(w,b)) :=
      Action.unnoted_eq (F.read_eq w _ bytes hR.fine (isShadowFile hp) hfile) b
    refine .inr ⟨n,?_,by simp,.inl ⟨bytes,hfile,⟨s,hs,hn⟩,hsound⟩⟩
    rw [hfile] at hhas
    rw [Engine.load,Action.bind_eq]
    rw [hhas]
    simp only [Option.isSome_some,if_true]
    rw [Action.bind_eq,hread]
    simp only [hs,hn]
    rfl

theorem Node.Sound.accepts (hn : n.Sound) (hpath : n.path = ofSegments dir)
    (hdepth : n.depth = dir.length) (hname : n.name = dir.getLastD []) :
    Accepts dir n.toShadow.toBytes n.bare := by
  refine ⟨n.toShadow,Shadow.ofBytes_toBytes hn.wellFormed hn.shallow,?_⟩
  rw [← hpath,← hdepth,← hname]
  exact hn.ofShadow_toShadow

/-- A sound node is stored, and only its own shadow file is changed, unless a change is
refused. -/
theorem persist_spec (hr : Path.IsNormal e.shadowRoot) (hR : Ready F v) (hp : Plain dir)
    (hn : n.Sound) (hpath : n.path = ofSegments dir) (hdepth : n.depth = dir.length)
    (hname : n.name = dir.getLastD []) {r : Except Error Unit}
    (h : e.noting.persist n v = (r,v')) (hv : v'.2 = false ∨ r = .ok ()) :
    r = .ok () ∧ Ready F v' ∧ Stored F v' dir n.bare ∧
      ∀ dir', Plain dir' → dir' ≠ dir → fileAt F v' dir' = fileAt F v dir' := by
  obtain ⟨w,b⟩ := v
  obtain rfl : b = false := hR.unrefused
  have hfile := isShadowFile (e := e) hp
  rw [Engine.persist,hn.regular,hpath] at h
  simp only [Bool.false_eq_true,if_false] at h
  rw [Action.bind_eq] at h
  rcases hm : e.shadow.makeDir (Path.parent (e.shadowPath (ofSegments dir))) true w with ⟨r₁,w₁⟩
  have hm' : e.noting.shadow.makeDir (Path.parent (e.noting.shadowPath (ofSegments dir))) true
      (w,false) = (r₁,(w₁,!r₁.isOk)) := Action.noting_eq hm
  rw [hm'] at h
  cases r₁ with
  | error err =>
    cases h
    simp [Except.isOk,Except.toBool] at hv
  | ok u =>
    obtain ⟨hfine₁,hseen₁⟩ := F.makeDir_keeps w w₁ _ hR.fine hfile hm
    rcases hw : e.shadow.write (e.shadowPath (ofSegments dir)) n.toShadow.toBytes w₁ with ⟨r₂,w₂⟩
    have hw' : e.noting.shadow.write (e.noting.shadowPath (ofSegments dir)) n.toShadow.toBytes
        (w₁,false) = (r₂,(w₂,!r₂.isOk)) := Action.noting_eq hw
    change e.noting.shadow.write (e.noting.shadowPath (ofSegments dir)) n.toShadow.toBytes
        (w₁,false) = _ at h
    rw [hw'] at h
    cases r₂ with
    | error err =>
      cases h
      simp [Except.isOk,Except.toBool] at hv
    | ok u =>
      cases h
      obtain ⟨hfine₂,hnew,hseen₂⟩ := F.write_keeps w₁ w₂ _ _ hfine₁ hfile hw
      have hacc := hn.accepts hpath hdepth hname
      have hframe : ∀ dir', Plain dir' → dir' ≠ dir →
          fileAt F (w₂,false) dir' = fileAt F (w,false) dir' := by
        intro dir' hp' hne
        have hne' : e.shadowPath (ofSegments dir') ≠ e.shadowPath (ofSegments dir) :=
          fun he => hne (Engine.shadowPath_inj hr hp'.1 hp.1 he)
        exact (hseen₂ _ (isShadowFile hp') hne').trans (hseen₁ _ (isShadowFile hp'))
      have hsound := Node.sound_bare_iff.2 hn
      refine ⟨rfl,⟨rfl,hfine₂,fun dir' hp' bytes hb => ?_⟩,.inl ⟨_,hnew,hacc,hsound⟩,hframe⟩
      by_cases hd : dir' = dir
      · subst hd
        obtain rfl : n.toShadow.toBytes = bytes := Option.some.inj (hnew.symm.trans hb)
        exact ⟨n.bare,hacc,hsound⟩
      · exact hR.accepted dir' hp' bytes (by rw [← hframe dir' hp' hd]; exact hb)

theorem Kept.place (hsrc : ∀ d, (e.source d).Sorted) (hK : Kept F v dir n) (name : Text) :
    Path.child n.path name = ofSegments (dir ++ [name]) ∧
      n.depth + 1 = (dir ++ [name]).length ∧ name = (dir ++ [name]).getLastD [] := by
  obtain ⟨-,hp,hd,-⟩ := hK.spec hsrc
  have hplain : Plain dir := by
    cases hK with
    | mk h _ _ => exact h
  refine ⟨?_,by simp [hd],by simp⟩
  rw [hp,Path.child_ofSegments hplain.1]

theorem child?_spec (hsrc : ∀ d, (e.source d).Sorted) (hR : Ready F v) (hK : Kept F v dir n)
    {name : Text} (hp : Plain (dir ++ [name])) :
    (e.noting.child? name (n,v) = (.ok none,(n,v)) ∧
      e.noting.load (Path.child n.path name) (n.depth + 1) name v = (.ok none,v)) ∨
    ∃ c n', e.noting.child? name (n,v) = (.ok (some c),(n',v)) ∧
      e.noting.load (Path.child n.path name) (n.depth + 1) name v = (.ok (some c.bare),v) ∧
      Kept F v (dir ++ [name]) c ∧ Kept F v dir n' ∧ n'.bare = n.bare := by
  obtain ⟨hsound,-,-,-⟩ := hK.spec hsrc
  obtain ⟨hpath,hdepth,hname⟩ := hK.place hsrc name
  have hload := load_spec hR hp
  rw [← hpath,← hdepth,← hname] at hload
  rw [child?_eq]
  cases hget : Table.get? name n.children with
  | some c =>
    have hc : Kept F v (dir ++ [name]) c := by
      cases hK with
      | mk _ _ hbelow => exact hbelow name c hget
    have hst : Stored F v (dir ++ [name]) c.bare := by
      cases hc with
      | mk _ h _ => exact h
    refine .inr ⟨c,n,rfl,?_,hc,hK,rfl⟩
    rcases hload with ⟨-,hnone⟩ | ⟨m,hl,-,hm⟩
    · rcases hst with ⟨bytes,hb,-⟩ | ⟨hd,-⟩
      · simp [hb] at hnone
      · simp at hd
    · rw [hl,hm.unique hst]
  | none =>
    rcases hload with ⟨hl,-⟩ | ⟨c,hl,-,hst⟩
    · simp only [hsound.regular,hl]
      exact .inl ⟨rfl,trivial⟩
    · simp only [hsound.regular,hl]
      have hc := Kept.of_stored hp hst
      refine .inr ⟨c,n.withChild name c,rfl,by rw [hst.bare_eq],hc,?_,Node.bare_withChild ..⟩
      exact Settled.kept (.child hK ⟨hR,hc,fun _ _ _ => rfl⟩)

/-- A directory is made below a kept node as it is without one, and is kept. -/
theorem create_spec (hr : Path.IsNormal e.shadowRoot) (hsrc : ∀ d, (e.source d).Sorted)
    (hR : Ready F v) (hK : Kept F v dir n) {name : Text} (hp : Plain (dir ++ [name]))
    {r : Except Error Node} {n' : Node} (h : e.noting.create name (n,v) = (r,(n',v'))) :
    Fresh.create e.noting n.bare name v = (r,v') ∧
      (v'.2 = false ∨ r.isOk = true → ∃ c, r = .ok c ∧ c.bare = c ∧ n' = n.withChild name c ∧
        Settled F v v' (dir ++ [name]) c) := by
  obtain ⟨hpath,hdepth,hname⟩ := hK.place hsrc name
  obtain ⟨c,hnew⟩ : ∃ c, c = Node.new (Path.child n.path name) (n.depth + 1) name
    (e.noting.source (Path.child n.path name)) := ⟨_,rfl⟩
  have hfresh : Fresh.create e.noting n.bare name v =
      (match e.noting.persist c v with
        | (.ok _,v) => (.ok c,v)
        | (.error err,v) => (.error err,v)) := by
    rw [Fresh.create,Node.path_bare,Node.depth_bare,← hnew,Action.bind_eq]
    rcases e.noting.persist c v with ⟨_ | _,_⟩ <;> rfl
  have hkeeping := create_eq e.noting name n v rfl hnew
  have hc : c.Sound := hnew ▸ Node.sound_new (hsrc _)
  rw [hfresh]
  rw [hkeeping] at h
  rcases hs : e.noting.persist c v with ⟨r₁,v₁⟩
  rw [hs] at h
  have hpersist := persist_spec hr hR hp hc (by rw [hnew]; exact hpath)
    (by rw [hnew]; exact hdepth) (by rw [hnew]; exact hname) hs
  cases r₁ with
  | error err =>
    cases h
    refine ⟨rfl,fun hv => ?_⟩
    cases (hpersist (.inl (hv.resolve_right (by simp [Except.isOk,Except.toBool])))).1
  | ok u =>
    cases h
    refine ⟨rfl,fun _ => ⟨c,rfl,hnew ▸ rfl,rfl,?_⟩⟩
    obtain ⟨-,hR',hst,hframe⟩ := hpersist (.inr rfl)
    refine ⟨hR',.mk hp hst (by simp [hnew,Node.new,Node.children,Table.get?]),
      fun dir' hp' hn => ?_⟩
    exact hframe dir' hp' fun he => hn (he ▸ List.prefix_refl _)

/-- A visit to a kept node, and what is done without one: the results correspond, and what
was kept is kept in the end. -/
def Follows (F : FileSystem.Contents e.shadow e.IsShadowFile) (dir : List Text) (f : α → β)
    (visit : Visit (σ × Bool) α) (fresh : Node → Action (σ × Bool) β) : Prop :=
  ∀ n v, Kept F v dir n → Ready F v → ∀ r n' v', visit (n,v) = (r,(n',v')) →
    fresh n.bare v = (r.map f,v') ∧ (v'.2 = false → Settled F v v' dir n')

theorem Follows.child {f : α → β} {visit : Visit (σ × Bool) α}
    {fresh : Node → Action (σ × Bool) β} {name : Text} {c n' : Node} {r : Except Error α}
    (h : Follows F (dir ++ [name]) f visit fresh) (hR : Ready F v) (hK : Kept F v dir n)
    (hc : Kept F v (dir ++ [name]) c) (hv : Visit.child name c visit (n,v) = (r,(n',v'))) :
    fresh c.bare v = (r.map f,v') ∧ (v'.2 = false → Settled F v v' dir n') := by
  rw [Visit.child] at hv
  rcases hvisit : visit (c,v) with ⟨r₁,c',v₁⟩
  rw [hvisit] at hv
  cases hv
  obtain ⟨h₁,h₂⟩ := h c v hc hR _ _ _ hvisit
  exact ⟨h₁,fun hb => (h₂ hb).child hK⟩

theorem Kept.plain (hK : Kept F v dir n) : Plain dir := by
  cases hK with
  | mk h _ _ => exact h

theorem Kept.settled (hR : Ready F v) (hK : Kept F v dir n) : Settled F v v dir n :=
  ⟨hR,hK,fun _ _ _ => rfl⟩

theorem Follows.create (hr : Path.IsNormal e.shadowRoot) (hsrc : ∀ d, (e.source d).Sorted)
    {f : α → β} (visit : Node → Visit (σ × Bool) α) (fresh : Node → Node → Action (σ × Bool) β)
    {name : Text} {n' : Node} {r : Except Error α} (hp : Plain (dir ++ [name]))
    (h : ∀ c, Follows F (dir ++ [name]) f (visit c) (fresh c))
    (hR : Ready F v) (hK : Kept F v dir n)
    (hv : (e.noting.create name >>= fun c => Visit.child name c (visit c)) (n,v) =
      (r,(n',v'))) :
    (Fresh.create e.noting n.bare name >>= fun c => fresh c c) v = (r.map f,v') ∧
      (v'.2 = false → Settled F v v' dir n') := by
  rcases hcr : e.noting.create name (n,v) with ⟨r₁,n₁,v₁⟩
  obtain ⟨hfresh,hset⟩ := create_spec hr hsrc hR hK hp hcr
  rw [Action.bind_eq] at hv ⊢
  rw [hfresh]
  rw [hcr] at hv
  cases r₁ with
  | error err =>
    cases hv
    refine ⟨rfl,fun hb => ?_⟩
    obtain ⟨c,hc,-⟩ := hset (.inl hb)
    cases hc
  | ok c =>
    obtain ⟨c',hc,hbare,rfl,hs⟩ := hset (.inr rfl)
    cases hc
    obtain ⟨h₁,h₂⟩ := (h c).child hs.ready (hs.child hK).kept hs.kept hv
    rw [hbare] at h₁
    exact ⟨h₁,fun hb => (hs.child hK).trans (h₂ hb)⟩

theorem resolve_follows (hr : Path.IsNormal e.shadowRoot) (hsrc : ∀ d, (e.source d).Sorted)
    (identity : Text) {names : List Text} (hp : Plain (dir ++ names)) (bindings : Bindings)
    (total : Permission) :
    Follows F dir id (e.noting.resolve identity names bindings total)
      fun n => Fresh.resolve e.noting identity names n bindings total := by
  induction names generalizing dir bindings total with
  | nil =>
    intro n v hK hR r n' v' h
    cases h
    exact ⟨rfl,fun _ => hK.settled hR⟩
  | cons name names ih =>
    intro n v hK hR r n' v' h
    rw [List.append_cons] at hp
    have hplain := hp.of_append
    obtain ⟨hsound,-,-,-⟩ := hK.spec hsrc
    rw [resolve_cons] at h
    dsimp only
    rw [Fresh.resolve_cons]
    simp only [Node.path_bare,Node.depth_bare,Node.match?_bare,Node.files_bare]
    rcases child?_spec hsrc hR hK hplain with ⟨hc,hl⟩ | ⟨c,m,hc,hl,hKc,hKm,-⟩
    · simp only [hc] at h
      simp only [hl]
      cases hm : n.match? name with
      | some r₀ =>
        obtain ⟨c',hc'⟩ := resolve_inner e.noting identity
          (hsound.inner _ (mem_of_firstMatch hm)) names (Table.insertAll r₀.2.2 bindings)
          (r₀.2.1.apply e.noting.groups (Table.insertAll r₀.2.2 bindings) identity total) v
        simp only [hm,Visit.inner,hc'] at h
        cases h
        exact ⟨rfl,fun _ => hK.settled hR⟩
      | none =>
        simp only [hm] at h
        simp only
        cases hf : Table.get? name n.files with
        | some f =>
          simp only [hf] at h
          cases h
          exact ⟨rfl,fun _ => hK.settled hR⟩
        | none =>
          simp only [hf,hsound.regular,Bool.or_false] at h
          simp only
          split at h
          · next hempty =>
            cases h
            rw [if_pos hempty]
            exact ⟨rfl,fun _ => hK.settled hR⟩
          · next hmore =>
            rw [if_neg hmore]
            exact Follows.create hr hsrc
              (fun c => e.noting.resolve identity names bindings
                (c.apply e.noting.groups bindings identity total))
              (fun c n => Fresh.resolve e.noting identity names n bindings
                (c.apply e.noting.groups bindings identity total)) hplain (fun c => ih hp _ _) hR hK h
    · simp only [hc] at h
      simp only [hl,Node.apply_bare]
      exact (ih hp _ _).child hR hKm hKc h

theorem visitDirectory_follows (hr : Path.IsNormal e.shadowRoot)
    (hsrc : ∀ d, (e.source d).Sorted) (d : Text) (absent : Option α) {f : α → β}
    {visit : Visit (σ × Bool) α} {fresh : Node → Action (σ × Bool) β} {names : List Text}
    (hp : Plain (dir ++ names)) (h : Follows F (dir ++ names) f visit fresh) :
    Follows F dir f (e.noting.visitDirectory d absent visit names)
      (Fresh.visitDirectory e.noting (absent.map f) fresh names) := by
  induction names generalizing dir with
  | nil =>
    rw [List.append_nil] at h
    exact h
  | cons name names ih =>
    intro n v hK hR r n' v' hv
    rw [List.append_cons] at hp h
    have hplain := hp.of_append
    obtain ⟨hsound,-,-,-⟩ := hK.spec hsrc
    rw [visitDirectory_cons] at hv
    rw [Fresh.visitDirectory_cons]
    simp only [hsound.regular,Bool.false_eq_true,if_false] at hv
    simp only [Node.path_bare,Node.depth_bare]
    rcases child?_spec hsrc hR hK hplain with ⟨hc,hl⟩ | ⟨c,m,hc,hl,hKc,hKm,-⟩
    · simp only [hc] at hv
      simp only [hl]
      cases absent with
      | some a =>
        cases hv
        exact ⟨rfl,fun _ => hK.settled hR⟩
      | none =>
        exact Follows.create hr hsrc (fun _ => e.noting.visitDirectory d none visit names)
          (fun _ => Fresh.visitDirectory e.noting none fresh names) hplain (fun _ => ih hp h) hR hK
          hv
    · simp only [hc] at hv
      simp only [hl]
      exact (ih hp h).child hR hKm hKc hv

theorem persist_bare (e : Engine σ) {n : Node} (h : n.isSpecial = false) :
    e.persist n.bare = e.persist n := by
  simp [Engine.persist,Node.toShadow_bare h]

theorem change_follows (hr : Path.IsNormal e.shadowRoot) (hsrc : ∀ d, (e.source d).Sorted)
    {c : Change} (hc : c.Orderly) :
    Follows F dir Node.bare
      (do
        let n ← Visit.node
        match c.apply n with
        | .error err => throw err
        | .ok n' => do
          Visit.put n'
          Visit.outside (e.noting.persist n')
          pure n)
      (Fresh.change e.noting c) := by
  intro n v hK hR r m v' hv
  obtain ⟨hsound,hpath,hdepth,hname⟩ := hK.spec hsrc
  rw [Action.bind_eq] at hv
  simp only [Visit.node] at hv
  rw [Fresh.change,apply_bare]
  cases happ : c.apply n with
  | error err =>
    change (match c.apply n with
      | .error err => _
      | .ok n' => _ : Visit _ _) (n,v) = _ at hv
    rw [happ] at hv
    cases hv
    exact ⟨rfl,fun _ => hK.settled hR⟩
  | ok n' =>
    obtain ⟨hs,hpath',hdepth',hname',hchildren⟩ := sound_change hsound hc happ
    change (match c.apply n with
      | .error err => _
      | .ok n' => _ : Visit _ _) (n,v) = _ at hv
    rw [happ] at hv
    change (Visit.outside (e.noting.persist n') >>= fun _ => _) (n',v) = _ at hv
    change (e.noting.persist n'.bare >>= fun _ => pure n.bare) v = _ ∧ _
    rw [persist_bare _ hs.regular,Action.bind_eq]
    rw [Action.bind_eq,Visit.outside] at hv
    rcases hst : e.noting.persist n' v with ⟨r₁,v₁⟩
    rw [hst] at hv
    have hpersist := persist_spec hr hR hK.plain hs (hpath'.trans hpath)
      (hdepth'.trans hdepth) (hname'.trans hname) hst
    cases r₁ with
    | error err =>
      cases hv
      refine ⟨rfl,fun hb => ?_⟩
      cases (hpersist (.inl hb)).1
    | ok u =>
      cases hv
      refine ⟨rfl,fun _ => ?_⟩
      obtain ⟨-,hR',hstored,hframe⟩ := hpersist (.inr rfl)
      refine ⟨hR',.mk hK.plain hstored fun name c hget => ?_,fun dir' hp hn => ?_⟩
      · rw [hchildren] at hget
        have hbelow : Kept F v (dir ++ [name]) c := by
          cases hK with
          | mk _ _ h => exact h name c hget
        refine hbelow.congr fun dir' hp hpre => hframe dir' hp fun he => ?_
        exact not_concat_isPrefix dir name (he ▸ hpre)
      · exact hframe dir' hp fun he => hn (he ▸ List.prefix_refl _)

/-- What an engine does with a cache, and what is done without one: the results correspond,
and what was kept is kept in the end. -/
def Matches (F : FileSystem.Contents e.shadow e.IsShadowFile) (f : α → β)
    (x : Action (Cache × (σ × Bool)) α) (y : Action (σ × Bool) β) : Prop :=
  ∀ cache v, Ready F v → (∀ n, cache = some n → Kept F v [] n) →
    ∀ r cache' v', x (cache,v) = (r,(cache',v')) →
      y v = (r.map f,v') ∧
        (v'.2 = false → Ready F v' ∧ ∀ n, cache' = some n → Kept F v' [] n)

/-- A visit to the top beside a cache and without one. -/
theorem visitTop_matches {f : α → β} {visit : Visit (σ × Bool) α}
    {fresh : Node → Action (σ × Bool) β} (h : Follows F [] f visit fresh) :
    Matches F f (e.noting.visitTop visit) (Fresh.visitTop e.noting fresh) := by
  intro cache v hR hK r cache' v' hv
  have hplain : Plain [] := ⟨Path.areNames_nil,by simp⟩
  have hgo : ∀ n, Kept F v [] n →
      ((visit (n,v)).1,((some (visit (n,v)).2.1 : Cache),(visit (n,v)).2.2)) = (r,(cache',v')) →
      fresh n.bare v = (r.map f,v') ∧
        (v'.2 = false → Ready F v' ∧ ∀ n, cache' = some n → Kept F v' [] n) := by
    intro n hKn he
    rcases hvisit : visit (n,v) with ⟨r₁,n₁,v₁⟩
    rw [hvisit] at he
    cases he
    obtain ⟨h₁,h₂⟩ := h n v hKn hR _ _ _ hvisit
    refine ⟨h₁,fun hb => ⟨(h₂ hb).ready,fun m hm => ?_⟩⟩
    cases hm
    exact (h₂ hb).kept
  obtain ⟨m,hst,hfresh,hkeep⟩ : ∃ m, Stored F v [] m ∧
      Fresh.visitTop e.noting fresh v = fresh m v ∧
      e.noting.visitTop visit (none,v) =
        ((visit (m,v)).1,(some (visit (m,v)).2.1,(visit (m,v)).2.2)) := by
    rw [Fresh.visitTop,Action.bind_eq]
    simp only [Engine.visitTop]
    rcases load_spec hR hplain with ⟨hl,hnone⟩ | ⟨m,hl,-,hst⟩
    · replace hl : e.noting.load ['/'] 0 [] v = (.ok none,v) := hl
      rw [hl]
      exact ⟨_,.inr ⟨rfl,hnone,rfl⟩,rfl,rfl⟩
    · replace hl : e.noting.load ['/'] 0 [] v = (.ok (some m),v) := hl
      rw [hl]
      exact ⟨m,hst,rfl,rfl⟩
  rw [hfresh]
  cases cache with
  | some n =>
    have hKn := hK n rfl
    have hm : m = n.bare := by
      cases hKn with
      | mk _ h _ => exact hst.unique h
    rw [hm]
    exact hgo n hKn hv
  | none =>
    rw [← hst.bare_eq]
    refine hgo m (.of_stored hplain hst) ?_
    rw [← hkeep]
    exact hv

end Steps

end Realm.Acl
