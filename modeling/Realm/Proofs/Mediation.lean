import Realm.FileSystem.Memory
import Realm.Proofs.Acl.Alike
import Realm.Proofs.FileSystem.Calls
import Realm.Proofs.FileSystem.Memory
import Realm.Proofs.Routing

/-! The file manager stands between identities and the mounted file systems: what is not
granted changes none of them, what is granted changes one at most, and what is denied is
denied whatever they hold. -/
namespace Realm

variable {ι ρ σ τ α β : Type}

/-- The trees of the file systems that may be mounted, and the rest of the world, which
holds the shadow files and the caches of access engines. -/
structure Site (ι ρ : Type) where
  trees : ι → FileTree
  rest : ρ

namespace Site

def tree [DecidableEq ι] (i : ι) : Slot (Site ι ρ) FileTree where
  get w := w.trees i
  set t w := { w with trees := fun j => if j = i then t else w.trees j }

def outside : Slot (Site ι ρ) ρ where
  get w := w.rest
  set r w := { w with rest := r }

end Site

def Slot.under (s : Slot σ τ) (inner : Slot τ α) : Slot σ α where
  get w := inner.get (s.get w)
  set a w := s.set (inner.set a (s.get w)) w

def Acl.Engine.within (s : Slot σ τ) (e : Acl.Engine τ) : Acl.Engine σ where
  shadow := e.shadow.within s
  shadowRoot := e.shadowRoot
  groups := e.groups
  source := e.source

/-- The policy of a mount. -/
inductive Policy (ρ : Type) where
  | permissive (readOnly : Bool)
  | acl (e : Acl.Engine ρ) (cache : Slot ρ Acl.Cache)

def Policy.manager : Policy ρ → SecurityManager (Site ι ρ)
  | permissive readOnly => .permissive readOnly
  | acl e cache => .ofEngine (e.within Site.outside) (Site.outside.under cache)

/-- A file system in memory that is mounted with a policy. -/
def mounted [DecidableEq ι] (i : ι) (policy : Policy ρ) : Mount (Site ι ρ) where
  fileSystem := Memory.fileSystem.within (Site.tree i)
  security := policy.manager

def FileManager.ofTable [DecidableEq ι] (t : Table Text (ι × Policy ρ)) :
    FileManager (Site ι ρ) where
  mounts := t.mapValues fun m => mounted m.1 m.2

/-- What can be asked of a file manager about a path. -/
inductive FileCall where
  | read
  | write (content : Bytes)
  | append (content : Bytes)
  | makeDirectory
  | deleteFile
  | deleteDirectory (recursive : Bool)
  | list
  | stat
  | has
  | load
deriving DecidableEq, Repr

namespace FileCall

def isLook : FileCall → Bool
  | read | list | stat | has | load => true
  | write _ | append _ | makeDirectory | deleteFile | deleteDirectory _ => false

end FileCall

def Access.map (f : α → β) : Access α → Access β
  | granted a => granted (f a)
  | denied action path => denied action path

def FileCall.run (m : FileManager σ) (identity path : Text) :
    FileCall → Action σ (Access FileReply)
  | read => do
    let a ← m.read identity path
    pure (a.map .bytes)
  | write content => do
    let a ← m.write identity path content
    pure (a.map fun _ => .done)
  | append content => do
    let a ← m.append identity path content
    pure (a.map fun _ => .done)
  | makeDirectory => do
    let a ← m.makeDirectory identity path
    pure (a.map fun _ => .done)
  | deleteFile => do
    let a ← m.deleteFile identity path
    pure (a.map fun _ => .done)
  | deleteDirectory recursive => do
    let a ← m.deleteDirectory identity path recursive
    pure (a.map fun _ => .done)
  | list => do
    let a ← m.list identity path
    pure (a.map .entries)
  | stat => do
    let a ← m.stat identity path
    pure (a.map .info)
  | has => do
    let a ← m.has identity path
    pure (a.map .flag)
  | load => do
    let a ← m.load identity path
    pure (a.map .bytes)

/-! Steps outside of the mounted file systems. -/

/-- Two worlds with the same rest, and with given contents of the file systems. -/
def Site.Agree (f g : ι → FileTree) (a b : Site ι ρ) : Prop :=
  a.rest = b.rest ∧ a.trees = f ∧ b.trees = g

/-- A step that neither looks at the mounted file systems nor changes them. -/
def Action.Apart (x : Action (Site ι ρ) α) : Prop :=
  ∀ f g, Action.Alike (Site.Agree f g) x x

theorem Action.Apart.pure (a : α) : Action.Apart (Pure.pure a : Action (Site ι ρ) α) :=
  fun _ _ => .pure a

theorem Action.Apart.bind {x : Action (Site ι ρ) α} {k : α → Action (Site ι ρ) β}
    (hx : Action.Apart x) (hk : ∀ a, Action.Apart (k a)) : Action.Apart (x >>= k) :=
  fun f g => (hx f g).bind fun a => hk a f g

theorem Action.apart_outside (x : Action ρ α) :
    Action.Apart (Site.outside.run x : Action (Site ι ρ) α) := by
  rintro f g ⟨ta,ra⟩ ⟨tb,rb⟩ ⟨hr,ht,ht'⟩
  obtain rfl : ra = rb := hr
  exact ⟨rfl,rfl,ht,ht'⟩

theorem Acl.Engine.alike_outside (e : Acl.Engine ρ) (f g : ι → FileTree) :
    Acl.Engine.Alike (Site.Agree f g) (e.within Site.outside) (e.within Site.outside) := by
  have h : ∀ {α : Type} (x : Action ρ α),
      Action.Alike (Site.Agree f g) (Site.outside.run x) (Site.outside.run x) :=
    fun x => Action.apart_outside x f g
  exact ⟨⟨fun _ => h _,fun _ _ => h _,fun _ _ => h _,fun _ _ => h _,fun _ _ => h _,
    fun _ => h _,fun _ => h _,fun _ => h _⟩,rfl,rfl,rfl⟩

theorem Action.apart_runBeside (s : Slot ρ τ) {x : Action (τ × Site ι ρ) α}
    (h : ∀ f g, Action.Alike (Acl.Beside (Site.Agree f g)) x x) :
    Action.Apart ((Site.outside.under s).runBeside x) := by
  rintro f g a b ⟨hr,ht,ht'⟩
  have hs : (Site.outside.under s).get a = (Site.outside.under s).get b := congrArg s.get hr
  obtain ⟨h₁,h₂,h₃,h₄,h₅⟩ := h f g (_,a) (_,b) ⟨hs,hr,ht,ht'⟩
  refine ⟨h₁,?_,h₄,h₅⟩
  show s.set _ _ = s.set _ _
  rw [h₂]
  exact congrArg (s.set _) h₃

theorem apart_check (e : Acl.Engine ρ) (cache : Slot ρ Acl.Cache) (path identity : Text)
    (p : Permission) :
    Action.Apart ((Site.outside.under cache).runBeside
      ((e.within Site.outside).check path identity p) : Action (Site ι ρ) Bool) :=
  Action.apart_runBeside cache fun f g => (e.alike_outside f g).check path identity p

theorem apart_allows (policy : Policy ρ) (identity : Text) (action : FileAction)
    (target : Target) :
    Action.Apart ((policy.manager : SecurityManager (Site ι ρ)).allows identity action target) := by
  cases policy with
  | permissive readOnly => exact .pure _
  | acl e cache =>
    have h := fun path c => apart_check (ι := ι) e cache path identity (Permission.of c)
    cases action with
    | read | list | stat | makeDirectory | deleteFile | deleteDirectory | load => exact h _ _
    | write | append =>
      refine (h _ _).bind fun b => ?_
      cases b with
      | true => exact .pure _
      | false => exact h _ _

theorem apart_isHidden (policy : Policy ρ) (identity path : Text) :
    Action.Apart ((policy.manager : SecurityManager (Site ι ρ)).isHidden identity path) := by
  cases policy with
  | permissive readOnly => exact .pure _
  | acl e cache => exact apart_check e cache path identity _

theorem apart_visible (policy : Policy ρ) (identity directory : Text)
    (es : List DirectoryEntry) :
    Action.Apart (FileManager.visible (policy.manager : SecurityManager (Site ι ρ)) identity
      directory es) := by
  induction es with
  | nil => exact .pure _
  | cons e es ih =>
    exact (apart_isHidden policy identity _).bind fun _ => ih.bind fun _ => .pure _

theorem Action.Apart.trees_eq {x : Action (Site ι ρ) α} (h : Action.Apart x) (w : Site ι ρ) :
    (x w).2.trees = w.trees :=
  (h w.trees w.trees w w ⟨rfl,rfl,rfl⟩).2.2.1

/-! Steps on a mounted file system. -/

/-- A step that changes one of the file systems at most, and none if it fails. -/
structure Action.Guarded (i : ι) (x : Action (Site ι ρ) α) : Prop where
  others : ∀ w j, j ≠ i → (x w).2.trees j = w.trees j
  refused : ∀ w err, (x w).1 = .error err → (x w).2.trees = w.trees

def Action.Still (x : Action (Site ι ρ) α) : Prop :=
  ∀ w, (x w).2.trees = w.trees

theorem Action.Still.guarded {x : Action (Site ι ρ) α} (h : Action.Still x) (i : ι) :
    Action.Guarded i x :=
  ⟨fun w j _ => congrFun (h w) j,fun w _ _ => h w⟩

theorem Action.Guarded.after {i : ι} {x : Action (Site ι ρ) α} {k : α → Action (Site ι ρ) β}
    (hx : Action.Still x) (hk : ∀ a, Action.Guarded i (k a)) : Action.Guarded i (x >>= k) := by
  constructor
  · intro w j hj
    have hw := hx w
    rw [Action.bind_eq]
    rcases hs : x w with ⟨err | a,w'⟩
    · rw [hs] at hw
      exact congrFun hw j
    · rw [hs] at hw
      exact ((hk a).others w' j hj).trans (congrFun hw j)
  · intro w err he
    have hw := hx w
    rw [Action.bind_eq] at he ⊢
    rcases hs : x w with ⟨err' | a,w'⟩
    · rw [hs] at hw
      exact hw
    · rw [hs] at hw he
      exact ((hk a).refused w' err he).trans hw

theorem Action.Still.bind {x : Action (Site ι ρ) α} {k : α → Action (Site ι ρ) β}
    (hx : Action.Still x) (hk : ∀ a, Action.Still (k a)) : Action.Still (x >>= k) :=
  Action.bind_keeps (R := fun w w' : Site ι ρ => w'.trees = w.trees)
    (fun _ _ _ h h' => h'.trans h) hx hk

theorem Action.Still.pure (a : α) : Action.Still (Pure.pure a : Action (Site ι ρ) α) :=
  fun _ => rfl

theorem Action.Still.throw (err : Error) : Action.Still (throw err : Action (Site ι ρ) α) :=
  fun _ => rfl

section Trees

variable [DecidableEq ι]

theorem guarded_tree (i : ι) {x : Action FileTree α}
    (h : ∀ t err, (x t).1 = .error err → (x t).2 = t) :
    Action.Guarded i ((Site.tree i).run x : Action (Site ι ρ) α) := by
  constructor
  · intro w j hj
    show (if j = i then _ else _) = _
    rw [if_neg hj]
  · intro w err he
    funext j
    show (if j = i then _ else _) = _
    by_cases hj : j = i
    · subst hj
      rw [if_pos rfl]
      exact h _ err he
    · rw [if_neg hj]

theorem still_tree (i : ι) {x : Action FileTree α} (h : ∀ t, (x t).2 = t) :
    Action.Still ((Site.tree i).run x : Action (Site ι ρ) α) := by
  intro w
  funext j
  show (if j = i then _ else _) = _
  by_cases hj : j = i
  · subst hj
    rw [if_pos rfl]
    exact h _
  · rw [if_neg hj]

/-! The file manager. -/

variable {t : Table Text (ι × Policy ρ)} {path : Text}

theorem mount_of_request {r : Request (Site ι ρ)}
    (h : (FileManager.ofTable t).request path = .ok r) :
    ∃ top i policy, (top,(i,policy)) ∈ t ∧ r.mount = mounted i policy := by
  rw [FileManager.request] at h
  cases hm : (FileManager.ofTable t).mountOf (Path.normalize path) with
  | none =>
    rw [hm] at h
    cases h
  | some found =>
    rw [hm] at h
    cases h
    rcases FileManager.mem_of_foldl_longer hm with hmem | hnone
    · obtain ⟨⟨top,i,policy⟩,hin,he⟩ := List.mem_map.1 (List.mem_filter.1 hmem).1
      exact ⟨top,i,policy,hin,by rw [← he]⟩
    · cases hnone

/-- What a file manager does at a path: nothing to the mounted file systems unless it is
granted, then something to that of the path's mount at most; and it denies by what is
outside of them. -/
structure Mediated (t : Table Text (ι × Policy ρ)) (path : Text)
    (x : Action (Site ι ρ) (Access α)) : Prop where
  ungranted : ∀ w, (∀ a, (x w).1 ≠ .ok (.granted a)) → (x w).2.trees = w.trees
  granted : ∀ w a, (x w).1 = .ok (.granted a) → ∃ top i policy r,
    (top,(i,policy)) ∈ t ∧ (FileManager.ofTable t).request path = .ok r ∧
      r.mount = mounted i policy ∧ ∀ j, j ≠ i → (x w).2.trees j = w.trees j
  denied : ∀ w w' action p, w.rest = w'.rest → (x w).1 = .ok (.denied action p) →
    (x w').1 = .ok (.denied action p)

/-- How an operation runs on the mount of its path: the policy says whether it may, then it is
carried out. -/
inductive Performs (r : Request σ) (identity : Text) (action : FileAction)
    (operation : Request σ → Action σ α) (w : σ) : Except Error (Access α) × σ → Prop where
  | unsettled {err : Error} {w₁ : σ}
      (asked : r.mount.security.allows identity action r.toTarget w = (.error err,w₁)) :
      Performs r identity action operation w (.error err,w₁)
  | denied {w₁ : σ}
      (asked : r.mount.security.allows identity action r.toTarget w = (.ok false,w₁)) :
      Performs r identity action operation w (.ok (.denied action r.fullPath),w₁)
  | failed {w₁ : σ} {err : Error} {w₂ : σ}
      (asked : r.mount.security.allows identity action r.toTarget w = (.ok true,w₁))
      (carried : operation r w₁ = (.error err,w₂)) :
      Performs r identity action operation w (.error err,w₂)
  | granted {w₁ : σ} {value : α} {w₂ : σ}
      (asked : r.mount.security.allows identity action r.toTarget w = (.ok true,w₁))
      (carried : operation r w₁ = (.ok value,w₂)) :
      Performs r identity action operation w (.ok (.granted value),w₂)

section Performs

variable {m : FileManager σ} {identity : Text} {action : FileAction}
  {operation : Request σ → Action σ α}

theorem perform_of_error {err : Error} (hr : m.request path = .error err) (w : σ) :
    m.perform identity action path operation w = (.error err,w) := by
  rw [FileManager.perform,hr]
  rfl

theorem performs {r : Request σ} (hr : m.request path = .ok r) (w : σ) :
    Performs r identity action operation w (m.perform identity action path operation w) := by
  rw [FileManager.perform,hr]
  dsimp only
  rw [Action.bind_eq]
  rcases hs : r.mount.security.allows identity action r.toTarget w with ⟨_ | _ | _,w₁⟩
  · exact .unsettled hs
  · exact .denied hs
  · change Performs r identity action operation w ((operation r >>= fun value => _) w₁)
    rw [Action.bind_eq]
    rcases ho : operation r w₁ with ⟨_ | _,w₂⟩
    · exact .failed hs ho
    · exact .granted hs ho

end Performs

theorem perform_mediated (identity : Text) (action : FileAction)
    {operation : Request (Site ι ρ) → Action (Site ι ρ) α}
    (h : ∀ r i policy, r.mount = mounted i policy → Action.Guarded i (operation r)) :
    Mediated t path ((FileManager.ofTable t).perform identity action path operation) := by
  cases hr : (FileManager.ofTable t).request path with
  | error err =>
    have hx : ∀ w, (FileManager.ofTable t).perform identity action path operation w =
        (.error err,w) := perform_of_error hr
    refine ⟨fun w _ => by rw [hx],fun w a he => ?_,fun w w' a p _ he => ?_⟩
    · rw [hx] at he
      cases he
    · rw [hx] at he
      cases he
  | ok r =>
    obtain ⟨top,i,policy,hin,hm⟩ := mount_of_request hr
    have hallows : Action.Apart (r.mount.security.allows identity action r.toTarget) := by
      rw [hm]
      exact apart_allows policy identity action r.toTarget
    have hg := h r i policy hm
    have hperforms : ∀ w, Performs r identity action operation w
        ((FileManager.ofTable t).perform identity action path operation w) := performs hr
    refine ⟨fun w hn => ?_,fun w a he => ?_,fun w w' a p hw he => ?_⟩
    · have htrees := hallows.trees_eq w
      have hw := hperforms w
      generalize (FileManager.ofTable t).perform identity action path operation w = done at *
      cases hw with
      | unsettled hs | denied hs =>
        rw [hs] at htrees
        exact htrees
      | failed hs ho =>
        have hrefused := hg.refused _ _ (congrArg Prod.fst ho)
        rw [ho] at hrefused
        rw [hs] at htrees
        exact hrefused.trans htrees
      | granted hs ho => exact absurd rfl (hn _)
    · refine ⟨top,i,policy,r,hin,hr,hm,fun j hj => ?_⟩
      have htrees := hallows.trees_eq w
      have hw := hperforms w
      generalize (FileManager.ofTable t).perform identity action path operation w = done at *
      cases hw with
      | unsettled hs | denied hs | failed hs ho => cases he
      | @granted w₁ _ _ hs ho =>
        have hothers := hg.others w₁ j hj
        rw [ho] at hothers
        rw [hs] at htrees
        exact hothers.trans (congrFun htrees j)
    · have hsame := (hallows w.trees w'.trees w w' ⟨hw,rfl,rfl⟩).1
      have hfirst := hperforms w
      have hsecond := hperforms w'
      generalize (FileManager.ofTable t).perform identity action path operation w = done at *
      generalize (FileManager.ofTable t).perform identity action path operation w' = done' at *
      cases hfirst with
      | unsettled hs | failed hs ho | granted hs ho => cases he
      | denied hs =>
        cases he
        rw [hs] at hsame
        cases hsecond with
        | denied hs' => rfl
        | unsettled hs' | failed hs' ho' | granted hs' ho' =>
          rw [hs'] at hsame
          cases hsame

/-- What the operation on the mount keeps, and no change of the rest can touch, is kept, granted
or not. -/
theorem perform_keeps {R : Site ι ρ → Site ι ρ → Prop}
    (hrest : ∀ w w', w'.trees = w.trees → R w w') (htrans : ∀ u v w, R u v → R v w → R u w)
    (identity : Text) (action : FileAction)
    {operation : Request (Site ι ρ) → Action (Site ι ρ) α}
    (h : ∀ r i policy, (FileManager.ofTable t).request path = .ok r →
      r.mount = mounted i policy → ∀ w, R w (operation r w).2) (w : Site ι ρ) :
    R w ((FileManager.ofTable t).perform identity action path operation w).2 := by
  rw [FileManager.perform]
  cases hr : (FileManager.ofTable t).request path with
  | error err => exact hrest _ _ rfl
  | ok r =>
    obtain ⟨top,i,policy,-,hm⟩ := mount_of_request hr
    have hsecurity : r.mount.security = policy.manager := by rw [hm]; rfl
    have hallows := (apart_allows (ι := ι) policy identity action r.toTarget).trees_eq
    dsimp only
    rw [hsecurity]
    refine Action.bind_keeps htrans (fun w => hrest _ _ (hallows w)) (fun b w => ?_) w
    cases b with
    | false => exact hrest _ _ rfl
    | true => exact Action.bind_keeps htrans (h r i policy hr hm) (fun _ _ => hrest _ _ rfl) w

theorem perform_still (identity : Text) (action : FileAction)
    {operation : Request (Site ι ρ) → Action (Site ι ρ) α}
    (h : ∀ r i policy, r.mount = mounted i policy → Action.Still (operation r)) :
    Action.Still ((FileManager.ofTable t).perform identity action path operation) :=
  perform_keeps (R := fun w w' : Site ι ρ => w'.trees = w.trees) (fun _ _ h => h)
    (fun _ _ _ h h' => h'.trans h) identity action fun r i policy _ => h r i policy

theorem Mediated.map {x : Action (Site ι ρ) (Access α)} (h : Mediated t path x) (f : α → β) :
    Mediated t path (x >>= fun a => pure (a.map f)) := by
  have hx : ∀ w, (x >>= fun a => pure (a.map f)) w =
      match x w with
      | (.error err,w) => (.error err,w)
      | (.ok a,w) => (.ok (a.map f),w) := by
    intro w
    rw [Action.bind_eq]
    rcases x w with ⟨_ | _,_⟩ <;> rfl
  refine ⟨fun w hn => ?_,fun w b he => ?_,fun w w' a p hw he => ?_⟩
  · have hkeep := h.ungranted w
    rw [hx] at hn ⊢
    rcases hs : x w with ⟨err | a,w₁⟩
    · rw [hs] at hkeep
      exact hkeep (by simp)
    · rw [hs] at hkeep hn
      refine hkeep fun value he => ?_
      obtain rfl : a = .granted value := Except.ok.inj he
      exact hn (f value) rfl
  · have hkeep := h.granted w
    rw [hx] at he ⊢
    rcases hs : x w with ⟨err | a,w₁⟩
    · rw [hs] at he
      cases he
    · rw [hs] at hkeep he
      cases a with
      | granted value => exact hkeep value rfl
      | denied action p => cases he
  · have hkeep := h.denied w w'
    rw [hx] at he ⊢
    rcases hs : x w with ⟨err | a,w₁⟩
    · rw [hs] at he
      cases he
    · rw [hs] at hkeep he
      cases a with
      | granted value => cases he
      | denied action' p' =>
        cases he
        have hsame := hkeep _ _ hw rfl
        rcases hs' : x w' with ⟨r',w₁'⟩
        rw [hs'] at hsame
        obtain rfl : r' = _ := hsame
        rfl

omit [DecidableEq ι] in
theorem Action.Still.map {x : Action (Site ι ρ) (Access α)} (h : Action.Still x) (f : α → β) :
    Action.Still (x >>= fun a => Pure.pure (a.map f)) :=
  h.bind fun _ => .pure _

/-! The calls. -/

theorem guarded_remove (i : ι) (path : Text) (recursive : Bool) :
    Action.Guarded i (ρ := ρ) ((Memory.fileSystem.within (Site.tree i)).remove path recursive) :=
  guarded_tree i fun _ _ h => Memory.remove_refused h

theorem still_stat (i : ι) (path : Text) :
    Action.Still (ρ := ρ) ((Memory.fileSystem.within (Site.tree i)).stat path) :=
  still_tree i fun t => Memory.stat_still path t

theorem still_list (i : ι) (policy : Policy ρ) (identity : Text) (r : Request (Site ι ρ))
    (h : r.mount = mounted i policy) :
    Action.Still (r.mount.fileSystem.list r.relativePath >>=
      FileManager.visible r.mount.security identity r.fullPath) := by
  rw [h]
  exact (still_tree i fun t => Memory.list_still r.relativePath t).bind fun es =>
    (apart_visible policy identity r.fullPath es).trees_eq

theorem read_still_of (i : ι) (policy : Policy ρ) (r : Request (Site ι ρ))
    (h : r.mount = mounted i policy) :
    Action.Still (r.mount.fileSystem.read r.relativePath) := by
  rw [h]
  exact still_tree i fun t => Memory.read_still r.relativePath t

theorem look_still (identity : Text) {call : FileCall} (h : call.isLook = true) :
    Action.Still (call.run (FileManager.ofTable t) identity path) := by
  cases call with
  | read => exact (perform_still identity .read fun r i policy hm =>
      read_still_of i policy r hm).map _
  | load => exact (perform_still identity .load fun r i policy hm =>
      read_still_of i policy r hm).map _
  | list => exact (perform_still identity .list fun r i policy hm =>
      still_list i policy identity r hm).map _
  | stat =>
    refine (perform_still identity .stat fun r i policy hm => ?_).map _
    rw [hm]
    exact still_stat i _
  | has =>
    refine (perform_still identity .stat fun r i policy hm => ?_).map _
    rw [hm]
    exact still_tree i fun t => Memory.has_still r.relativePath t
  | write _ | append _ | makeDirectory | deleteFile | deleteDirectory _ => cases h

/-- Every call is mediated. -/
theorem call_mediated (identity : Text) (call : FileCall) :
    Mediated t path (call.run (FileManager.ofTable t) identity path) := by
  cases call with
  | read => exact (perform_mediated identity .read fun r i policy hm =>
      (read_still_of i policy r hm).guarded i).map _
  | load => exact (perform_mediated identity .load fun r i policy hm =>
      (read_still_of i policy r hm).guarded i).map _
  | list => exact (perform_mediated identity .list fun r i policy hm =>
      (still_list i policy identity r hm).guarded i).map _
  | stat =>
    refine (perform_mediated identity .stat fun r i policy hm => ?_).map _
    rw [hm]
    exact (still_stat i _).guarded i
  | has =>
    refine (perform_mediated identity .stat fun r i policy hm => ?_).map _
    rw [hm]
    exact (still_tree i fun t => Memory.has_still r.relativePath t).guarded i
  | write content =>
    refine (perform_mediated identity .write fun r i policy hm => ?_).map _
    rw [hm]
    exact guarded_tree i fun _ _ h => Memory.writeAt_refused h
  | append content =>
    refine (perform_mediated identity .append fun r i policy hm => ?_).map _
    rw [hm]
    exact guarded_tree i fun _ _ h => Memory.append_refused h
  | makeDirectory =>
    refine (perform_mediated identity .makeDirectory fun r i policy hm => ?_).map _
    rw [hm]
    exact guarded_tree i fun _ _ h => Memory.makeDir_refused h
  | deleteFile =>
    refine (perform_mediated identity .deleteFile fun r i policy hm => ?_).map _
    rw [hm]
    refine .after (still_stat i _) fun info => ?_
    split
    · exact (Action.Still.throw _).guarded i
    · exact guarded_remove i _ _
  | deleteDirectory recursive =>
    refine (perform_mediated identity .deleteDirectory fun r i policy hm => ?_).map _
    rw [hm]
    refine .after (still_stat i _) fun info => ?_
    split
    · exact guarded_remove i _ _
    · exact (Action.Still.throw _).guarded i

end Trees

/-- Mediation and isolation. Whatever is mounted in whatever way, a call that is not granted
changes no mounted file system; one that is granted changes that of its path's mount at most;
one that only looks changes none; and one that is denied is denied whatever the mounted file
systems hold. -/
theorem fileManager_mediates [DecidableEq ι] (t : Table Text (ι × Policy ρ))
    (identity path : Text) (call : FileCall) (w : Site ι ρ) :
    ((∀ reply, (call.run (.ofTable t) identity path w).1 ≠ .ok (.granted reply)) →
      (call.run (.ofTable t) identity path w).2.trees = w.trees) ∧
    (∀ reply, (call.run (.ofTable t) identity path w).1 = .ok (.granted reply) →
      ∃ top i policy r, (top,(i,policy)) ∈ t ∧
        (FileManager.ofTable t).request path = .ok r ∧ r.mount = mounted i policy ∧
        ∀ j, j ≠ i → (call.run (.ofTable t) identity path w).2.trees j = w.trees j) ∧
    (call.isLook = true → (call.run (.ofTable t) identity path w).2.trees = w.trees) ∧
    (∀ action p, (call.run (.ofTable t) identity path w).1 = .ok (.denied action p) →
      ∀ w' : Site ι ρ, w'.rest = w.rest →
        (call.run (.ofTable t) identity path w').1 = .ok (.denied action p)) := by
  have h : Mediated t path (call.run (.ofTable t) identity path) := call_mediated identity call
  exact ⟨h.ungranted w,h.granted w,fun hlook => look_still identity hlook w,
    fun action p hd w' hw => h.denied w w' action p hw.symm hd⟩

end Realm
