import Realm.Acl.Engine
import Realm.Proofs.Action

/-! What an engine does depends on its file system only through the results of the
operations on it. -/
namespace Realm.Acl

variable {σ τ α : Type}

/-- Engines whose operations on their file systems cannot be told apart. -/
structure Engine.Alike (R : σ → τ → Prop) (e : Engine σ) (e' : Engine τ) : Prop where
  shadow : FileSystem.Alike R e.shadow e'.shadow
  shadowRoot : e.shadowRoot = e'.shadowRoot
  groups : e.groups = e'.groups
  source : e.source = e'.source

def Beside {ν : Type} (R : σ → τ → Prop) (a : ν × σ) (b : ν × τ) : Prop :=
  a.1 = b.1 ∧ R a.2 b.2

namespace Visit

variable {R : σ → τ → Prop}

theorem alike_node : Action.Alike (Beside R) (Visit.node : Visit σ Node) Visit.node := by
  rintro ⟨n,s⟩ ⟨m,t⟩ ⟨h,hR⟩
  exact ⟨congrArg Except.ok h,h,hR⟩

theorem alike_put (n : Node) : Action.Alike (Beside R) (Visit.put n : Visit σ Unit) (Visit.put n) := by
  rintro ⟨_,s⟩ ⟨_,t⟩ ⟨_,hR⟩
  exact ⟨rfl,rfl,hR⟩

theorem alike_outside {x : Action σ α} {y : Action τ α} (h : Action.Alike R x y) :
    Action.Alike (Beside R) (Visit.outside x) (Visit.outside y) := by
  rintro ⟨n,s⟩ ⟨m,t⟩ ⟨hn,hR⟩
  exact ⟨(h s t hR).1,hn,(h s t hR).2⟩

theorem alike_child (name : Text) (c : Node) {v : Visit σ α} {v' : Visit τ α}
    (h : Action.Alike (Beside R) v v') :
    Action.Alike (Beside R) (Visit.child name c v) (Visit.child name c v') := by
  rintro ⟨n,s⟩ ⟨m,t⟩ ⟨hn,hR⟩
  obtain rfl : n = m := hn
  obtain ⟨h₁,h₂,h₃⟩ := h (c,s) (c,t) ⟨rfl,hR⟩
  exact ⟨h₁,congrArg (n.withChild name) h₂,h₃⟩

theorem alike_inner (c : Node) {v : Visit σ α} {v' : Visit τ α}
    (h : Action.Alike (Beside R) v v') :
    Action.Alike (Beside R) (Visit.inner c v) (Visit.inner c v') := by
  rintro ⟨n,s⟩ ⟨m,t⟩ ⟨hn,hR⟩
  obtain ⟨h₁,-,h₃⟩ := h (c,s) (c,t) ⟨rfl,hR⟩
  exact ⟨h₁,hn,h₃⟩

end Visit

namespace Engine.Alike

variable {R : σ → τ → Prop} {e : Engine σ} {e' : Engine τ}

theorem shadowPath (h : Engine.Alike R e e') (dir : Text) :
    e.shadowPath dir = e'.shadowPath dir := by
  rw [Engine.shadowPath,Engine.shadowPath,h.shadowRoot]

theorem load (h : Engine.Alike R e e') (dir : Text) (depth : Nat) (name : Text) :
    Action.Alike R (e.load dir depth name) (e'.load dir depth name) := by
  rw [Engine.load,Engine.load,h.shadowPath]
  refine (h.shadow.has _).bind fun there => ?_
  cases there with
  | false => exact .pure none
  | true =>
    refine (h.shadow.read _).bind fun bytes => ?_
    cases Shadow.ofBytes bytes with
    | error fault => exact .throw _
    | ok s =>
      simp only
      cases Node.ofShadow dir depth name s with
      | error err => exact .throw _
      | ok n => exact .pure _

theorem persist (h : Engine.Alike R e e') (n : Node) :
    Action.Alike R (e.persist n) (e'.persist n) := by
  rw [Engine.persist,Engine.persist,h.shadowPath]
  split
  · exact .throw _
  · exact (h.shadow.makeDir _ _).bind fun _ => h.shadow.write _ _

theorem child? (h : Engine.Alike R e e') (name : Text) :
    Action.Alike (Beside R) (e.child? name) (e'.child? name) := by
  rw [Engine.child?,Engine.child?]
  refine Visit.alike_node.bind fun n => ?_
  cases Table.get? name n.children with
  | some c => exact .pure _
  | none =>
    simp only
    split
    · exact .pure _
    · refine (Visit.alike_outside (h.load _ _ _)).bind fun c => ?_
      cases c with
      | none => exact .pure _
      | some c => exact (Visit.alike_put _).bind fun _ => .pure _

theorem create (h : Engine.Alike R e e') (name : Text) :
    Action.Alike (Beside R) (e.create name) (e'.create name) := by
  rw [Engine.create,Engine.create]
  refine Visit.alike_node.bind fun n => ?_
  rw [h.source]
  exact (Visit.alike_outside (h.persist _)).bind fun _ =>
    (Visit.alike_put _).bind fun _ => .pure _

theorem resolve (h : Engine.Alike R e e') (identity : Text) (names : List Text)
    (bindings : Bindings) (total : Permission) :
    Action.Alike (Beside R) (e.resolve identity names bindings total)
      (e'.resolve identity names bindings total) := by
  induction names generalizing bindings total with
  | nil => exact .pure total
  | cons name names ih =>
    rw [Engine.resolve,Engine.resolve,h.groups]
    refine (h.child? name).bind fun c => ?_
    cases c with
    | some c => exact Visit.alike_child _ _ (ih _ _)
    | none =>
      refine Visit.alike_node.bind fun n => ?_
      cases n.match? name with
      | some r => exact Visit.alike_inner _ (ih _ _)
      | none =>
        simp only
        cases Table.get? name n.files with
        | some f => exact .pure _
        | none =>
          simp only
          split
          · exact .pure _
          · exact (h.create name).bind fun c => Visit.alike_child _ _ (ih _ _)

theorem visitDirectory (h : Engine.Alike R e e') (dir : Text) (absent : Option α)
    {v : Visit σ α} {v' : Visit τ α} (hv : Action.Alike (Beside R) v v') (names : List Text) :
    Action.Alike (Beside R) (e.visitDirectory dir absent v names)
      (e'.visitDirectory dir absent v' names) := by
  induction names with
  | nil => exact hv
  | cons name names ih =>
    simp only [Engine.visitDirectory]
    refine Visit.alike_node.bind fun n => ?_
    split
    · exact .throw _
    · refine (h.child? name).bind fun c => ?_
      cases c with
      | some c => exact Visit.alike_child _ _ ih
      | none =>
        cases absent with
        | some a => exact .pure a
        | none => exact (h.create name).bind fun c => Visit.alike_child _ _ ih

theorem visitTop (h : Engine.Alike R e e') {v : Visit σ α} {v' : Visit τ α}
    (hv : Action.Alike (Beside R) v v') :
    Action.Alike (Beside R) (e.visitTop v) (e'.visitTop v') := by
  have hgo : ∀ n s t, R s t → (v (n,s)).1 = (v' (n,t)).1 ∧
      Beside R (some (v (n,s)).2.1,(v (n,s)).2.2) (some (v' (n,t)).2.1,(v' (n,t)).2.2) := by
    intro n s t hR
    obtain ⟨h₁,h₂,h₃⟩ := hv (n,s) (n,t) ⟨rfl,hR⟩
    exact ⟨h₁,congrArg some h₂,h₃⟩
  rintro ⟨cache,s⟩ ⟨cache',t⟩ ⟨hc,hR⟩
  obtain rfl : cache = cache' := hc
  cases cache with
  | some n => exact hgo n s t hR
  | none =>
    obtain ⟨h₁,h₂⟩ := h.load ['/'] 0 [] s t hR
    simp only [Engine.visitTop]
    rcases hl : e.load ['/'] 0 [] s with ⟨r,s'⟩
    rcases hl' : e'.load ['/'] 0 [] t with ⟨r',t'⟩
    rw [hl,hl'] at h₁ h₂
    obtain rfl : r = r' := h₁
    rcases r with err | (_ | n)
    · exact ⟨rfl,rfl,h₂⟩
    · rw [h.source]
      exact hgo _ s' t' h₂
    · exact hgo n s' t' h₂

theorem effective (h : Engine.Alike R e e') (path identity : Text) :
    Action.Alike (Beside R) (e.effective path identity) (e'.effective path identity) := by
  refine h.visitTop (Visit.alike_node.bind fun n => ?_)
  rw [h.groups]
  exact h.resolve _ _ _ _

theorem update (h : Engine.Alike R e e') (dir : Text) (change : Change) :
    Action.Alike (Beside R) (e.update dir change) (e'.update dir change) := by
  refine h.visitTop (h.visitDirectory _ _ (Visit.alike_node.bind fun n => ?_) _)
  cases change.apply n with
  | error err => exact .throw _
  | ok n' => exact (Visit.alike_put _).bind fun _ =>
      (Visit.alike_outside (h.persist _)).bind fun _ => .pure _

theorem updateFile (h : Engine.Alike R e e') (file : Text) (change : Text → Change) :
    Action.Alike (Beside R) (e.updateFile file change) (e'.updateFile file change) := by
  rw [Engine.updateFile,Engine.updateFile]
  cases Engine.splitFile file with
  | error err => exact .throw _
  | ok r => exact h.update _ _

theorem touchFile (h : Engine.Alike R e e') (file : Text) :
    Action.Alike (Beside R) (e.touchFile file) (e'.touchFile file) :=
  (h.updateFile file .touch).bind fun _ => .pure _

theorem describe (h : Engine.Alike R e e') (dir : Text) :
    Action.Alike (Beside R) (e.describe dir) (e'.describe dir) :=
  h.visitTop (h.visitDirectory _ _ (Visit.alike_node.bind fun _ => .pure _) _)

theorem clearCache :
    Action.Alike (Beside R) (Engine.clearCache : Action (Cache × σ) Unit) Engine.clearCache := by
  rintro ⟨_,s⟩ ⟨_,t⟩ ⟨_,hR⟩
  exact ⟨rfl,rfl,hR⟩

theorem check (h : Engine.Alike R e e') (path identity : Text) (required : Permission) :
    Action.Alike (Beside R) (e.check path identity required) (e'.check path identity required) :=
  (h.effective path identity).bind fun _ => .pure _

end Engine.Alike

end Realm.Acl
