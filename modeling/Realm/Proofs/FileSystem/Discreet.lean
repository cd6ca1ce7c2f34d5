import Realm.FileSystem.Disk
import Realm.FileSystem.Memory
import Realm.Proofs.FileSystem.Calls

/-! Errors that are nobody's fault but the library's. No file system reports any. -/
namespace Realm

variable {σ α β : Type}

/-- A result of which something holds, or an error that is not internal. -/
def Fair (Q : α → Prop) : Except Error α → Prop
  | .ok a => Q a
  | .error err => ∀ cause, err ≠ .internal cause

/-- A step that reports no internal error. -/
def Action.Discreet (x : Action σ α) : Prop :=
  ∀ s, Fair (fun _ => True) (x s).1

/-- A file system that reports no internal error, whatever it is asked. -/
def FileSystem.Discreet (fs : FileSystem σ) : Prop :=
  ∀ (call : Call) w cause, (call.run fs w).1 ≠ .error (.internal cause)

namespace Action.Discreet

theorem pure (a : α) : Discreet (Pure.pure a : Action σ α) :=
  fun _ => trivial

theorem file (cause : FileError) : Discreet (throw (.file cause) : Action σ α) :=
  fun _ => nofun

theorem bind {x : Action σ α} {f : α → Action σ β} (hx : Discreet x) (hf : ∀ a, Discreet (f a)) :
    Discreet (x >>= f) := by
  intro s
  have hs := hx s
  rw [Action.bind_eq]
  rcases hr : x s with ⟨err | a,s'⟩ <;> rw [hr] at hs
  · exact hs
  · exact hf a s'

theorem get : Discreet (MonadState.get : Action σ σ) :=
  fun _ => trivial

theorem modify (f : σ → σ) : Discreet (modify f : Action σ Unit) :=
  fun _ => trivial

end Action.Discreet

theorem FileSystem.Discreet.operation {fs : FileSystem σ} (hfs : fs.Discreet) (call : Call)
    {x : Action σ α} {f : α → FileReply} (h : call.run fs = x >>= fun a => pure (f a)) :
    x.Discreet := by
  intro w
  have hcall := hfs call w
  rw [h,Action.bind_pure] at hcall
  generalize (x w).1 = r at hcall ⊢
  cases r with
  | ok a => trivial
  | error err =>
    intro cause herr
    subst herr
    exact hcall cause rfl

/-- Operations that report no internal error make a file system that reports none. -/
theorem FileSystem.discreet_of {fs : FileSystem σ} (read : ∀ p, (fs.read p).Discreet)
    (write : ∀ p c, (fs.write p c).Discreet) (append : ∀ p c, (fs.append p c).Discreet)
    (makeDir : ∀ p b, (fs.makeDir p b).Discreet) (remove : ∀ p b, (fs.remove p b).Discreet)
    (stat : ∀ p, (fs.stat p).Discreet) (list : ∀ p, (fs.list p).Discreet)
    (has : ∀ p, (fs.has p).Discreet) : fs.Discreet := by
  have hdone : ∀ {α : Type} {x : Action σ α} {f : α → FileReply}, x.Discreet →
      Action.Discreet (x >>= fun a => pure (f a)) := fun hx => hx.bind fun _ => .pure _
  intro call w cause hcall
  have hdiscreet : (call.run fs).Discreet := by
    cases call with
    | read p => exact hdone (read p)
    | write p c => exact hdone (write p c)
    | append p c => exact hdone (append p c)
    | makeDir p b => exact hdone (makeDir p b)
    | remove p b => exact hdone (remove p b)
    | stat p => exact hdone (stat p)
    | list p => exact hdone (list p)
    | has p => exact hdone (has p)
  have hfair := hdiscreet w
  rw [hcall] at hfair
  exact hfair cause rfl

namespace Memory

theorem discreet_writeAt (place : List Text) (c : Bytes) : (writeAt place c).Discreet := by
  refine Action.Discreet.get.bind fun t => ?_
  split
  · exact .file _
  · split
    · exact .file _
    · exact .modify _

theorem discreet_makeWay (place names : List Text) : (makeWay place names).Discreet := by
  induction names generalizing place with
  | nil => exact .pure ()
  | cons name names ih =>
    refine Action.Discreet.get.bind fun t => ?_
    split
    · exact ih _
    · exact .file _
    · exact (Action.Discreet.modify _).bind fun _ => ih _

theorem discreet : fileSystem.Discreet := by
  refine FileSystem.discreet_of (fun p => ?read) (fun p c => discreet_writeAt _ c)
    (fun p c => ?append) (fun p b => ?makeDir) (fun p b => ?remove) (fun p => ?stat) (fun p => ?list)
    fun p => Action.Discreet.get.bind fun t => .pure _
  case read | list | stat =>
    refine Action.Discreet.get.bind fun t => ?_
    split <;> first | exact .pure _ | exact .file _
  case append =>
    refine Action.Discreet.get.bind fun t => ?_
    split
    · exact .modify _
    · exact .file _
    · exact discreet_writeAt _ c
  case makeDir =>
    show (makeDir p b).Discreet
    rw [makeDir]
    split
    · exact discreet_makeWay _ _
    · refine Action.Discreet.get.bind fun t => ?_
      split
      · exact .file _
      · split
        · exact .file _
        · exact .modify _
  case remove =>
    refine Action.Discreet.get.bind fun t => ?_
    split
    · split
      · exact .file _
      · exact .modify _
    · exact .modify _
    · exact .file _

end Memory

namespace Disk

theorem discreet_find (place : List Text) : (find place).Discreet := by
  refine Action.Discreet.get.bind fun t => ?_
  split
  · exact .file _
  · exact .pure _

theorem discreet_require (place : List Text) : (require place).Discreet := by
  refine (discreet_find place).bind fun x => ?_
  split
  · exact .pure _
  · exact .file _

theorem discreet_changeAt (place : List Text) (f : Bytes → Bytes) :
    (changeAt place f).Discreet := by
  refine (discreet_find place).bind fun x => ?_
  split
  · exact .file _
  · exact .modify _
  · exact .modify _

theorem discreet_guarded (c : Config) {x : Action FileTree Unit} (h : x.Discreet) :
    (guarded c x).Discreet := by
  rw [guarded]
  split
  · exact .file _
  · exact h

theorem discreet (c : Config) : (fileSystem c).Discreet := by
  refine FileSystem.discreet_of (fun p => ?read)
    (fun p x => discreet_guarded c (discreet_changeAt _ _))
    (fun p x => discreet_guarded c (discreet_changeAt _ _))
    (fun p b => discreet_guarded c ?makeDir) (fun p b => discreet_guarded c ?remove)
    (fun p => (discreet_require _).bind fun x => .pure _) (fun p => ?list) fun p => ?has
  case read =>
    refine (discreet_require _).bind fun x => ?_
    split
    · exact .pure _
    · exact .file _
  case makeDir =>
    split
    · refine Action.Discreet.get.bind fun t => ?_
      split
      · exact .file _
      · exact .file _
      · exact .modify _
    · refine (discreet_find _).bind fun x => ?_
      split
      · exact .file _
      · exact .modify _
  case remove =>
    split
    · exact .file _
    · refine (discreet_require _).bind fun x => ?_
      split
      · exact .modify _
      · refine Action.Discreet.get.bind fun t => ?_
        split
        · exact .file _
        · exact .modify _
  case list =>
    refine (discreet_require _).bind fun x => ?_
    split
    · exact .file _
    · exact Action.Discreet.get.bind fun t => .pure _
  case has =>
    refine Action.Discreet.get.bind fun t => ?_
    split
    · exact .pure _
    · exact .file _
    · exact .pure _

end Disk

end Realm
