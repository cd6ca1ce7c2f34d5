import Realm.FileSystem

/-! Steps that cannot tell two states apart: begun in states that correspond, they give the
same result and end in states that correspond again. -/
namespace Realm

variable {σ τ α β : Type}

theorem Action.bind_eq (x : Action σ α) (f : α → Action σ β) (s : σ) :
    (x >>= f) s = match x s with
      | (.ok a,s) => f a s
      | (.error err,s) => (.error err,s) := by
  show ExceptT.bindCont f (x s).1 (x s).2 = _
  rcases x s with ⟨_ | _,_⟩ <;> rfl

theorem Action.bind_ok {x : Action σ α} {f : α → Action σ β} {s s' : σ} {b : β}
    (h : (x >>= f) s = (.ok b,s')) : ∃ a s₁, x s = (.ok a,s₁) ∧ f a s₁ = (.ok b,s') := by
  rw [Action.bind_eq] at h
  rcases hx : x s with ⟨err | a,s₁⟩
  · rw [hx] at h
    cases h
  · rw [hx] at h
    exact ⟨a,s₁,rfl,h⟩

@[simp] theorem Action.get_bind (f : σ → Action σ β) (s : σ) :
    ((get : Action σ σ) >>= f) s = f s s :=
  rfl

theorem Action.bind_pure (x : Action σ α) (f : α → β) (s : σ) :
    (x >>= fun a => pure (f a)) s = ((x s).1.map f,(x s).2) := by
  rw [Action.bind_eq]
  rcases x s with ⟨_ | _,_⟩ <;> rfl

theorem Action.bind_keeps {R : σ → σ → Prop} (htrans : ∀ u v w, R u v → R v w → R u w)
    {x : Action σ α} {k : α → Action σ β} (hx : ∀ s, R s (x s).2) (hk : ∀ a s, R s (k a s).2)
    (s : σ) : R s ((x >>= k) s).2 := by
  have hs := hx s
  rw [Action.bind_eq]
  rcases hr : x s with ⟨err | a,s'⟩ <;> rw [hr] at hs
  · exact hs
  · exact htrans _ _ _ hs (hk a s')

/-- Steps on two states with the same results, as far as the states correspond. -/
def Action.Alike (R : σ → τ → Prop) (x : Action σ α) (y : Action τ α) : Prop :=
  ∀ s t, R s t → (x s).1 = (y t).1 ∧ R (x s).2 (y t).2

namespace Action.Alike

variable {R : σ → τ → Prop}

theorem pure (a : α) : Alike R (Pure.pure a) (Pure.pure a) :=
  fun _ _ h => ⟨rfl,h⟩

theorem throw (err : Error) : Alike R (throw err : Action σ α) (throw err : Action τ α) :=
  fun _ _ h => ⟨rfl,h⟩

theorem bind {x : Action σ α} {y : Action τ α} {f : α → Action σ β} {g : α → Action τ β}
    (h : Alike R x y) (hk : ∀ a, Alike R (f a) (g a)) : Alike R (x >>= f) (y >>= g) := by
  intro s t hst
  obtain ⟨h₁,h₂⟩ := h s t hst
  rw [Action.bind_eq,Action.bind_eq]
  rcases hx : x s with ⟨r,s'⟩
  rcases hy : y t with ⟨r',t'⟩
  rw [hx,hy] at h₁ h₂
  obtain rfl : r = r' := h₁
  cases r with
  | error err => exact ⟨rfl,h₂⟩
  | ok a => exact hk a s' t' h₂

end Action.Alike

/-- File systems whose operations cannot tell two states apart. -/
structure FileSystem.Alike (R : σ → τ → Prop) (fs : FileSystem σ) (fs' : FileSystem τ) :
    Prop where
  read : ∀ p, Action.Alike R (fs.read p) (fs'.read p)
  write : ∀ p c, Action.Alike R (fs.write p c) (fs'.write p c)
  append : ∀ p c, Action.Alike R (fs.append p c) (fs'.append p c)
  makeDir : ∀ p b, Action.Alike R (fs.makeDir p b) (fs'.makeDir p b)
  remove : ∀ p b, Action.Alike R (fs.remove p b) (fs'.remove p b)
  stat : ∀ p, Action.Alike R (fs.stat p) (fs'.stat p)
  list : ∀ p, Action.Alike R (fs.list p) (fs'.list p)
  has : ∀ p, Action.Alike R (fs.has p) (fs'.has p)

/-! Steps whose results correspond. -/

/-- Attempts that fail alike, or whose results correspond. -/
inductive ResultRel {ε : Type} (Q : α → β → Prop) : Except ε α → Except ε β → Prop
  | ok {a : α} {b : β} (h : Q a b) : ResultRel Q (.ok a) (.ok b)
  | error (err : ε) : ResultRel Q (.error err) (.error err)

namespace ResultRel

variable {ε γ δ : Type} {Q : α → β → Prop}

theorem refl {Q : α → α → Prop} (h : ∀ a, Q a a) (r : Except ε α) : ResultRel Q r r := by
  cases r with
  | error err => exact .error err
  | ok a => exact .ok (h a)

theorem bind {r : Except ε α} {r' : Except ε β} {P : γ → δ → Prop} {f : α → Except ε γ}
    {g : β → Except ε δ} (h : ResultRel Q r r') (hk : ∀ a b, Q a b → ResultRel P (f a) (g b)) :
    ResultRel P (r >>= f) (r' >>= g) := by
  cases h with
  | ok h => exact hk _ _ h
  | error err => exact .error err

end ResultRel

/-- States of two parts, each of which corresponds to the other's. -/
def Both {ν μ : Type} (P : ν → μ → Prop) (R : σ → τ → Prop) (a : ν × σ) (b : μ × τ) : Prop :=
  P a.1 b.1 ∧ R a.2 b.2

/-- Steps on two states that fail alike or have results that correspond, as far as the states
correspond. -/
def Action.Related (R : σ → τ → Prop) (Q : α → β → Prop) (x : Action σ α) (y : Action τ β) :
    Prop :=
  ∀ s t, R s t → ResultRel Q (x s).1 (y t).1 ∧ R (x s).2 (y t).2

namespace Action.Related

variable {γ δ : Type} {R : σ → τ → Prop} {Q : α → β → Prop}

theorem pure {a : α} {b : β} (h : Q a b) :
    Related R Q (Pure.pure a : Action σ α) (Pure.pure b : Action τ β) :=
  fun _ _ hR => ⟨.ok h,hR⟩

theorem throw (err : Error) :
    Related R Q (throw err : Action σ α) (throw err : Action τ β) :=
  fun _ _ hR => ⟨.error err,hR⟩

theorem bind {x : Action σ α} {y : Action τ β} {P : γ → δ → Prop} {f : α → Action σ γ}
    {g : β → Action τ δ} (h : Related R Q x y) (hk : ∀ a b, Q a b → Related R P (f a) (g b)) :
    Related R P (x >>= f) (y >>= g) := by
  intro s t hst
  obtain ⟨h₁,h₂⟩ := h s t hst
  rw [Action.bind_eq,Action.bind_eq]
  rcases hx : x s with ⟨r,s'⟩
  rcases hy : y t with ⟨r',t'⟩
  rw [hx,hy] at h₁ h₂
  cases h₁ with
  | error err => exact ⟨.error err,h₂⟩
  | ok h => exact hk _ _ h s' t' h₂

end Action.Related

/-! Noticing refusals. -/

/-- A step, with a note of whether this or an earlier one was refused. -/
def Action.noting (x : Action σ α) : Action (σ × Bool) α := fun (w,refused) =>
  let (r,w) := x w
  (r,(w,refused || !r.isOk))

def Action.unnoted (x : Action σ α) : Action (σ × Bool) α := fun (w,refused) =>
  let (r,w) := x w
  (r,(w,refused))

/-- The same file system, with a note of whether a change was ever refused. -/
def FileSystem.noting (fs : FileSystem σ) : FileSystem (σ × Bool) where
  read path := (fs.read path).unnoted
  write path content := (fs.write path content).noting
  append path content := (fs.append path content).noting
  makeDir path recursive := (fs.makeDir path recursive).noting
  remove path recursive := (fs.remove path recursive).noting
  stat path := (fs.stat path).unnoted
  list path := (fs.list path).unnoted
  has path := (fs.has path).unnoted

theorem FileSystem.alike_noting (fs : FileSystem σ) :
    FileSystem.Alike (fun w v => v.1 = w) fs fs.noting := by
  have hn : ∀ {α : Type} (x : Action σ α),
      Action.Alike (fun w (v : σ × Bool) => v.1 = w) x x.noting := by
    rintro α x w v rfl
    exact ⟨rfl,rfl⟩
  have hu : ∀ {α : Type} (x : Action σ α),
      Action.Alike (fun w (v : σ × Bool) => v.1 = w) x x.unnoted := by
    rintro α x w v rfl
    exact ⟨rfl,rfl⟩
  exact ⟨fun _ => hu _,fun _ _ => hn _,fun _ _ => hn _,fun _ _ => hn _,fun _ _ => hn _,
    fun _ => hu _,fun _ => hu _,fun _ => hu _⟩

theorem FileSystem.noting_keeps (fs : FileSystem σ) :
    FileSystem.Alike (fun v v' => v = v' ∧ v.2 = true) fs.noting fs.noting := by
  have hn : ∀ {α : Type} (x : Action σ α),
      Action.Alike (fun (v v' : σ × Bool) => v = v' ∧ v.2 = true) x.noting x.noting := by
    rintro α x ⟨w,b⟩ v ⟨rfl,hb⟩
    refine ⟨rfl,rfl,?_⟩
    obtain rfl : b = true := hb
    rfl
  have hu : ∀ {α : Type} (x : Action σ α),
      Action.Alike (fun (v v' : σ × Bool) => v = v' ∧ v.2 = true) x.unnoted x.unnoted := by
    rintro α x ⟨w,b⟩ v ⟨rfl,hb⟩
    exact ⟨rfl,rfl,hb⟩
  exact ⟨fun _ => hu _,fun _ _ => hn _,fun _ _ => hn _,fun _ _ => hn _,fun _ _ => hn _,
    fun _ => hu _,fun _ => hu _,fun _ => hu _⟩

end Realm
