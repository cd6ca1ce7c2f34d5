/-! Finite maps as lists of entries in ascending order of their keys, so that two tables
with the same look-ups are written alike. -/
namespace Realm

/-- Entries in ascending order of their keys, each key once. -/
abbrev Table (κ α : Type) := List (κ × α)

namespace Table

variable {κ α β : Type}

/-- The keys ascend strictly, hence each occurs once. -/
def Sorted [LT κ] (t : Table κ α) : Prop :=
  t.Pairwise fun a b => a.1 < b.1

def get? [DecidableEq κ] (k : κ) : Table κ α → Option α
  | [] => none
  | (k',v) :: t => if k = k' then some v else get? k t

def insert [DecidableEq κ] [LT κ] [DecidableLT κ] (k : κ) (v : α) : Table κ α → Table κ α
  | [] => [(k,v)]
  | (k',v') :: t =>
    if k = k' then (k,v) :: t
    else if k < k' then (k,v) :: (k',v') :: t
    else (k',v') :: insert k v t

def erase [DecidableEq κ] (k : κ) (t : Table κ α) : Table κ α :=
  t.filter fun e => e.1 ≠ k

def contains [DecidableEq κ] (k : κ) (t : Table κ α) : Bool :=
  (get? k t).isSome

/-- Store all entries of a list, one after the other; of two with one key the later
stays. -/
def insertAll [DecidableEq κ] [LT κ] [DecidableLT κ] (entries : List (κ × α)) (t : Table κ α) :
    Table κ α :=
  entries.foldl (fun t e => insert e.1 e.2 t) t

def ofList [DecidableEq κ] [LT κ] [DecidableLT κ] (entries : List (κ × α)) : Table κ α :=
  insertAll entries []

def keys (t : Table κ α) : List κ :=
  t.map (·.1)

def mapValues (f : α → β) (t : Table κ α) : Table κ β :=
  t.map fun e => (e.1,f e.2)

section Lookup

variable [DecidableEq κ] [LT κ] [DecidableLT κ]

@[simp] theorem get?_insert_self (k : κ) (v : α) (t : Table κ α) :
    get? k (insert k v t) = some v := by
  induction t with
  | nil => simp [insert,get?]
  | cons e t ih =>
    obtain ⟨k',v'⟩ := e
    simp only [insert]
    split
    · simp [get?]
    · next h =>
      split
      · simp [get?]
      · simpa [get?,h] using ih

theorem get?_insert_of_ne {k j : κ} (h : j ≠ k) (v : α) (t : Table κ α) :
    get? j (insert k v t) = get? j t := by
  induction t with
  | nil => simp [insert,get?,h]
  | cons e t ih =>
    obtain ⟨k',v'⟩ := e
    simp only [insert]
    split
    · next hk => subst hk; simp [get?,h]
    · split
      · simp [get?,h]
      · simp [get?,ih]

end Lookup

end Table
end Realm
