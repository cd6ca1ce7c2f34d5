import Realm.Json.Shape
import Realm.Proofs.Json.RoundTrip
import Realm.Proofs.Table

/-! Drafts that say values, looked at for a shape. What is found is told together with the
exact condition under which it is found, since a document may be nested too deeply for its
reader; the conditions of the parts make that of the whole. -/
namespace Realm

theorem bind_eq_ok {ε α β : Type} {r : Except ε α} {k : α → Except ε β} {b : β} :
    (r >>= k) = .ok b ↔ ∃ a, r = .ok a ∧ k a = .ok b := by
  cases r with
  | ok a => exact ⟨fun h => ⟨a,rfl,h⟩,fun ⟨_,h,hk⟩ => by cases h; exact hk⟩
  | error f => exact ⟨fun h => (nomatch h),fun ⟨_,h,_⟩ => (nomatch h)⟩

namespace Json

mutual

/-- How many arrays and objects stand inside each other. -/
def nesting : Json → Nat
  | .array vs => nestingItems vs + 1
  | .object ms => nestingMembers ms + 1
  | .null | .bool _ | .number _ | .real _ | .string _ => 0

def nestingItems : List Json → Nat
  | [] => 0
  | v :: vs => max (nesting v) (nestingItems vs)

def nestingMembers : List (Text × Json) → Nat
  | [] => 0
  | (_,v) :: ms => max (nesting v) (nestingMembers ms)

end

@[simp] theorem nestingItems_cons_lt {v : Json} {vs : List Json} {n : Nat} :
    nestingItems (v :: vs) < n ↔ nesting v < n ∧ nestingItems vs < n := by
  rw [nestingItems]
  exact Nat.max_lt

@[simp] theorem nestingMembers_cons_lt {m : Text × Json} {ms : List (Text × Json)} {n : Nat} :
    nestingMembers (m :: ms) < n ↔ nesting m.2 < n ∧ nestingMembers ms < n := by
  rw [nestingMembers]
  exact Nat.max_lt

theorem nestingItems_lt {vs : List Json} {n : Nat} (h : 0 < n) :
    nestingItems vs < n ↔ ∀ v ∈ vs, nesting v < n := by
  induction vs with
  | nil => simpa [nestingItems] using h
  | cons v vs ih => rw [nestingItems_cons_lt,ih,List.forall_mem_cons]

theorem nestingMembers_lt {ms : List (Text × Json)} {n : Nat} (h : 0 < n) :
    nestingMembers ms < n ↔ ∀ m ∈ ms, nesting m.2 < n := by
  induction ms with
  | nil => simpa [nestingMembers] using h
  | cons m ms ih => rw [nestingMembers_cons_lt,ih,List.forall_mem_cons]

namespace Draft

variable {α β : Type}

/-- A look at a draft finds `a` if `p` holds, and is refused otherwise. -/
structure Finds (r : Except Flaw α) (p : Prop) (a : α) : Prop where
  found : p → r = .ok a
  refused : ¬ p → ∃ f, r = .error f

namespace Finds

theorem ok (a : α) : Finds (.ok a) True a :=
  ⟨fun _ => rfl,fun h => absurd trivial h⟩

theorem of_eq {r : Except Flaw α} {a : α} (h : r = .ok a) : Finds r True a :=
  h ▸ ok a

theorem congr {r : Except Flaw α} {p q : Prop} {a : α} (h : Finds r p a) (hpq : p ↔ q) :
    Finds r q a :=
  ⟨fun hq => h.found (hpq.2 hq),fun hq => h.refused fun hp => hq (hpq.1 hp)⟩

theorem bind {r : Except Flaw α} {k : α → Except Flaw β} {p q : Prop} {a : α} {b : β}
    (h : Finds r p a) (hk : p → Finds (k a) q b) : Finds (r >>= k) (p ∧ q) b := by
  constructor
  · rintro ⟨hp,hq⟩
    rw [h.found hp]
    exact (hk hp).found hq
  · intro hn
    by_cases hp : p
    · rw [h.found hp]
      exact (hk hp).refused fun hq => hn ⟨hp,hq⟩
    · obtain ⟨f,hf⟩ := h.refused hp
      exact ⟨f,by rw [hf]; rfl⟩

theorem mapError {r : Except Flaw α} {p : Prop} {a : α} (h : Finds r p a)
    (g : Flaw → Flaw) : Finds (r.mapError g) p a := by
  constructor
  · intro hp
    rw [h.found hp]
    rfl
  · intro hp
    obtain ⟨f,hf⟩ := h.refused hp
    exact ⟨g f,by rw [hf]; rfl⟩

end Finds

theorem finds_enter (s : Span) (depth : Nat) : Finds (enter s depth) (2 ≤ depth) (depth - 1) := by
  rcases depth with _ | _ | n
  · exact ⟨fun h => absurd h (by decide),fun _ => ⟨_,rfl⟩⟩
  · exact ⟨fun h => absurd h (by decide),fun _ => ⟨_,rfl⟩⟩
  · exact ⟨fun _ => rfl,fun h => absurd (by omega) h⟩

theorem ask_none : ask none = .ok () := rfl

mutual

theorem finds_anything {d : Draft} {v : Json} (h : d.Says v) :
    ∃ j, ∀ {depth : Nat}, 0 < depth → Finds (anything depth d) (nesting v < depth) j := by
  cases h with
  | null s => exact ⟨.null,fun h₀ => (Finds.ok _).congr (by simpa [nesting] using h₀)⟩
  | bool b s => exact ⟨.bool b,fun h₀ => (Finds.ok _).congr (by simpa [nesting] using h₀)⟩
  | integer n s =>
    exact ⟨.number n,fun h₀ => (Finds.ok _).congr (by simpa [nesting] using h₀)⟩
  | @string q t hq =>
    refine ⟨.string t,fun h₀ => (Finds.of_eq ?_).congr (by simpa [nesting] using h₀)⟩
    simp [anything,hq.value,Except.map]
  | @array ds vs s hs =>
    obtain ⟨js,hj⟩ := finds_anyItems hs
    refine ⟨Json.array js,fun {depth} h₀ => ?_⟩
    rw [anything]
    refine Finds.congr (Finds.bind (finds_enter s depth) fun h₂ =>
      Finds.bind (hj (by omega)) fun _ =>
        Finds.bind (Finds.of_eq ask_none) fun _ => Finds.ok _) ?_
    simp only [nesting,and_true]
    omega
  | @object ds ms s hs =>
    obtain ⟨js,hj⟩ := finds_anyMembers hs
    refine ⟨Json.object (Table.ofList js),fun {depth} h₀ => ?_⟩
    rw [anything]
    refine Finds.congr (Finds.bind (finds_enter s depth) fun h₂ =>
      Finds.bind (hj (by omega)) fun _ =>
        Finds.bind (Finds.of_eq ask_none) fun _ => Finds.ok _) ?_
    simp only [nesting,and_true]
    omega

theorem finds_anyItems {ds : List Draft} {vs : List Json} (h : SayItems ds vs) :
    ∃ js, ∀ {depth : Nat}, 0 < depth →
      Finds (anyItems depth ds) (nestingItems vs < depth) js := by
  cases h with
  | nil => exact ⟨[],fun h₀ => (Finds.ok _).congr (by simpa [nestingItems] using h₀)⟩
  | @cons d v ds vs h hs =>
    obtain ⟨j,hj⟩ := finds_anything h
    obtain ⟨js,hjs⟩ := finds_anyItems hs
    refine ⟨j :: js,fun h₀ => ?_⟩
    rw [anyItems]
    refine Finds.congr (Finds.bind (hj h₀) fun _ => Finds.bind (hjs h₀) fun _ => Finds.ok _) ?_
    simp only [nestingItems,and_true]
    omega

theorem finds_anyMembers {ds : List (Quotation × Draft)} {ms : List (Text × Json)}
    (h : SayMembers ds ms) :
    ∃ js, ∀ {depth : Nat}, 0 < depth →
      Finds (anyMembers depth ds) (nestingMembers ms < depth) js := by
  cases h with
  | nil => exact ⟨[],fun h₀ => (Finds.ok _).congr (by simpa [nestingMembers] using h₀)⟩
  | @cons q d name v ds ms hq h hs =>
    obtain ⟨j,hj⟩ := finds_anything h
    obtain ⟨js,hjs⟩ := finds_anyMembers hs
    refine ⟨(name,j) :: js,fun h₀ => ?_⟩
    rw [anyMembers]
    refine Finds.congr (Finds.bind (Finds.of_eq hq.value) fun _ => Finds.bind (hj h₀) fun _ =>
      Finds.bind (hjs h₀) fun _ => Finds.ok _) ?_
    simp only [nestingMembers,and_true,true_and]
    omega

end

/-! Shapes. -/

theorem finds_text {d : Draft} {t : Text} (h : d.Says (.string t)) : d.text = .ok t := by
  cases h with
  | string hq => exact hq.value

theorem finds_flag {d : Draft} {b : Bool} (h : d.Says (.bool b)) : d.flag = .ok b := by
  cases h
  rfl

theorem finds_permission {d : Draft} {p : Permission} (h : d.Says (.number p.toNat)) :
    d.permission = .ok p := by
  have hp : p.toNat < 0x2000 := p.bits.isLt
  cases h
  have hb : ¬ ((p.toNat : Int) < 0 ∨ (0x100000000 : Int) ≤ p.toNat) := by omega
  simp only [permission,if_neg hb,Int.toNat_natCast,Permission.ofNat?_toNat]

theorem finds_entries {read : Draft → Except Flaw α} {write : α → Json} {p : α → Prop}
    {es : List (Text × α)} {ds : List (Quotation × Draft)}
    (h : SayMembers ds (es.map fun e => (e.1,write e.2)))
    (hread : ∀ e ∈ es, ∀ d : Draft, d.Says (write e.2) → Finds (read d) (p e.2) e.2) :
    Finds (entries read ds) (∀ e ∈ es, p e.2) es := by
  induction es generalizing ds with
  | nil =>
    cases h
    exact (Finds.ok _).congr (by simp)
  | cons e es ih =>
    cases h with
    | @cons q d _ _ ds _ hq hd hs =>
      have he := hread e (by simp) d hd
      have hes := ih hs fun e he => hread e (by simp [he])
      rw [entries]
      exact Finds.congr (Finds.bind (Finds.of_eq hq.value) fun _ => Finds.bind he fun _ =>
        Finds.bind hes fun _ => Finds.ok (e :: es)) (by simp)

theorem finds_items {read : Draft → Except Flaw α} {write : α → Json} {p : α → Prop}
    {xs : List α} {ds : List Draft} (h : SayItems ds (xs.map write))
    (hread : ∀ x ∈ xs, ∀ d : Draft, d.Says (write x) → Finds (read d) (p x) x) :
    Finds (ds.mapM read) (∀ x ∈ xs, p x) xs := by
  induction xs generalizing ds with
  | nil =>
    cases h
    exact (Finds.ok _).congr (by simp)
  | cons x xs ih =>
    cases h with
    | @cons d _ ds _ hd hs =>
      have hx := hread x (by simp) d hd
      have hxs := ih hs fun x hx => hread x (by simp [hx])
      rw [List.mapM_cons]
      exact Finds.congr (Finds.bind hx fun _ => Finds.bind hxs fun _ => Finds.ok (x :: xs))
        (by simp)

theorem finds_list {read : Nat → Draft → Except Flaw α} {write : α → Json} {xs : List α}
    {d : Draft} (h : d.Says (.array (xs.map write))) {depth : Nat}
    (hread : 0 < depth - 1 → ∀ x ∈ xs, ∀ d : Draft, d.Says (write x) →
      Finds (read (depth - 1) d) (nesting (write x) < depth - 1) x) :
    Finds (list read depth d) (nesting (.array (xs.map write)) < depth) xs := by
  cases h with
  | @array ds _ s hs =>
    rw [list]
    refine Finds.congr (Finds.bind (finds_enter s depth) fun h₂ =>
      Finds.bind (finds_items hs (hread (by omega))) fun _ =>
        Finds.bind (Finds.of_eq ask_none) fun _ => Finds.ok xs) ?_
    have hn : 2 ≤ depth → (nestingItems (xs.map write) < depth - 1 ↔
        ∀ x ∈ xs, nesting (write x) < depth - 1) := by
      intro h₂
      have hlt : nestingItems (xs.map write) < depth - 1 ↔
          ∀ v ∈ xs.map write, nesting v < depth - 1 := nestingItems_lt (by omega)
      simpa using hlt
    simp only [and_true,nesting]
    constructor
    · rintro ⟨h₂,hx⟩
      have := (hn h₂).2 hx
      omega
    · intro h
      exact ⟨by omega,(hn (by omega)).1 (by omega)⟩

theorem finds_table {read : Nat → Draft → Except Flaw α} (write : α → Json) {t : Table Text α}
    (ht : t.Sorted) {d : Draft} (h : d.Says (.object (t.map fun e => (e.1,write e.2))))
    {depth : Nat} (hread : 0 < depth - 1 → ∀ e ∈ t, ∀ d : Draft, d.Says (write e.2) →
      Finds (read (depth - 1) d) (nesting (write e.2) < depth - 1) e.2) :
    Finds (table read depth d) (nesting (.object (t.map fun e => (e.1,write e.2))) < depth) t := by
  cases h with
  | @object ds _ s hs =>
    have hf : Finds (table read depth (.object ds none s))
        (2 ≤ depth ∧ (∀ e ∈ t, nesting (write e.2) < depth - 1) ∧ True ∧ True)
        (Table.ofList t) := by
      rw [table]
      exact Finds.bind (finds_enter s depth) fun h₂ =>
        Finds.bind (finds_entries (p := fun a => nesting (write a) < depth - 1) hs
          (hread (by omega))) fun _ => Finds.bind (Finds.of_eq ask_none) fun _ => Finds.ok _
    rw [Table.ofList_of_sorted ht] at hf
    refine Finds.congr hf ?_
    have hn : 2 ≤ depth → (nestingMembers (t.map fun e => (e.1,write e.2)) < depth - 1 ↔
        ∀ e ∈ t, nesting (write e.2) < depth - 1) := by
      intro h₂
      rw [nestingMembers_lt (by omega)]
      simp only [List.forall_mem_map]
    simp only [and_true,nesting]
    constructor
    · rintro ⟨h₂,hx⟩
      have := (hn h₂).2 hx
      omega
    · intro h
      exact ⟨by omega,(hn (by omega)).1 (by omega)⟩

/-! What is found, whatever the draft says. -/

theorem mem_of_entries {read : Draft → Except Flaw α} {ds : List (Quotation × Draft)}
    {es : List (Text × α)} (h : entries read ds = .ok es) {e : Text × α} (he : e ∈ es) :
    ∃ d, read d = .ok e.2 := by
  induction ds generalizing es with
  | nil =>
    cases h
    exact absurd he (by simp)
  | cons m ds ih =>
    rw [entries] at h
    obtain ⟨name,-,h⟩ := bind_eq_ok.1 h
    obtain ⟨v,hv,h⟩ := bind_eq_ok.1 h
    obtain ⟨vs,hvs,h⟩ := bind_eq_ok.1 h
    cases h
    rcases List.mem_cons.1 he with rfl | he
    · exact ⟨m.2,hv⟩
    · exact ih hvs he

theorem mem_of_table {read : Nat → Draft → Except Flaw α} {depth : Nat} {d : Draft}
    {t : Table Text α} (h : d.table read depth = .ok t) :
    t.Sorted ∧ ∀ e ∈ t, ∃ n d, read n d = .ok e.2 := by
  cases d with
  | object ds o s =>
    obtain ⟨n,-,h⟩ := bind_eq_ok.1 h
    obtain ⟨es,hes,h⟩ := bind_eq_ok.1 h
    obtain ⟨_,-,h⟩ := bind_eq_ok.1 h
    cases h
    exact ⟨Table.sorted_ofList es,fun e he => ⟨n,mem_of_entries hes (Table.mem_ofList he)⟩⟩
  | _ => cases h

theorem mem_of_mapM {read : Draft → Except Flaw α} {ds : List Draft} {xs : List α}
    (h : ds.mapM read = .ok xs) {x : α} (hx : x ∈ xs) : ∃ d, read d = .ok x := by
  induction ds generalizing xs with
  | nil =>
    cases h
    exact absurd hx (by simp)
  | cons d ds ih =>
    rw [List.mapM_cons] at h
    obtain ⟨y,hy,h⟩ := bind_eq_ok.1 h
    obtain ⟨ys,hys,h⟩ := bind_eq_ok.1 h
    cases h
    rcases List.mem_cons.1 hx with rfl | hx
    · exact ⟨d,hy⟩
    · exact ih hys hx

theorem mem_of_list {read : Nat → Draft → Except Flaw α} {depth : Nat} {d : Draft} {xs : List α}
    (h : d.list read depth = .ok xs) {x : α} (hx : x ∈ xs) : ∃ n d, read n d = .ok x := by
  cases d with
  | array ds o s =>
    obtain ⟨n,-,h⟩ := bind_eq_ok.1 h
    obtain ⟨ys,hys,h⟩ := bind_eq_ok.1 h
    obtain ⟨_,-,h⟩ := bind_eq_ok.1 h
    cases h
    exact ⟨n,mem_of_mapM hys hx⟩
  | _ => cases h

end Draft

/-! Records. -/

open Draft

namespace Fields

variable {α : Type} {f : Fields α}

/-- A field is found where a member of its name is met for the first time. -/
theorem ofMembers_cons (seen : List Text) (a : α) (q : Quotation) (d : Draft)
    (ds : List (Quotation × Draft)) :
    f.ofMembers seen a ((q,d) :: ds) = (do
      let name ← q.value
      if name ∈ f.names then
        if name ∈ seen then .error ⟨.duplicateField name,q.span.next⟩
        else do
          let a ← f.read name d a
          f.ofMembers (name :: seen) a ds
      else do
        d.skim
        f.ofMembers seen a ds) :=
  rfl

theorem finds_member (a' : α) {seen : List Text} {a b : α} {name : Text} {v : Json}
    {ms : List (Text × Json)} {ds : List (Quotation × Draft)} {depth : Nat}
    (h : SayMembers ds ((name,v) :: ms)) (hname : name ∈ f.names) (hseen : name ∉ seen)
    (hread : ∀ d : Draft, d.Says v → Finds (f.read name d a) (nesting v < depth) a')
    (hrest : ∀ ds, SayMembers ds ms →
      Finds (f.ofMembers (name :: seen) a' ds) (nestingMembers ms < depth) b) :
    Finds (f.ofMembers seen a ds) (nestingMembers ((name,v) :: ms) < depth) b := by
  cases h with
  | @cons q d _ _ ds _ hq hd hs =>
    have hf : Finds (f.ofMembers seen a ((q,d) :: ds))
        (True ∧ nesting v < depth ∧ nestingMembers ms < depth) b := by
      rw [ofMembers_cons]
      refine Finds.bind (Finds.of_eq hq.value) fun _ => ?_
      simp only [hname,hseen,if_true,if_false]
      exact Finds.bind (hread _ hd) fun _ => hrest _ hs
    exact Finds.congr hf (by rw [nestingMembers_cons_lt,true_and])

theorem finds_optional (a' : α) {seen : List Text} {a b : α} {name : Text} {v : Json} {c : Bool}
    {ms : List (Text × Json)} {ds : List (Quotation × Draft)} {depth : Nat}
    (h : SayMembers ds ((if c then [] else [(name,v)]) ++ ms)) (hname : name ∈ f.names)
    (hseen : name ∉ seen) (hc : c = true → a' = a)
    (hread : c = false → ∀ d : Draft, d.Says v → Finds (f.read name d a) (nesting v < depth) a')
    (hrest : ∀ ds seen', seen' ⊆ name :: seen → SayMembers ds ms →
      Finds (f.ofMembers seen' a' ds) (nestingMembers ms < depth) b) :
    Finds (f.ofMembers seen a ds)
      (nestingMembers ((if c then [] else [(name,v)]) ++ ms) < depth) b := by
  cases c with
  | true =>
    rw [← hc rfl]
    exact hrest ds seen (by simp) h
  | false => exact finds_member a' h hname hseen (hread rfl) fun ds => hrest ds _ (by simp)

theorem finds_noMembers {seen : List Text} {a : α} {ds : List (Quotation × Draft)}
    (h : SayMembers ds []) : Finds (f.ofMembers seen a ds) True a := by
  cases h
  exact Finds.ok a

theorem finds_record (hreq : f.required = []) {source : Source} {a b : α}
    {ds : List (Quotation × Draft)} {s : Span} {p : Prop}
    (h : Finds (f.ofMembers [] a ds) p b) :
    Finds (f.record source a (.object ds none s)) p b := by
  rw [record]
  refine Finds.congr (Finds.bind h fun _ => Finds.bind (Finds.of_eq ask_none) fun _ => ?_)
    (show p ∧ True ∧ True ↔ p by simp)
  rw [hreq]
  exact Finds.ok b

/-! What holds of a record before any field is read, and is kept by each, holds of it in
the end. -/

variable {P : α → Prop}

theorem ofMembers_keeps (hread : ∀ name d a b, P a → f.read name d a = .ok b → P b)
    {seen : List Text} {a b : α} {ds : List (Quotation × Draft)} (ha : P a)
    (h : f.ofMembers seen a ds = .ok b) : P b := by
  induction ds generalizing seen a with
  | nil =>
    cases h
    exact ha
  | cons m ds ih =>
    rw [ofMembers_cons] at h
    obtain ⟨name,-,h⟩ := bind_eq_ok.1 h
    split at h
    · split at h
      · cases h
      · obtain ⟨c,hc,h⟩ := bind_eq_ok.1 h
        exact ih (hread _ _ _ _ ha hc) h
    · obtain ⟨_,-,h⟩ := bind_eq_ok.1 h
      exact ih ha h

theorem ofItems_keeps (hread : ∀ name d a b, P a → f.read name d a = .ok b → P b)
    {names : List Text} {a : α} {ds : List Draft} (ha : P a) {r : α × List Text × List Draft}
    (h : f.ofItems a names ds = .ok r) : P r.1 := by
  induction names generalizing a ds with
  | nil =>
    cases h
    exact ha
  | cons name names ih =>
    cases ds with
    | nil =>
      cases h
      exact ha
    | cons d ds =>
      obtain ⟨c,hc,h⟩ := bind_eq_ok.1 h
      exact ih (hread _ _ _ _ ha hc) h

theorem eq_of_find? {required : List Text} {lacks : Text → Bool} {flaw : Text → Flaw} {a b : α}
    (h : (match required.find? lacks with
      | some name => (.error (flaw name) : Except Flaw α)
      | none => pure a) = .ok b) : a = b := by
  split at h <;> cases h
  rfl

theorem record_keeps (hread : ∀ name d a b, P a → f.read name d a = .ok b → P b)
    {source : Source} {a b : α} {d : Draft} (ha : P a) (h : f.record source a d = .ok b) :
    P b := by
  cases d with
  | object ds o s =>
    obtain ⟨c,hc,h⟩ := bind_eq_ok.1 h
    obtain ⟨_,-,h⟩ := bind_eq_ok.1 h
    have hP := ofMembers_keeps hread ha hc
    cases eq_of_find? h
    exact hP
  | array ds o s =>
    obtain ⟨⟨c,missing,more⟩,hc,h⟩ := bind_eq_ok.1 h
    obtain ⟨_,-,h⟩ := bind_eq_ok.1 h
    have hP := ofItems_keeps hread ha hc
    cases missing with
    | nil =>
      obtain ⟨_,-,h⟩ := bind_eq_ok.1 h
      cases eq_of_find? h
      exact hP
    | cons name names =>
      obtain ⟨_,-,h⟩ := bind_eq_ok.1 h
      cases eq_of_find? h
      exact hP
  | _ => cases h

end Fields

end Json
end Realm
