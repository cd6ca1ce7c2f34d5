import Realm.Proofs.Json.Quotation

/-! Documents that have been written are read back. Main statement: what is read from a
value as it is written, in either layout, is a draft without flaws that says the value. -/
namespace Realm.Json

mutual

/-- A draft says a value: its shape and its parts are those of the value, and nothing in it
is flawed. Where in a document it stands does not matter. -/
inductive Draft.Says : Draft → Json → Prop
  | null (s : Draft.Span) : Says (.null s) .null
  | bool (b : Bool) (s : Draft.Span) : Says (.bool b s) (.bool b)
  | integer (n : Int) (s : Draft.Span) : Says (.integer n s) (.number n)
  | string {q : Draft.Quotation} {t : Text} (h : q.Says t) : Says (.string q) (.string t)
  | array {ds : List Draft} {vs : List Json} (s : Draft.Span) (h : SayItems ds vs) :
      Says (.array ds none s) (.array vs)
  | object {ds : List (Draft.Quotation × Draft)} {ms : List (Text × Json)} (s : Draft.Span)
      (h : SayMembers ds ms) : Says (.object ds none s) (.object ms)

inductive Draft.SayItems : List Draft → List Json → Prop
  | nil : SayItems [] []
  | cons {d : Draft} {v : Json} {ds : List Draft} {vs : List Json} (h : d.Says v)
      (hs : SayItems ds vs) : SayItems (d :: ds) (v :: vs)

inductive Draft.SayMembers : List (Draft.Quotation × Draft) → List (Text × Json) → Prop
  | nil : SayMembers [] []
  | cons {q : Draft.Quotation} {d : Draft} {name : Text} {v : Json}
      {ds : List (Draft.Quotation × Draft)} {ms : List (Text × Json)} (hq : q.Says name)
      (h : d.Says v) (hs : SayMembers ds ms) : SayMembers ((q,d) :: ds) ((name,v) :: ms)

end

mutual

/-- A value whose numbers are integers that a document can hold as such. -/
inductive Storable : Json → Prop
  | null : Storable .null
  | bool (b : Bool) : Storable (.bool b)
  | number {n : Int} (h : Draft.InRange n) : Storable (.number n)
  | string (t : Text) : Storable (.string t)
  | array {vs : List Json} (h : StorableItems vs) : Storable (.array vs)
  | object {ms : List (Text × Json)} (h : StorableMembers ms) : Storable (.object ms)

inductive StorableItems : List Json → Prop
  | nil : StorableItems []
  | cons {v : Json} {vs : List Json} (h : Storable v) (hs : StorableItems vs) :
      StorableItems (v :: vs)

inductive StorableMembers : List (Text × Json) → Prop
  | nil : StorableMembers []
  | cons {name : Text} {v : Json} {ms : List (Text × Json)} (h : Storable v)
      (hs : StorableMembers ms) : StorableMembers ((name,v) :: ms)

end

def moreItems (layout : Layout) (depth : Nat) : List Json → Text
  | [] => []
  | v :: vs => ',' :: writeItems layout depth (v :: vs)

def moreMembers (layout : Layout) (depth : Nat) : List (Text × Json) → Text
  | [] => []
  | m :: ms => ',' :: writeMembers layout depth (m :: ms)

theorem writeItems_cons (layout : Layout) (depth : Nat) (v : Json) (vs : List Json) :
    writeItems layout depth (v :: vs) =
      layout.lineBreak depth ++ writeAt layout depth v ++ moreItems layout depth vs := by
  cases vs <;> simp [writeItems,moreItems]

theorem writeMembers_cons (layout : Layout) (depth : Nat) (name : Text) (v : Json)
    (ms : List (Text × Json)) :
    writeMembers layout depth ((name,v) :: ms) =
      layout.lineBreak depth ++ quote name ++ layout.colon ++ writeAt layout depth v ++
        moreMembers layout depth ms := by
  cases ms <;> simp [writeMembers,moreMembers]

namespace Draft

def AllBlank (t : Text) : Prop :=
  ∀ c ∈ t, isBlank (some c) = true

theorem skipBlanks_append {t : Text} (h : AllBlank t) (s : Symbols) :
    skipBlanks (symbolsOf t ++ s) = skipBlanks s := by
  induction t with
  | nil => rfl
  | cons c t ih =>
    have hc := h c (by simp)
    have ht := ih fun d hd => h d (by simp [hd])
    simp only [symbolsOf,skipBlanks] at ht ⊢
    simp [hc,ht]

theorem skipBlanks_cons {c : Char} (h : isBlank (some c) = false) (s : Symbols) :
    skipBlanks (some c :: s) = some c :: s := by
  simp [skipBlanks,h]

theorem allBlank_lineBreak (layout : Layout) (depth : Nat) :
    AllBlank (layout.lineBreak depth) := by
  intro c hc
  cases layout with
  | compact => simp [Layout.lineBreak] at hc
  | pretty =>
    simp only [Layout.lineBreak,List.mem_cons,List.mem_replicate] at hc
    rcases hc with rfl | ⟨_,rfl⟩ <;> decide

theorem allBlank_close {α : Type} (layout : Layout) (depth : Nat) (xs : List α) :
    AllBlank (layout.close depth xs) := by
  unfold Layout.close
  split
  · intro c hc
    simp at hc
  · exact allBlank_lineBreak layout depth

theorem endsNumber_of_allBlank {t : Text} (h : AllBlank t) {s : Symbols} (hs : EndsNumber s) :
    EndsNumber (symbolsOf t ++ s) := by
  cases t with
  | nil => exact hs
  | cons c t =>
    have hc := h c (by simp)
    refine endsNumber_cons _ ?_
    simp only [isBlank,Bool.or_eq_true,decide_eq_true_eq,Option.some.injEq] at hc
    rcases hc with ((rfl | rfl) | rfl) | rfl <;> decide

/-! What a value begins with decides how it is read. -/

theorem value_string (fuel : Nat) {s rest : Symbols} {q : Quotation}
    (h : quotation s = (q,rest)) : value (fuel + 1) (some '"' :: s) = (string q,rest) := by
  have hb := skipBlanks_cons (c := '"') (by decide) s
  simp [value,hb,h]

theorem value_array {fuel : Nat} {s rest : Symbols} {ds : List Draft}
    (h : items fuel true s = ((ds,none),rest)) :
    ∃ sp, value (fuel + 1) (some '[' :: s) = (array ds none sp,rest) := by
  have hb := skipBlanks_cons (c := '[') (by decide) s
  simp [value,hb,h]

theorem value_object {fuel : Nat} {s rest : Symbols} {ds : List (Quotation × Draft)}
    (h : members fuel true s = ((ds,none),rest)) :
    ∃ sp, value (fuel + 1) (some '\x7b' :: s) = (object ds none sp,rest) := by
  have hb := skipBlanks_cons (c := '\x7b') (by decide) s
  simp [value,hb,h]

@[simp] theorem word_append (t : Text) (rest : Symbols) :
    word t (symbolsOf t ++ rest) = (none,rest) := by
  induction t with
  | nil => cases rest <;> rfl
  | cons c t ih =>
    simp only [symbolsOf] at ih
    simp [word,ih]

theorem value_null (fuel : Nat) (rest : Symbols) :
    ∃ sp, value (fuel + 1) (symbolsOf "null".toList ++ rest) = (null sp,rest) := by
  have hb := skipBlanks_cons (c := 'n') (by decide) (symbolsOf "ull".toList ++ rest)
  have hw := word_append "ull".toList rest
  have hd : Text.isDigit 'n' = false := by decide
  simp at hb hw
  simp [value,hb,hw,hd]

theorem value_bool (b : Bool) (fuel : Nat) (rest : Symbols) :
    ∃ sp, value (fuel + 1) (symbolsOf (if b then "true" else "false").toList ++ rest) =
      (bool b sp,rest) := by
  cases b with
  | true =>
    have hb := skipBlanks_cons (c := 't') (by decide) (symbolsOf "rue".toList ++ rest)
    have hw := word_append "rue".toList rest
    have hd : Text.isDigit 't' = false := by decide
    simp at hb hw
    simp [value,hb,hw,hd]
  | false =>
    have hb := skipBlanks_cons (c := 'f') (by decide) (symbolsOf "alse".toList ++ rest)
    have hw := word_append "alse".toList rest
    have hd : Text.isDigit 'f' = false := by decide
    simp at hb hw
    simp [value,hb,hw,hd]

theorem ne_of_isDigit {c : Char} (h : Text.isDigit c = true) :
    c ≠ '"' ∧ c ≠ '[' ∧ c ≠ '\x7b' ∧ c ≠ '-' ∧ c ≠ ']' ∧ isBlank (some c) = false := by
  have hb : isBlank (some c) = true → Text.isDigit c = false := by
    simp only [isBlank,Bool.or_eq_true,decide_eq_true_eq,Option.some.injEq]
    rintro (((rfl | rfl) | rfl) | rfl) <;> decide
  refine ⟨?_,?_,?_,?_,?_,by simpa [h] using mt hb⟩
  all_goals rintro rfl; revert h; decide

theorem value_natural {n : Nat} (hn : n < 0x10000000000000000) (fuel : Nat) {rest : Symbols}
    (hr : EndsNumber rest) :
    ∃ sp, value (fuel + 1) (symbolsOf (Text.ofNat n) ++ rest) = (integer n sp,rest) := by
  have hm := magnitude_ofNat false n hr
  rw [ofDigits_ofNat hn] at hm
  cases ht : Text.ofNat n with
  | nil => exact absurd ht (ofNat_ne_nil n)
  | cons c t =>
    have hc : Text.isDigit c = true := isDigit_of_mem_ofNat (n := n) (by simp [ht])
    obtain ⟨h₁,h₂,h₃,h₄,_,hb⟩ := ne_of_isDigit hc
    have hs := skipBlanks_cons hb (symbolsOf t ++ rest)
    simp only [ht,symbolsOf,List.map_cons,List.cons_append] at hm hs ⊢
    simp [value,hs,h₁,h₂,h₃,h₄,hc,hm,ofMagnitude]

theorem value_negative {n : Nat} (h₀ : 0 < n) (hn : n ≤ 0x8000000000000000) (fuel : Nat)
    {rest : Symbols} (hr : EndsNumber rest) :
    ∃ sp, value (fuel + 1) (some '-' :: symbolsOf (Text.ofNat n) ++ rest) =
      (integer (-n) sp,rest) := by
  have hm := magnitude_ofNat true n hr
  rw [ofDigits_negative h₀ hn] at hm
  have hs := skipBlanks_cons (c := '-') (by decide) (symbolsOf (Text.ofNat n) ++ rest)
  simp only [List.cons_append]
  simp [value,hs,hm,ofMagnitude]

theorem value_ofInt {n : Int} (hn : InRange n) (fuel : Nat) {rest : Symbols}
    (hr : EndsNumber rest) :
    ∃ sp, value (fuel + 1) (symbolsOf (Text.ofInt n) ++ rest) = (integer n sp,rest) := by
  obtain ⟨hl,hu⟩ := hn
  by_cases h : n < 0
  · have hv := value_negative (n := n.natAbs) (by omega) (by omega) fuel hr
    have he : -(n.natAbs : Int) = n := by omega
    rw [he] at hv
    simpa [Text.ofInt,h] using hv
  · have hv := value_natural (n := n.natAbs) (by omega) fuel hr
    have he : (n.natAbs : Int) = n := by omega
    rw [he] at hv
    simpa [Text.ofInt,h] using hv

theorem openItem_close {b : Text} (hb : AllBlank b) (first : Bool) (rest : Symbols) :
    openItem first (symbolsOf b ++ some ']' :: rest) = .close rest := by
  have hs := skipBlanks_cons (c := ']') (by decide) rest
  simp [openItem,skipBlanks_append hb,hs]

theorem openItem_first {b : Text} (hb : AllBlank b) {c : Char}
    (hc : c ≠ ']' ∧ isBlank (some c) = false) (s : Symbols) :
    openItem true (symbolsOf b ++ some c :: s) = .entry (some c :: s) := by
  simp [openItem,skipBlanks_append hb,skipBlanks_cons hc.2,hc.1]

theorem openItem_next {b : Text} (hb : AllBlank b) {c : Char}
    (hc : c ≠ ']' ∧ isBlank (some c) = false) (s : Symbols) :
    openItem false (some ',' :: (symbolsOf b ++ some c :: s)) = .entry (some c :: s) := by
  have hs := skipBlanks_cons (c := ',') (by decide) (symbolsOf b ++ some c :: s)
  simp [openItem,hs,skipBlanks_append hb,skipBlanks_cons hc.2,hc.1]

theorem openMember_close {b : Text} (hb : AllBlank b) (first : Bool) (rest : Symbols) :
    openMember first (symbolsOf b ++ some '\x7d' :: rest) = .close rest := by
  have hs := skipBlanks_cons (c := '\x7d') (by decide) rest
  simp [openMember,skipBlanks_append hb,hs]

theorem openMember_first {b : Text} (hb : AllBlank b) (s : Symbols) :
    openMember true (symbolsOf b ++ some '"' :: s) = .entry (some '"' :: s) := by
  have hs := skipBlanks_cons (c := '"') (by decide) s
  simp [openMember,skipBlanks_append hb,hs]

theorem openMember_next {b : Text} (hb : AllBlank b) (s : Symbols) :
    openMember false (some ',' :: (symbolsOf b ++ some '"' :: s)) = .entry (some '"' :: s) := by
  have hs := skipBlanks_cons (c := ',') (by decide) (symbolsOf b ++ some '"' :: s)
  have hq := skipBlanks_cons (c := '"') (by decide) s
  simp [openMember,hs,skipBlanks_append hb,hq]

end Draft

theorem writeAt_head (layout : Layout) (depth : Nat) (v : Json) (h : Storable v) :
    ∃ c t, writeAt layout depth v = c :: t ∧ c ≠ ']' ∧ Draft.isBlank (some c) = false := by
  cases h with
  | null => exact ⟨'n',"ull".toList,rfl,by decide,by decide⟩
  | bool b =>
    cases b with
    | true => exact ⟨'t',"rue".toList,rfl,by decide,by decide⟩
    | false => exact ⟨'f',"alse".toList,rfl,by decide,by decide⟩
  | @number n h =>
    by_cases hn : n < 0
    · exact ⟨'-',Text.ofNat n.natAbs,by simp [writeAt,Text.ofInt,hn],by decide,by decide⟩
    · cases ht : Text.ofNat n.natAbs with
      | nil => exact absurd ht (Draft.ofNat_ne_nil _)
      | cons c t =>
        have hc := Draft.ne_of_isDigit
          (Draft.isDigit_of_mem_ofNat (n := n.natAbs) (c := c) (by simp [ht]))
        exact ⟨c,t,by simp [writeAt,Text.ofInt,hn,ht],hc.2.2.2.2⟩
  | string t => exact ⟨'"',_,by simp [writeAt,quote]; rfl,by decide,by decide⟩
  | array h => exact ⟨'[',_,by simp [writeAt]; rfl,by decide,by decide⟩
  | object h => exact ⟨'\x7b',_,by simp [writeAt]; rfl,by decide,by decide⟩

namespace Draft

theorem value_append_blanks {b : Text} (hb : AllBlank b) (fuel : Nat) (s : Symbols) :
    value (fuel + 1) (symbolsOf b ++ s) = value (fuel + 1) s := by
  simp only [value,skipBlanks_append hb]

theorem allBlank_tail_colon (layout : Layout) :
    ∃ b, layout.colon = ':' :: b ∧ AllBlank b := by
  cases layout with
  | compact => exact ⟨[],rfl,by intro c hc; simp at hc⟩
  | pretty => exact ⟨[' '],rfl,by intro c hc; simp at hc; subst hc; decide⟩

/-- What is written before the next entry, or before the end: nothing more for the first. -/
def leadItems (layout : Layout) (depth : Nat) (first : Bool) (vs : List Json) : Text :=
  if first then writeItems layout depth vs else moreItems layout depth vs

def leadMembers (layout : Layout) (depth : Nat) (first : Bool) (ms : List (Text × Json)) :
    Text :=
  if first then writeMembers layout depth ms else moreMembers layout depth ms

/-- The comma before an entry that is not the first. -/
def comma (first : Bool) : Text :=
  if first then [] else [',']

theorem leadItems_cons (layout : Layout) (depth : Nat) (first : Bool) (v : Json)
    (vs : List Json) :
    leadItems layout depth first (v :: vs) =
      comma first ++ (layout.lineBreak depth ++ (writeAt layout depth v ++
        moreItems layout depth vs)) := by
  have hw := writeItems_cons layout depth v vs
  rw [List.append_assoc] at hw
  cases first with
  | true => exact hw
  | false => exact congrArg (',' :: ·) hw

theorem leadMembers_cons (layout : Layout) (depth : Nat) (first : Bool) (name : Text) (v : Json)
    (ms : List (Text × Json)) :
    leadMembers layout depth first ((name,v) :: ms) =
      comma first ++ (layout.lineBreak depth ++ (quote name ++ (layout.colon ++
        (writeAt layout depth v ++ moreMembers layout depth ms)))) := by
  have hw := writeMembers_cons layout depth name v ms
  simp only [List.append_assoc] at hw
  cases first with
  | true => exact hw
  | false => exact congrArg (',' :: ·) hw

theorem endsNumber_more {t : Text} (ht : t = [] ∨ ∃ t', t = ',' :: t') {s : Symbols}
    (hs : EndsNumber s) : EndsNumber (symbolsOf t ++ s) := by
  rcases ht with rfl | ⟨t',rfl⟩
  · exact hs
  · exact endsNumber_cons _ (by decide)

theorem moreItems_eq (layout : Layout) (depth : Nat) (vs : List Json) :
    moreItems layout depth vs = [] ∨ ∃ t, moreItems layout depth vs = ',' :: t := by
  cases vs with
  | nil => exact .inl rfl
  | cons v vs => exact .inr ⟨_,rfl⟩

theorem moreMembers_eq (layout : Layout) (depth : Nat) (ms : List (Text × Json)) :
    moreMembers layout depth ms = [] ∨ ∃ t, moreMembers layout depth ms = ',' :: t := by
  cases ms with
  | nil => exact .inl rfl
  | cons m ms => exact .inr ⟨_,rfl⟩

mutual

/-- A value is read from its text, given fuel for as many steps as the text has
characters. -/
theorem value_writeAt (layout : Layout) {v : Json} (hv : Storable v) (depth fuel : Nat)
    {rest : Symbols} (hf : (writeAt layout depth v).length ≤ fuel)
    (hr : EndsNumber rest) :
    ∃ d, value fuel (symbolsOf (writeAt layout depth v) ++ rest) = (d,rest) ∧ d.Says v := by
  obtain ⟨fuel,rfl⟩ : ∃ n, fuel = n + 1 := by
    obtain ⟨c,t,ht,_⟩ := writeAt_head layout depth v hv
    refine ⟨fuel - 1,?_⟩
    simp only [ht,List.length_cons] at hf
    omega
  cases hv with
  | null =>
    obtain ⟨sp,h⟩ := value_null fuel rest
    exact ⟨_,h,.null sp⟩
  | bool b =>
    obtain ⟨sp,h⟩ := value_bool b fuel rest
    exact ⟨_,by cases b <;> simpa [writeAt] using h,.bool b sp⟩
  | number hn =>
    obtain ⟨sp,h⟩ := value_ofInt hn fuel hr
    exact ⟨_,by simpa [writeAt] using h,.integer _ sp⟩
  | string t =>
    obtain ⟨q,hq,hs⟩ := quotation_escape t rest
    refine ⟨_,?_,.string hs⟩
    simpa [writeAt,quote] using value_string fuel hq
  | @array vs hvs =>
    have hl : (writeItems layout (depth + 1) vs).length + 1 ≤ fuel := by
      simp only [writeAt,List.length_append,List.length_cons] at hf
      omega
    obtain ⟨ds,h,hd⟩ := items_writeItems layout hvs (depth + 1) fuel true
      (allBlank_close layout depth vs) rest hl
    obtain ⟨sp,ha⟩ := value_array h
    exact ⟨_,by simpa [writeAt,leadItems] using ha,.array sp hd⟩
  | @object ms hms =>
    have hl : (writeMembers layout (depth + 1) ms).length + 1 ≤ fuel := by
      simp only [writeAt,List.length_append,List.length_cons] at hf
      omega
    obtain ⟨ds,h,hd⟩ := members_writeMembers layout hms (depth + 1) fuel true
      (allBlank_close layout depth ms) rest hl
    obtain ⟨sp,ho⟩ := value_object h
    exact ⟨_,by simpa [writeAt,leadMembers] using ho,.object sp hd⟩

theorem items_writeItems (layout : Layout) {vs : List Json} (hvs : StorableItems vs)
    (depth fuel : Nat) (first : Bool) {b : Text} (hb : AllBlank b) (rest : Symbols)
    (hf : (leadItems layout depth first vs).length + 1 ≤ fuel) :
    ∃ ds, items fuel first (symbolsOf (leadItems layout depth first vs) ++
        (symbolsOf b ++ some ']' :: rest)) = ((ds,none),rest) ∧ SayItems ds vs := by
  obtain ⟨fuel,rfl⟩ : ∃ n, fuel = n + 1 := ⟨fuel - 1,by omega⟩
  cases hvs with
  | nil =>
    have ho := openItem_close hb first rest
    refine ⟨[],?_,.nil⟩
    cases first <;> simp [leadItems,writeItems,moreItems,items,ho]
  | @cons v vs hv hvs =>
    obtain ⟨c,t,ht,hc⟩ := writeAt_head layout depth v hv
    have hend : EndsNumber (symbolsOf (moreItems layout depth vs) ++
        (symbolsOf b ++ some ']' :: rest)) :=
      endsNumber_more (moreItems_eq layout depth vs)
        (endsNumber_of_allBlank hb (endsNumber_cons rest (by decide)))
    rw [leadItems_cons] at hf ⊢
    simp only [List.length_append] at hf
    obtain ⟨d,hd,hs⟩ := value_writeAt layout hv depth fuel (by omega) hend
    obtain ⟨ds,hds,hss⟩ := items_writeItems layout hvs depth fuel false hb rest (by
      simp only [leadItems,Bool.false_eq_true,if_false]
      simp only [ht,List.length_cons] at hf
      omega)
    refine ⟨d :: ds,?_,.cons hs hss⟩
    simp only [leadItems,Bool.false_eq_true,if_false] at hds
    have hl := allBlank_lineBreak layout depth
    let more := symbolsOf (moreItems layout depth vs) ++ (symbolsOf b ++ some ']' :: rest)
    have ho : openItem first (symbolsOf (comma first ++ (layout.lineBreak depth ++
        (writeAt layout depth v ++ moreItems layout depth vs))) ++
        (symbolsOf b ++ some ']' :: rest)) =
        .entry (symbolsOf (writeAt layout depth v) ++ more) := by
      rw [ht]
      cases first with
      | true => simpa [comma,more] using openItem_first hl hc (symbolsOf t ++ more)
      | false => simpa [comma,more] using openItem_next hl hc (symbolsOf t ++ more)
    simp only [items,ho,more,hd,hds]

theorem members_writeMembers (layout : Layout) {ms : List (Text × Json)}
    (hms : StorableMembers ms) (depth fuel : Nat) (first : Bool) {b : Text} (hb : AllBlank b)
    (rest : Symbols) (hf : (leadMembers layout depth first ms).length + 1 ≤ fuel) :
    ∃ ds, members fuel first (symbolsOf (leadMembers layout depth first ms) ++
        (symbolsOf b ++ some '\x7d' :: rest)) = ((ds,none),rest) ∧ SayMembers ds ms := by
  obtain ⟨fuel,rfl⟩ : ∃ n, fuel = n + 1 := ⟨fuel - 1,by omega⟩
  cases hms with
  | nil =>
    have ho := openMember_close hb first rest
    refine ⟨[],?_,.nil⟩
    cases first <;> simp [leadMembers,writeMembers,moreMembers,members,ho]
  | @cons name v ms hv hms =>
    have hend : EndsNumber (symbolsOf (moreMembers layout depth ms) ++
        (symbolsOf b ++ some '\x7d' :: rest)) :=
      endsNumber_more (moreMembers_eq layout depth ms)
        (endsNumber_of_allBlank hb (endsNumber_cons rest (by decide)))
    obtain ⟨c,t,ht,_⟩ := writeAt_head layout depth v hv
    obtain ⟨blanks,hcolon,hbl⟩ := allBlank_tail_colon layout
    rw [leadMembers_cons] at hf ⊢
    simp only [List.length_append,hcolon,List.length_cons] at hf
    obtain ⟨d,hd,hs⟩ := value_writeAt layout hv depth fuel (by omega) hend
    obtain ⟨ds,hds,hss⟩ := members_writeMembers layout hms depth fuel false hb rest (by
      simp only [leadMembers,Bool.false_eq_true,if_false]
      omega)
    simp only [leadMembers,Bool.false_eq_true,if_false] at hds
    let more := symbolsOf (moreMembers layout depth ms) ++ (symbolsOf b ++ some '\x7d' :: rest)
    obtain ⟨q,hq,hsaid⟩ := quotation_escape name
      (some ':' :: (symbolsOf blanks ++ (symbolsOf (writeAt layout depth v) ++ more)))
    refine ⟨(q,d) :: ds,?_,.cons hsaid hs hss⟩
    have hl := allBlank_lineBreak layout depth
    have ho : openMember first (symbolsOf (comma first ++ (layout.lineBreak depth ++
        (quote name ++ (layout.colon ++ (writeAt layout depth v ++
          moreMembers layout depth ms))))) ++ (symbolsOf b ++ some '\x7d' :: rest)) =
        .entry (some '"' :: (symbolsOf (name.flatMap escape) ++ some '"' :: some ':' ::
          (symbolsOf blanks ++ (symbolsOf (writeAt layout depth v) ++ more)))) := by
      rw [hcolon]
      cases first with
      | true => simpa [comma,quote,more] using openMember_first hl _
      | false => simpa [comma,quote,more] using openMember_next hl _
    have hcol := skipBlanks_cons (c := ':') (by decide)
      (symbolsOf blanks ++ (symbolsOf (writeAt layout depth v) ++ more))
    obtain ⟨fuel,rfl⟩ : ∃ n, fuel = n + 1 := by
      refine ⟨fuel - 1,?_⟩
      simp only [ht,List.length_cons] at hf
      omega
    have hval := value_append_blanks hbl fuel (symbolsOf (writeAt layout depth v) ++ more)
    rw [members,ho]
    simp only [hq,hcol,hval,more,hd,hds]

end

/-- A document that has been written is read to its end. -/
theorem ofSymbols_writeAt (layout : Layout) {v : Json} (hv : Storable v) :
    ∃ d, ofSymbols (symbolsOf (writeAt layout 0 v)) = (d,[]) ∧ d.Says v := by
  have hl : (writeAt layout 0 v).length ≤ (symbolsOf (writeAt layout 0 v)).length + 2 := by
    simp only [symbolsOf,List.length_map]
    omega
  have h := value_writeAt layout hv 0 _ hl endsNumber_nil
  simpa [ofSymbols] using h

end Draft
end Realm.Json
