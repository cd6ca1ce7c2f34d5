import Realm.Text.Utf8

/-! Texts that are cut at an offset in bytes. Between which characters an offset lies is told by
the bytes themselves: it is the end, or the byte behind it is not one that goes on with a character.
So the longest beginning of whole characters is found by going back from the offset to such a byte,
and cutting there leaves bytes that are text. -/
namespace Realm.Text

/-- Whether an offset in bytes lies between two characters or at an end. -/
def IsBoundary (n : Nat) (t : Text) : Prop :=
  byteSize (takeBytes n t) = n

instance (n : Nat) (t : Text) : Decidable (IsBoundary n t) :=
  inferInstanceAs (Decidable (_ = _))

/-- The text between two offsets in bytes. There is none where one of them is beyond the end or
inside of a character. -/
def slice? (start stop : Nat) (t : Text) : Option Text :=
  if start ≤ stop ∧ IsBoundary start t ∧ IsBoundary stop t then
    some (takeBytes (stop - start) (dropBytes start t))
  else none

@[simp] theorem takeBytes_append (a b : Text) : takeBytes (byteSize a) (a ++ b) = a := by
  induction a with
  | nil =>
    cases b with
    | nil => rfl
    | cons c b => exact if_neg (Nat.not_le_of_gt c.utf8Size_pos)
  | cons c a ih => simp [takeBytes,ih]

@[simp] theorem dropBytes_append (a b : Text) : dropBytes (byteSize a) (a ++ b) = b := by
  have hsplit := takeBytes_append_dropBytes (byteSize a) (a ++ b)
  rw [takeBytes_append] at hsplit
  exact List.append_cancel_left hsplit

theorem isBoundary_append (a b : Text) : IsBoundary (byteSize a) (a ++ b) := by
  rw [IsBoundary,takeBytes_append]

@[simp] theorem slice?_append (a piece b : Text) :
    slice? (byteSize a) (byteSize a + byteSize piece) (a ++ (piece ++ b)) = some piece := by
  have hstop := isBoundary_append (a ++ piece) b
  rw [byteSize_append,List.append_assoc] at hstop
  rw [slice?,if_pos ⟨Nat.le_add_right _ _,isBoundary_append _ _,hstop⟩,dropBytes_append,
    Nat.add_sub_cancel_left,takeBytes_append]

variable {m n : Nat} {c : Char} {t p : Text}

/-- The longest beginning that fits is the one that all others that fit begin. -/
theorem prefix_takeBytes_iff : p <+: takeBytes n t ↔ p <+: t ∧ byteSize p ≤ n := by
  induction t generalizing n p with
  | nil =>
    rw [takeBytes,List.prefix_nil,iff_self_and]
    rintro rfl
    exact Nat.zero_le n
  | cons c t ih =>
    cases p with
    | nil => simp
    | cons d p =>
      rw [takeBytes,List.cons_prefix_cons,byteSize_cons]
      split
      · next hfits =>
        rw [List.cons_prefix_cons,ih,and_assoc]
        refine and_congr_right ?_
        rintro rfl
        exact and_congr_right fun _ => by omega
      · next hfits =>
        refine ⟨fun h => absurd (List.prefix_nil.1 h) (List.cons_ne_nil d p),?_⟩
        rintro ⟨⟨rfl,-⟩,hsize⟩
        omega

theorem byteSize_dropBytes (n : Nat) (t : Text) :
    byteSize (dropBytes n t) = byteSize t - byteSize (takeBytes n t) := by
  have hsplit := congrArg byteSize (takeBytes_append_dropBytes n t)
  rw [byteSize_append] at hsplit
  omega

/-- A lower limit that the longest beginning keeps to makes no difference to it. -/
theorem takeBytes_eq_of_le (hm : byteSize (takeBytes n t) ≤ m) (hn : m ≤ n) :
    takeBytes m t = takeBytes n t := by
  have hlower := takeBytes_prefix m t
  have hupper := takeBytes_prefix n t
  have hsize := byteSize_takeBytes_le m t
  have hup := prefix_takeBytes_iff.2 ⟨hlower,Nat.le_trans hsize hn⟩
  have hdown := prefix_takeBytes_iff.2 ⟨hupper,hm⟩
  exact hup.eq_of_length_le hdown.length_le

theorem takeBytes_zero (t : Text) : takeBytes 0 t = [] :=
  takeBytes_append [] t

theorem isBoundary_zero (t : Text) : IsBoundary 0 t :=
  isBoundary_append [] t

theorem isBoundary_nil : IsBoundary n [] ↔ n = 0 := by
  rw [IsBoundary,takeBytes,byteSize_nil,eq_comm]

theorem not_isBoundary_inside (h : n + 1 < c.utf8Size) : ¬ IsBoundary (n + 1) (c :: t) := by
  rw [IsBoundary,takeBytes,if_neg (Nat.not_le_of_gt h),byteSize_nil]
  exact (Nat.succ_ne_zero n).symm

theorem isBoundary_behind (h : c.utf8Size ≤ n) :
    IsBoundary n (c :: t) ↔ IsBoundary (n - c.utf8Size) t := by
  rw [IsBoundary,IsBoundary,takeBytes,if_pos h,byteSize_cons]
  omega

def isContinuation (b : UInt8) : Bool :=
  0x80 ≤ b && b < 0xC0

/-- Whether a character begins at an offset or the bytes end there, as the byte behind the offset
tells. -/
def beginsAt (bytes : Bytes) (n : Nat) : Bool :=
  match bytes[n]? with
  | some b => !isContinuation b
  | none => n == bytes.length

/-- The last offset up to `n` at which a character begins or the bytes end. -/
def lastBegin (bytes : Bytes) : Nat → Nat
  | 0 => 0
  | n + 1 => if beginsAt bytes (n + 1) then n + 1 else lastBegin bytes n

/-- The text in the first `n` bytes. There is none where they are no text, or where the cut goes
through a character. -/
def before? (bytes : Bytes) (n : Nat) : Option Text :=
  if beginsAt bytes n then decode? (bytes.take n) else none

theorem encode_append (s t : Text) : encode (s ++ t) = encode s ++ encode t :=
  List.flatMap_append

theorem length_encodeChar (c : Char) : (encodeChar c).length = c.utf8Size := by
  simp only [encodeChar,Char.utf8Size,UInt32.le_iff_toNat_le,Char.toNat]
  grind

theorem length_encode (t : Text) : (encode t).length = byteSize t := by
  induction t with
  | nil => rfl
  | cons c t ih => rw [byteSize_cons,← ih,← length_encodeChar,← List.length_append]; rfl

theorem isContinuation_ofNat {x : Nat} (h : x < 0x100) :
    isContinuation (UInt8.ofNat x) = (decide (0x80 ≤ x) && decide (x < 0xC0)) := by
  simp [isContinuation,UInt8.le_iff_toNat_le,UInt8.lt_iff_toNat_lt,Nat.mod_eq_of_lt h]

theorem encodeChar_begins (c : Char) :
    ∃ b tail, encodeChar c = b :: tail ∧ isContinuation b = false ∧
      ∀ x ∈ tail, isContinuation x = true := by
  have hc := toNat_lt c
  have htail (k : Nat) : isContinuation (UInt8.ofNat (0x80 + c.toNat / k % 64)) = true := by
    rw [isContinuation_ofNat (by omega)]
    simp only [Bool.and_eq_true,decide_eq_true_eq]
    omega
  have hfirst {x : Nat} (hx : x < 0x80 ∨ 0xC0 ≤ x ∧ x < 0x100) :
      isContinuation (UInt8.ofNat x) = false := by
    rw [isContinuation_ofNat (by omega)]
    simp only [Bool.and_eq_false_iff,decide_eq_false_iff_not]
    omega
  rw [encodeChar]
  dsimp only
  split
  · exact ⟨_,_,rfl,hfirst (by omega),List.forall_mem_nil _⟩
  have hone := List.forall_mem_singleton (p := (isContinuation · = true)).2 (htail 1)
  have htwo := (List.forall_mem_cons (p := (isContinuation · = true))).2 ⟨htail 0x40,hone⟩
  have hthree := (List.forall_mem_cons (p := (isContinuation · = true))).2 ⟨htail 0x1000,htwo⟩
  split
  · exact ⟨_,_,rfl,hfirst (by omega),hone⟩
  split
  · exact ⟨_,_,rfl,hfirst (by omega),htwo⟩
  · exact ⟨_,_,rfl,hfirst (by omega),hthree⟩

theorem beginsAt_append (a b : Bytes) (h : a.length ≤ n) :
    beginsAt (a ++ b) n = beginsAt b (n - a.length) := by
  rw [beginsAt,beginsAt,List.getElem?_append_right h,List.length_append]
  have hend : (n == a.length + b.length) = (n - a.length == b.length) := by grind
  rw [hend]

theorem beginsAt_encode (t : Text) (n : Nat) : beginsAt (encode t) n = true ↔ IsBoundary n t := by
  induction t generalizing n with
  | nil => simp [beginsAt,encode,isBoundary_nil]
  | cons c t ih =>
    have hlength := length_encodeChar c
    have hcons : encode (c :: t) = encodeChar c ++ encode t := rfl
    by_cases hn : n < c.utf8Size
    · obtain ⟨b,tail,heq,hfirst,htail⟩ := encodeChar_begins c
      rw [hcons,beginsAt,List.getElem?_append_left (by omega),heq]
      rw [heq,List.length_cons] at hlength
      cases n with
      | zero => simp [hfirst,isBoundary_zero]
      | succ n =>
        have hbyte : n < tail.length := by omega
        simp [hbyte,htail _ (List.getElem_mem hbyte),not_isBoundary_inside hn]
    · rw [hcons,beginsAt_append _ _ (by omega),ih,hlength,isBoundary_behind (by omega)]

/-- Going back from an offset ends where the longest beginning of whole characters does. -/
theorem lastBegin_encode (t : Text) (n : Nat) :
    lastBegin (encode t) n = byteSize (takeBytes n t) := by
  induction n with
  | zero => rw [takeBytes_zero]; rfl
  | succ n ih =>
    rw [lastBegin]
    split
    · next h => exact ((beginsAt_encode t _).1 h).symm
    · next h =>
      rw [beginsAt_encode,IsBoundary] at h
      have hle := byteSize_takeBytes_le (n + 1) t
      rw [ih,takeBytes_eq_of_le (n := n + 1) (by omega) (by omega)]

theorem take_encode (h : IsBoundary n t) : (encode t).take n = encode (takeBytes n t) := by
  have hsplit := congrArg encode (takeBytes_append_dropBytes n t)
  rw [encode_append] at hsplit
  rw [← hsplit]
  exact List.take_left' ((length_encode _).trans h)

theorem before?_encode (h : IsBoundary n t) : before? (encode t) n = some (takeBytes n t) := by
  rw [before?,if_pos ((beginsAt_encode t n).2 h),take_encode h,decode?_encode]

theorem before?_takeBytes (n : Nat) (t : Text) :
    before? (encode t) (byteSize (takeBytes n t)) = some (takeBytes n t) := by
  have hcut := takeBytes_append (takeBytes n t) (dropBytes n t)
  rw [takeBytes_append_dropBytes] at hcut
  have hboundary : IsBoundary (byteSize (takeBytes n t)) t := congrArg byteSize hcut
  rw [before?_encode hboundary,hcut]

end Realm.Text
