/-! Text as a list of characters. Offsets and lengths shown to users are counted in
bytes of UTF-8, so each cut has a byte count beside it; every operation below is a
recursion on the list, and what it keeps of its input is stated right under it. -/
namespace Realm

/-- A piece of text: its Unicode scalar values in order. -/
abbrev Text := List Char

namespace Text

def byteSize : Text → Nat
  | [] => 0
  | c :: t => c.utf8Size + byteSize t

@[simp] theorem byteSize_nil : byteSize [] = 0 := rfl

@[simp] theorem byteSize_cons (c : Char) (t : Text) :
    byteSize (c :: t) = c.utf8Size + byteSize t := rfl

@[simp] theorem byteSize_append (s t : Text) : byteSize (s ++ t) = byteSize s + byteSize t := by
  induction s with
  | nil => simp
  | cons c s ih => simp [ih,Nat.add_assoc]

/-- The longest prefix of whole characters that fits into `n` bytes. -/
def takeBytes : Nat → Text → Text
  | _, [] => []
  | n, c :: t => if c.utf8Size ≤ n then c :: takeBytes (n - c.utf8Size) t else []

theorem byteSize_takeBytes_le (n : Nat) (t : Text) : byteSize (takeBytes n t) ≤ n := by
  induction t generalizing n with
  | nil => simp [takeBytes]
  | cons c t ih =>
    simp only [takeBytes]
    split
    · have := ih (n - c.utf8Size)
      simp only [byteSize_cons]
      omega
    · simp

theorem takeBytes_prefix (n : Nat) (t : Text) : takeBytes n t <+: t := by
  induction t generalizing n with
  | nil => simp [takeBytes]
  | cons c t ih =>
    simp only [takeBytes]
    split
    · exact (List.prefix_cons_inj c).2 (ih _)
    · exact List.nil_prefix

def dropBytes : Nat → Text → Text
  | _, [] => []
  | n, c :: t => if c.utf8Size ≤ n then dropBytes (n - c.utf8Size) t else c :: t

@[simp] theorem takeBytes_append_dropBytes (n : Nat) (t : Text) :
    takeBytes n t ++ dropBytes n t = t := by
  induction t generalizing n with
  | nil => rfl
  | cons c t ih =>
    simp only [takeBytes,dropBytes]
    split
    · simp [ih]
    · rfl

/-- Split at every separator; the pieces between them may be empty. -/
def splitWhere (isSeparator : Char → Bool) : Text → List Text
  | [] => [[]]
  | c :: t =>
    match splitWhere isSeparator t with
    | [] => [[c]]
    | piece :: pieces =>
      if isSeparator c then [] :: piece :: pieces else (c :: piece) :: pieces

theorem splitWhere_ne_nil (p : Char → Bool) (t : Text) : splitWhere p t ≠ [] := by
  cases t with
  | nil => simp [splitWhere]
  | cons c t =>
    simp only [splitWhere]
    split
    · simp
    · split <;> simp

theorem splitWhere_eq_singleton {p : Char → Bool} {s : Text} (h : ∀ c ∈ s, p c = false) :
    splitWhere p s = [s] := by
  induction s with
  | nil => rfl
  | cons c s ih =>
    obtain ⟨hc,hs⟩ := List.forall_mem_cons.1 h
    simp [splitWhere,hc,ih hs]

theorem splitWhere_append {p : Char → Bool} {c : Char} (hc : p c = true) (s t : Text) :
    splitWhere p (s ++ c :: t) = splitWhere p s ++ splitWhere p t := by
  induction s with
  | nil =>
    obtain ⟨piece,pieces,hp⟩ := List.exists_cons_of_ne_nil (splitWhere_ne_nil p t)
    simp [splitWhere,hp,hc]
  | cons d s ih =>
    obtain ⟨piece,pieces,hp⟩ := List.exists_cons_of_ne_nil (splitWhere_ne_nil p s)
    simp only [List.cons_append,splitWhere,ih,hp]
    split <;> rfl

theorem subset_of_mem_splitWhere {p : Char → Bool} {t x : Text} (h : x ∈ splitWhere p t) :
    x ⊆ t := by
  induction t generalizing x with
  | nil =>
    obtain rfl := List.mem_singleton.1 h
    exact List.nil_subset _
  | cons c t ih =>
    obtain ⟨piece,pieces,hp⟩ := List.exists_cons_of_ne_nil (splitWhere_ne_nil p t)
    rw [hp] at ih
    obtain ⟨hpiece,hpieces⟩ := List.forall_mem_cons.1 fun x => ih (x := x)
    simp only [splitWhere,hp] at h
    split at h
    · rcases List.mem_cons.1 h with rfl | h
      · exact List.nil_subset _
      · exact List.subset_cons_of_subset _ (ih h)
    · rcases List.mem_cons.1 h with rfl | h
      · exact List.cons_subset_cons c hpiece
      · exact List.subset_cons_of_subset _ (hpieces x h)

def splitOn (separator : Char) (t : Text) : List Text :=
  splitWhere (· == separator) t

/-- The text before and after the first occurrence of a character. -/
def splitFirst? (separator : Char) : Text → Option (Text × Text)
  | [] => none
  | c :: t =>
    if c = separator then some ([],t)
    else (splitFirst? separator t).map fun r => (c :: r.1,r.2)

theorem eq_of_splitFirst? {separator : Char} {t a b : Text}
    (h : splitFirst? separator t = some (a,b)) : t = a ++ separator :: b := by
  induction t generalizing a with
  | nil => simp [splitFirst?] at h
  | cons c t ih =>
    simp only [splitFirst?] at h
    split at h
    · next hc => simp_all
    · obtain ⟨⟨x,y⟩,hx,he⟩ := Option.map_eq_some_iff.1 h
      cases he
      simp [ih hx]

def splitLast? (separator : Char) : Text → Option (Text × Text)
  | [] => none
  | c :: t =>
    match splitLast? separator t with
    | some (a,b) => some (c :: a,b)
    | none => if c = separator then some ([],t) else none

theorem eq_of_splitLast? {separator : Char} {t a b : Text}
    (h : splitLast? separator t = some (a,b)) : t = a ++ separator :: b := by
  induction t generalizing a b with
  | nil => simp [splitLast?] at h
  | cons c t ih =>
    simp only [splitLast?] at h
    split at h
    · next x y hx => cases h; simp [ih hx]
    · split at h
      · next hc => cases h; simp [hc]
      · simp at h

def stripPrefix? : Text → Text → Option Text
  | [], t => some t
  | _ :: _, [] => none
  | p :: ps, c :: t => if p = c then stripPrefix? ps t else none

@[simp] theorem stripPrefix?_eq_some_iff {p t r : Text} :
    stripPrefix? p t = some r ↔ t = p ++ r := by
  induction p generalizing t with
  | nil => simp [stripPrefix?,eq_comm]
  | cons c p ih =>
    cases t with
    | nil => simp [stripPrefix?]
    | cons d t =>
      simp only [stripPrefix?]
      split
      · next h => simp [ih,h]
      · next h => simp [Ne.symm h]

def startsWith (p t : Text) : Bool :=
  (stripPrefix? p t).isSome

def cut? (needle : Text) : Text → Option (Text × Text)
  | [] => if needle = [] then some ([],[]) else none
  | c :: t =>
    match stripPrefix? needle (c :: t) with
    | some rest => some ([],rest)
    | none => (cut? needle t).map fun r => (c :: r.1,r.2)

theorem eq_of_cut? {needle t a b : Text} (h : cut? needle t = some (a,b)) :
    t = a ++ needle ++ b := by
  induction t generalizing a with
  | nil => simp only [cut?] at h; split at h <;> simp_all
  | cons c t ih =>
    simp only [cut?] at h
    split at h
    · next rest hr => cases h; simpa using stripPrefix?_eq_some_iff.1 hr
    · obtain ⟨⟨x,y⟩,hx,he⟩ := Option.map_eq_some_iff.1 h
      cases he
      simp [ih hx]

def contains (needle t : Text) : Bool :=
  (cut? needle t).isSome

def replaceFirst (needle new t : Text) : Text :=
  match cut? needle t with
  | some (a,b) => a ++ new ++ b
  | none => t

/-- Scan for a nonempty `needle`, writing `new` for each occurrence found from left to
right; `skip` characters of the occurrence found last are still to be passed over. -/
def replaceFrom (needle new : Text) : Nat → Text → Text
  | _, [] => []
  | skip + 1, _ :: t => replaceFrom needle new skip t
  | 0, c :: t =>
    if startsWith needle (c :: t) then new ++ replaceFrom needle new (needle.length - 1) t
    else c :: replaceFrom needle new 0 t

/-- Replace every occurrence of a nonempty `needle`, none overlapping another. -/
def replaceAll (needle new t : Text) : Text :=
  replaceFrom needle new 0 t

def join (separator : Text) (pieces : List Text) : Text :=
  separator.intercalate pieces

def ofNat (n : Nat) : Text :=
  Nat.toDigits 10 n

/-- Decimal digits of an integer, with its sign if it is negative. -/
def ofInt (n : Int) : Text :=
  if n < 0 then '-' :: ofNat n.natAbs else ofNat n.natAbs

def isDigit (c : Char) : Bool :=
  '0' ≤ c && c ≤ '9'

def digitsValue (t : Text) : Nat :=
  t.foldl (fun n c => 10 * n + (c.toNat - '0'.toNat)) 0

/-- Read a nonempty string of ASCII digits as a number of at most 64 bits. -/
def natural? (t : Text) : Option Nat :=
  if t.isEmpty || !t.all isDigit then none
  else if digitsValue t < 0x10000000000000000 then some (digitsValue t) else none

end Text
end Realm
