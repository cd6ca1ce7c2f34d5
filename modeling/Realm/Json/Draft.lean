import Realm.Json.Fault
import Realm.Text.Utf8

/-! Documents as they are written. Reading a document makes a draft of it, in which the
flaws stand where they lie; only who looks at a draft, and in what order, decides which
flaw is met first. What follows a place that cannot be read is not in the draft. Places are
given by the bytes that are left behind them. -/
namespace Realm.Json

/-- The characters of a document, none in place of a byte that is no character. -/
abbrev Symbols := List (Option Char)

namespace Draft

def symbolSize (c : Option Char) : Nat :=
  (c.map Char.utf8Size).getD 1

def sizeInBytes : Symbols → Nat
  | [] => 0
  | c :: s => symbolSize c + sizeInBytes s

/-- Something wrong, and how many bytes are left behind the place where it is noticed. -/
structure Flaw where
  reason : Reason
  rest : Nat

/-- A flaw that is noticed before some symbols. -/
def before (s : Symbols) (reason : Reason) : Flaw :=
  ⟨reason,sizeInBytes s⟩

def behind (s : Symbols) (reason : Reason) : Flaw :=
  ⟨reason,sizeInBytes s - 1⟩

/-- What keeps something from being read to its end: for who asks for its value, for who
only passes over it, and for who expects it to end there. -/
structure Obstacle where
  asked : Flaw
  skimmed : Flaw
  closing : Flaw

/-- An obstacle that is the same for everyone. -/
def Obstacle.of (f : Flaw) : Obstacle :=
  ⟨f,f,f⟩

/-- Where something begins and ends, and where reading would go on if an object ended
behind it. -/
structure Span where
  start : Nat
  stop : Nat
  next : Nat

structure Quotation where
  /-- What it says, or the first flaw on the way to its end. -/
  value : Except Flaw Text
  /-- What keeps its end from being found, whatever it may say. -/
  obstacle : Option Flaw
  span : Span

end Draft

open Draft (Flaw Obstacle Quotation Span)

inductive Draft where
  /-- A place that is no value. -/
  | broken (obstacle : Obstacle) (span : Span)
  | null (span : Span)
  | bool (b : Bool) (span : Span)
  /-- An integer of 64 bits. -/
  | integer (n : Int) (span : Span)
  /-- Any other number, and whether there is a number of double precision near it. -/
  | real (spelling : Text) (inRange : Bool) (span : Span)
  | string (s : Quotation)
  /-- Items, and what keeps the end of the array from being found behind them. -/
  | array (items : List Draft) (obstacle : Option Obstacle) (span : Span)
  | object (members : List (Quotation × Draft)) (obstacle : Option Obstacle) (span : Span)

namespace Draft

def span : Draft → Span
  | broken _ s | null s | bool _ s | integer _ s | real _ _ s | array _ _ s | object _ _ s => s
  | string q => q.span

/-! Blanks. -/

def isBlank (c : Option Char) : Bool :=
  c = some ' ' || c = some '\n' || c = some '\t' || c = some '\r'

def skipBlanks (s : Symbols) : Symbols :=
  s.dropWhile isBlank

def spanOf (start stop : Symbols) : Span where
  start := sizeInBytes start
  stop := sizeInBytes stop
  next :=
    match skipBlanks stop with
    | some '\x7d' :: s => sizeInBytes s
    | s => sizeInBytes s

/-! Strings. -/

inductive Piece where
  | char (c : Char)
  /-- A byte that is no character. -/
  | byte
  /-- A unit of 16 bits from its number in hexadecimal digits, and what follows it. -/
  | unit (n : Nat) (tail : Symbols)

def hexValue? (c : Char) : Option Nat :=
  if '0' ≤ c ∧ c ≤ '9' then some (c.toNat - '0'.toNat)
  else if 'a' ≤ c ∧ c ≤ 'f' then some (c.toNat - 'a'.toNat + 10)
  else if 'A' ≤ c ∧ c ≤ 'F' then some (c.toNat - 'A'.toNat + 10)
  else none

def hexValues? (digits : Symbols) : Option Nat :=
  digits.foldlM (fun n c => (c.bind hexValue?).map (16 * n + ·)) 0

def unescape? (letter : Char) : Option Char :=
  [('"','"'),('\\','\\'),('/','/'),('b','\x08'),('f','\x0c'),('n','\n'),('r','\r'),
    ('t','\t')].lookup letter

/-- The pieces of a string after its opening quote, what keeps its end from being found,
and what follows it. -/
def pieces : Symbols → List Piece × Option Obstacle × Symbols
  | [] => ([],some (.of ⟨.endOfString,0⟩),[])
  | none :: s =>
    let (ps,rest) := pieces s
    (.byte :: ps,rest)
  | some c :: s =>
    if c = '"' then ([],none,s)
    else if c = '\\' then
      match s with
      | [] => ([],some (.of ⟨.endOfString,0⟩),[])
      | none :: s => ([],some (.of (before s .invalidEscape)),[])
      | some letter :: s =>
        if letter = 'u' then
          match s with
          | d₀ :: d₁ :: d₂ :: d₃ :: s' =>
            match hexValues? [d₀,d₁,d₂,d₃] with
            | some n =>
              let (ps,rest) := pieces s'
              (.unit n s' :: ps,rest)
            | none => ([],some (.of ⟨.invalidEscape,sizeInBytes s - 4⟩),[])
          | s =>
            ([],some (.of
              (if sizeInBytes s < 4 then ⟨.endOfString,0⟩
              else ⟨.invalidEscape,sizeInBytes s - 4⟩)),[])
        else
          match unescape? letter with
          | some c =>
            let (ps,rest) := pieces s
            (.char c :: ps,rest)
          | none =>
            ([],some (.of (behind (some letter :: s) .invalidEscape)),[])
    else if c.toNat < 0x20 then
      let asked := before s .controlCharacter
      ([],some ⟨asked,before (some c :: s) .controlCharacter,asked⟩,[])
    else
      let (ps,rest) := pieces s
      (.char c :: ps,rest)

/-- What is wrong where the second half of a character should follow, if there is no escape
of such a unit. -/
def lacksUnit (tail : Symbols) : Option Flaw :=
  match tail with
  | [] => some ⟨.endOfString,0⟩
  | some '\\' :: s =>
    match s with
    | [] => some ⟨.endOfString,0⟩
    | some 'u' :: _ => none
    | s => some (behind s .unfinishedUnit)
  | s => some (behind s .unfinishedUnit)

/-- The text that pieces make. Of two units that stand for one character neither may be
missing; bytes that are no character are noticed when the end has been found. -/
def assemble (obstacle : Option Obstacle) (stop : Nat) : List Piece → Except Flaw Text
  | [] =>
    match obstacle with
    | some o => .error o.asked
    | none => .ok []
  | .char c :: ps => (assemble obstacle stop ps).map (c :: ·)
  | .byte :: ps =>
    match assemble obstacle stop ps with
    | .error flaw => .error flaw
    | .ok _ => .error ⟨.invalidText,stop⟩
  | .unit n tail :: ps =>
    if n < 0xD800 ∨ 0xDFFF < n then (assemble obstacle stop ps).map (Char.ofNat n :: ·)
    else if 0xDC00 ≤ n then .error (before tail .loneUnit)
    else
      match lacksUnit tail with
      | some flaw => .error flaw
      | none =>
        match ps with
        | .unit m tail' :: ps =>
          if 0xDC00 ≤ m ∧ m ≤ 0xDFFF then
            (assemble obstacle stop ps).map
              (Char.ofNat (0x10000 + (n - 0xD800) * 0x400 + (m - 0xDC00)) :: ·)
          else .error (before tail' .loneUnit)
        | ps => (assemble obstacle stop ps).map (Char.ofNat n :: ·)

def quotation (s : Symbols) : Quotation × Symbols :=
  let (ps,obstacle,rest) := pieces s
  (⟨assemble obstacle (sizeInBytes rest) ps,obstacle.map (·.skimmed),
    spanOf (some '"' :: s) rest⟩,rest)

/-! Numbers. -/

/-- The digits at the front, and what follows them. -/
def digits : Symbols → Text × Symbols
  | some c :: s =>
    if Text.isDigit c then
      let (ds,rest) := digits s
      (c :: ds,rest)
    else ([],some c :: s)
  | s => ([],s)

/-- Whether `m` times the power `e` of ten is less than what is rounded up to infinity. -/
def isFinite (m : Nat) (e : Int) : Bool :=
  let size := (Text.ofNat m).length + e
  let limit := Nat.pow 2 1024 - Nat.pow 2 970
  if m = 0 ∨ size < 300 then true
  else if 320 < size then false
  else if e < 0 then m < limit * Nat.pow 10 e.natAbs
  else m * Nat.pow 10 e.natAbs < limit

inductive Magnitude where
  | integer (n : Int)
  | real (spelling : Text) (inRange : Bool)
  | broken (obstacle : Obstacle)

def unfinished : Symbols → Magnitude × Symbols
  | [] =>
    (.broken ⟨⟨.endOfValue,0⟩,⟨.invalidNumber,0⟩,⟨.endOfValue,0⟩⟩,[])
  | s => (.broken (.of (behind s .invalidNumber)),[])

/-- A number from its sign, the digits before and behind the point, and the exponent. -/
def decimal (negative : Bool) (whole fraction : Text) (exponent : Int) : Magnitude :=
  let spelling :=
    (if negative then ['-'] else []) ++ whole ++
      (if fraction.isEmpty then [] else '.' :: fraction) ++
      (if exponent = 0 then [] else 'e' :: Text.ofInt exponent)
  .real spelling (isFinite (Text.digitsValue (whole ++ fraction)) (exponent - fraction.length))

def exponent (negative : Bool) (whole fraction : Text) (s : Symbols) : Magnitude × Symbols :=
  match s with
  | some c :: s' =>
    if c = 'e' ∨ c = 'E' then
      let (down,s) :=
        match s' with
        | some '-' :: s => (true,s)
        | some '+' :: s => (false,s)
        | s => (false,s)
      match digits s with
      | ([],s) => unfinished s
      | (ds,s) =>
        let e : Int := Text.digitsValue ds
        (decimal negative whole fraction (if down then -e else e),s)
    else (decimal negative whole fraction 0,s)
  | s => (decimal negative whole fraction 0,s)

def ofDigits (negative : Bool) (whole : Text) : Magnitude :=
  let n := Text.digitsValue whole
  if negative then
    if 0 < n ∧ n ≤ 0x8000000000000000 then .integer (-n) else decimal true whole [] 0
  else if n < 0x10000000000000000 then .integer n
  else decimal false whole [] 0

def magnitude (negative : Bool) (s : Symbols) : Magnitude × Symbols :=
  match digits s with
  | ([],s) => unfinished s
  | ('0' :: _ :: _,_) => (.broken (.of ⟨.invalidNumber,sizeInBytes s - 2⟩),[])
  | (whole,s) =>
    match s with
    | some '.' :: s =>
      match digits s with
      | ([],s) => unfinished s
      | (fraction,s) => exponent negative whole fraction s
    | some 'e' :: _ | some 'E' :: _ => exponent negative whole [] s
    | s => (ofDigits negative whole,s)

def ofMagnitude (span : Span) : Magnitude → Draft
  | .integer n => integer n span
  | .real spelling inRange => real spelling inRange span
  | .broken obstacle => broken obstacle span

/-! Values. -/

def word : Text → Symbols → Option Obstacle × Symbols
  | [], s => (none,s)
  | _ :: _, [] => (some (.of ⟨.endOfValue,0⟩),[])
  | c :: cs, c' :: s =>
    if some c = c' then word cs s
    else (some (.of (behind (c' :: s) .wordExpected)),[])

/-- What is read in place of an entry: the end, an obstacle, or the beginning of an entry.
An entry follows a comma, unless it is the first. -/
inductive Opening where
  | close (rest : Symbols)
  | obstacle (o : Obstacle)
  | entry (rest : Symbols)

def openItem (first : Bool) (s : Symbols) : Opening :=
  match skipBlanks s with
  | [] => .obstacle (.of ⟨.endOfArray,0⟩)
  | c :: s =>
    if c = some ']' then .close s
    else if first then .entry (c :: s)
    else if c = some ',' then
      match skipBlanks s with
      | [] => .obstacle ⟨⟨.endOfValue,0⟩,⟨.endOfValue,0⟩,⟨.trailingText,0⟩⟩
      | c :: s =>
        if c = some ']' then
          let comma := behind (c :: s) .trailingComma
          .obstacle ⟨comma,behind (c :: s) .valueExpected,comma⟩
        else .entry (c :: s)
    else
      let missing := behind (c :: s) .itemEndExpected
      .obstacle ⟨missing,missing,behind (c :: s) .trailingText⟩

def openMember (first : Bool) (s : Symbols) : Opening :=
  match skipBlanks s with
  | [] => .obstacle (.of ⟨.endOfObject,0⟩)
  | c :: s =>
    if c = some '\x7d' then .close s
    else if first then .entry (c :: s)
    else if c = some ',' then
      match skipBlanks s with
      | [] => .obstacle ⟨⟨.endOfValue,0⟩,⟨.endOfObject,0⟩,⟨.endOfValue,0⟩⟩
      | c :: s =>
        if c = some '\x7d' then
          let comma := behind (c :: s) .trailingComma
          .obstacle ⟨comma,behind (c :: s) .nameExpected,comma⟩
        else .entry (c :: s)
    else .obstacle (.of (behind (c :: s) .memberEndExpected))

mutual

/-- Read a value. The fuel need only exceed the length of what is read. -/
def value : Nat → Symbols → Draft × Symbols
  | 0, s => (broken (.of (before s .valueExpected)) (spanOf s []),[])
  | fuel + 1, s =>
    let all := skipBlanks s
    match all with
    | [] => (broken (.of ⟨.endOfValue,0⟩) (spanOf all []),[])
    | none :: _ => (broken (.of (behind all .valueExpected)) (spanOf all []),[])
    | some c :: s =>
      let number (m : Magnitude × Symbols) : Draft × Symbols :=
        (ofMagnitude (spanOf all m.2) m.1,m.2)
      let literal (rest : String) (v : Span → Draft) : Draft × Symbols :=
        match word rest.toList s with
        | (none,s) => (v (spanOf all s),s)
        | (some o,s) => (broken o (spanOf all s),s)
      if c = '"' then
        let (q,s) := quotation s
        (string q,s)
      else if c = '[' then
        let ((items,obstacle),s) := items fuel true s
        (array items obstacle (spanOf all s),s)
      else if c = '\x7b' then
        let ((members,obstacle),s) := members fuel true s
        (object members obstacle (spanOf all s),s)
      else if c = '-' then number (magnitude true s)
      else if Text.isDigit c then number (magnitude false all)
      else if c = 'n' then literal "ull" null
      else if c = 't' then literal "rue" (bool true)
      else if c = 'f' then literal "alse" (bool false)
      else (broken (.of (behind all .valueExpected)) (spanOf all []),[])

def items : Nat → Bool → Symbols → (List Draft × Option Obstacle) × Symbols
  | 0, _, s => (([],some (.of (before s .valueExpected))),[])
  | fuel + 1, first, s =>
    match openItem first s with
    | .close s => (([],none),s)
    | .obstacle o => (([],some o),[])
    | .entry s =>
      let (v,s) := value fuel s
      let ((vs,obstacle),s) := items fuel false s
      ((v :: vs,obstacle),s)

def members : Nat → Bool → Symbols → (List (Quotation × Draft) × Option Obstacle) × Symbols
  | 0, _, s => (([],some (.of (before s .valueExpected))),[])
  | fuel + 1, first, s =>
    match openMember first s with
    | .close s => (([],none),s)
    | .obstacle o => (([],some o),[])
    | .entry s =>
      match s with
      | some '"' :: s =>
        let (key,s) := quotation s
        let (v,s) :=
          match skipBlanks s with
          | some ':' :: s => value fuel s
          | [] => (broken (.of ⟨.endOfObject,0⟩) (spanOf [] []),[])
          | s => (broken (.of (behind s .colonExpected)) (spanOf s []),[])
        let ((ms,obstacle),s) := members fuel false s
        (((key,v) :: ms,obstacle),s)
      | s => (([],some (.of (behind s .nameExpected))),[])

end

/-- Read a document: its value and what follows it. -/
def ofSymbols (s : Symbols) : Draft × Symbols :=
  value (s.length + 2) s

/-! Places. -/

/-- The line and column of the place behind `n` bytes of some symbols, which themselves
begin at a line and column. -/
def place (line column : Nat) : Nat → Symbols → Nat × Nat
  | _, [] => (line,column)
  | n, c :: s =>
    if n < symbolSize c then (line,column + n)
    else if c = some '\n' then place (line + 1) 0 (n - symbolSize c) s
    else place line (column + symbolSize c) (n - symbolSize c) s

/-- Tell where in a document a flaw has been noticed. -/
def Flaw.locate (document : Symbols) (f : Flaw) : Fault :=
  let (line,column) := place 1 0 (sizeInBytes document - f.rest) document
  ⟨f.reason,line,column⟩

end Draft
end Realm.Json
