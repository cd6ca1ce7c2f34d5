import Realm.Pattern.CharSet

/-! Reading the sets of characters that patterns write between brackets, and the escapes
that may stand inside and outside of them. -/
namespace Realm.Pattern

/-- Settings that a pattern can change for a part of itself. -/
structure Flags where
  ignoreCase : Bool := false
  multiLine : Bool := false
  dotMatchesNewLine : Bool := false
  swapGreed : Bool := false
  unicode : Bool := true
  returnEndsLine : Bool := false
  /-- Blanks and comments in the pattern mean nothing. -/
  ignoreBlanks : Bool := false
deriving DecidableEq, Repr

/-- The characters of a set, and those that differ from them in case if case is ignored. -/
def Flags.fold (flags : Flags) (s : CharSet) : CharSet :=
  if !flags.ignoreCase then s
  else if flags.unicode then .anyCase s
  else .anyAsciiCase s

def skipBlanks (flags : Flags) (t : Text) : Text :=
  if flags.ignoreBlanks then go false t else t
where
  go (inComment : Bool) : Text → Text
    | [] => []
    | c :: t =>
      if inComment then go (c ≠ '\n') t
      else if Text.isBlank c then go false t
      else if c = '#' then go true t
      else c :: t

inductive Escape where
  | char (c : Char)
  | set (s : CharSet)
  | boundary (c : Char)

def isMeta (c : Char) : Bool :=
  ['\\','.','+','*','?','(',')','|','[',']','\x7b','\x7d','^','$','#','&','-','~'].contains c

def hexDigit? (c : Char) : Option Nat :=
  if '0' ≤ c ∧ c ≤ '9' then some (c.toNat - '0'.toNat)
  else if 'a' ≤ c ∧ c ≤ 'f' then some (c.toNat - 'a'.toNat + 10)
  else if 'A' ≤ c ∧ c ≤ 'F' then some (c.toNat - 'A'.toNat + 10)
  else none

def charOfHex? (digits : Text) : Option Char :=
  match digits with
  | [] => none
  | _ => do
    let values ← digits.mapM hexDigit?
    let n := values.foldl (fun n d => 16 * n + d) 0
    if h : n.isValidChar then some (Char.ofNatAux n h) else none

/-- A character by its number: in braces, or with a fixed count of digits, which where bytes
count is the number of a byte and has to be one of ASCII. -/
def readHex (bytes : Bool) (count : Nat) : Text → Option (Char × Text)
  | '\x7b' :: t =>
    match Text.splitFirst? '\x7d' t with
    | some (digits,rest) => (charOfHex? digits).map (·,rest)
    | none => none
  | t =>
    if t.length < count then none
    else
      ((charOfHex? (t.take count)).filter fun c => !bytes || c.toNat < 0x80).map (·,t.drop count)

def classOfLetter (flags : Flags) (c : Char) : CharSet :=
  let k : CharClass :=
    match c.toLower, flags.unicode with
    | 'd', true => .digit
    | 'd', false => .asciiDigit
    | 's', true => .space
    | 's', false => .asciiSpace
    | _, true => .word
    | _, false => .asciiWord
  if c.isUpper then .compl (.named k) else .named k

def readEscape (flags : Flags) : Text → Option (Escape × Text)
  | [] => none
  | c :: t =>
    if c = 'x' then (readHex (!flags.unicode) 2 t).map fun (d,rest) => (.char d,rest)
    else if c = 'u' then (readHex false 4 t).map fun (d,rest) => (.char d,rest)
    else if c = 'U' then (readHex false 8 t).map fun (d,rest) => (.char d,rest)
    else if ['d','D','s','S','w','W'].contains c then some (.set (classOfLetter flags c),t)
    else if isMeta c then some (.char c,t)
    else if c = 'a' then some (.char '\x07',t)
    else if c = 'f' then some (.char '\x0c',t)
    else if c = 't' then some (.char '\t',t)
    else if c = 'n' then some (.char '\n',t)
    else if c = 'r' then some (.char '\r',t)
    else if c = 'v' then some (.char '\x0b',t)
    else if ['A','z','b','B','<','>'].contains c then some (.boundary c,t)
    else if c.toNat < 0x80 && !c.isAlphanum then some (.char c,t)
    else none

inductive SetOperator where
  | inter
  | diff
  | symmDiff

def SetOperator.apply : SetOperator → CharSet → CharSet → CharSet
  | inter => .inter
  | diff => .diff
  | symmDiff => .symmDiff

/-- A set that is being read: the operand before the last operator, and the union of what
follows it. -/
structure OpenSet where
  negated : Bool
  left : Option (CharSet × SetOperator)
  items : CharSet

namespace OpenSet

def add (o : OpenSet) (s : CharSet) : OpenSet :=
  { o with items :=
    match o.items with
    | .none => s
    | items => .union items s }

def operand (flags : Flags) (o : OpenSet) : CharSet :=
  match o.left with
  | some (left,operator) => operator.apply left (flags.fold o.items)
  | none => flags.fold o.items

/-- Begin another operand; operators take their operands from left to right. -/
def operate (flags : Flags) (o : OpenSet) (operator : SetOperator) : OpenSet :=
  { o with left := some (o.operand flags,operator), items := .none }

def close (flags : Flags) (o : OpenSet) : CharSet :=
  if o.negated then .compl (o.operand flags) else o.operand flags

end OpenSet

def leadingHyphens (flags : Flags) (o : OpenSet) : Text → OpenSet × Text
  | '-' :: t =>
    if flags.ignoreBlanks then (o.add (.char '-'),skipBlanks flags t)
    else leadingHyphens flags (o.add (.char '-')) t
  | t => (o,t)

/-- Begin a set after its bracket: a caret negates it, hyphens stand for themselves, and
so does a closing bracket that comes first. -/
def beginSet (flags : Flags) (t : Text) : OpenSet × Text :=
  let t := skipBlanks flags t
  let (negated,t) :=
    match t with
    | '^' :: t => (true,skipBlanks flags t)
    | t => (false,t)
  match leadingHyphens flags ⟨negated,none,.none⟩ t with
  | (⟨negated,left,.none⟩,']' :: t) => (⟨negated,left,.char ']'⟩,skipBlanks flags t)
  | r => r

def readNamedClass (flags : Flags) : Text → Option (CharSet × Text)
  | ':' :: t =>
    let (negated,t) :=
      match t with
      | '^' :: t => (true,t)
      | t => (false,t)
    match Text.cut? [':',']'] t with
    | some (name,rest) =>
      (CharClass.ofName? name).map fun k =>
        (if negated then .compl (flags.fold (.named k)) else .named k,rest)
    | none => none
  | _ => none

def readItem (flags : Flags) (c : Char) (t : Text) : Option (Escape × Text) :=
  if c = '\\' then readEscape flags t else some (.char c,t)

def readRange (flags : Flags) (c : Char) (t : Text) : Option (CharSet × Text) := do
  let (item,rest) ← readItem flags c t
  let rest := skipBlanks flags rest
  let single ←
    match item with
    | .char c => some (CharSet.char c)
    | .set s => some s
    | .boundary _ => none
  match rest with
  | '-' :: after =>
    match skipBlanks flags after with
    | [] => none
    | d :: t =>
      if d = ']' ∨ d = '-' then some (single,rest)
      else
        let (stop,rest) ← readItem flags d t
        match item, stop with
        | .char a, .char b => if a ≤ b then some (.range a b,rest) else none
        | _, _ => none
  | _ => some (single,rest)

/-- Read sets, the outermost last in the list, up to its closing bracket. Every turn takes
at least one character. -/
def readSets (flags : Flags) (current : OpenSet) (outer : List OpenSet) :
    Text → Option (CharSet × Text)
  | [] => none
  | c :: t =>
    let goOn := fun (current : OpenSet) (outer : List OpenSet) (rest : Text) =>
      readSets flags current outer (t.drop (t.length - rest.length))
    if flags.ignoreBlanks && Text.isBlank c then goOn current outer t
    else if c = '[' then
      match readNamedClass flags t with
      | some (s,rest) => goOn (current.add s) outer rest
      | none =>
        let (inner,rest) := beginSet flags t
        goOn inner (current :: outer) rest
    else if c = ']' then
      match outer with
      | [] => some (current.close flags,t)
      | parent :: outer => goOn (parent.add (current.close flags)) outer t
    else if c = '&' && t.head? = some '&' then
      goOn (current.operate flags .inter) outer (t.drop 1)
    else if c = '-' && t.head? = some '-' then
      goOn (current.operate flags .diff) outer (t.drop 1)
    else if c = '~' && t.head? = some '~' then
      goOn (current.operate flags .symmDiff) outer (t.drop 1)
    else
      match readRange flags c t with
      | some (s,rest) => goOn (current.add s) outer rest
      | none => none
termination_by t => t.length
decreasing_by
  simp only [List.length_drop,List.length_cons]
  omega

def readSet (flags : Flags) (t : Text) : Option (CharSet × Text) :=
  let (o,rest) := beginSet flags t
  readSets flags o [] rest

end Realm.Pattern
