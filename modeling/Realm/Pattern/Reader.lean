import Realm.Pattern.ClassReader
import Realm.Pattern.Factor

/-! Reading regular patterns. A text that is no pattern gives none. The properties of characters
that `\p` and `\P` name are not among those that can be read, nor are numbers in hexadecimal
digits with blanks between them. -/
namespace Realm.Pattern

/-- A part of a sequence: a pattern, or a change of flags, which cannot be repeated. -/
inductive Item where
  | part (p : Pattern)
  | directive

/-- What has been read of a group: finished alternatives and the items of the last one,
both from right to left. -/
structure Level where
  alternatives : List Pattern := []
  items : List Item := []

inductive GroupKind where
  /-- They only hold things together. -/
  | plain
  | counted
  | named (name : Text)

def GroupKind.names : GroupKind → List Text
  | named name => [name]
  | _ => []

def GroupKind.enclose : GroupKind → Pattern → Pattern
  | plain, p => p
  | counted, p => .group none p
  | named name, p => .group (some name) p

/-- A group whose end has not been reached; flags and level are those around it. -/
structure OpenGroup where
  kind : GroupKind
  flags : Flags
  level : Level

/-- Patterns one after the other, given from right to left. -/
def sequence (items : List Item) : Pattern :=
  items.foldl (fun rest item =>
    match item, rest with
    | .directive, rest => rest
    | .part p, .empty => p
    | .part p, rest => .seq p rest) .empty

def Level.push (l : Level) (p : Pattern) : Level :=
  { l with items := .part p :: l.items }

def Level.finish (l : Level) : Pattern :=
  choice (sequence l.items :: l.alternatives).reverse

def Level.repeat? (l : Level) (min : Nat) (max : Option Nat) (greedy : Bool) : Option Level :=
  match l.items with
  | .part p :: items => some { l with items := .part (p.times min max greedy) :: items }
  | _ => none

def readLaziness (flags : Flags) : Text → Bool × Text
  | '?' :: t => (flags.swapGreed,t)
  | t => (!flags.swapGreed,t)

def readNumber (t : Text) : Option (Nat × Text) :=
  let t := Text.trimStart t
  let digits := t.takeWhile Text.isDigit
  if digits = [] || Text.digitsValue digits ≥ 0x100000000 then none
  else some (Text.digitsValue digits,Text.trimStart (t.dropWhile Text.isDigit))

def readBounds (flags : Flags) (t : Text) : Option ((Nat × Option Nat) × Text) := do
  let (min,rest) ← readNumber t
  let (max,rest) ←
    match rest with
    | ',' :: rest =>
      match skipBlanks flags rest with
      | '\x7d' :: rest => some (none,'\x7d' :: rest)
      | rest => (readNumber rest).map fun (n,rest) => (some n,rest)
    | rest => some (some min,rest)
  match rest with
  | '\x7d' :: rest => if max.all (min ≤ ·) then some ((min,max),rest) else none
  | _ => none

inductive GroupStart where
  | group (kind : GroupKind) (flags : Flags)
  /-- A change of flags for the rest of the group around it. -/
  | directive (flags : Flags)

def isNameFirst (c : Char) : Bool :=
  c = '_' || Text.isAlphabetic c

def isNameRest (c : Char) : Bool :=
  c = '_' || c = '.' || c = '[' || c = ']' || Text.isAlphanumeric c

def readGroupName (t : Text) : Option (Text × Text) :=
  match Text.splitFirst? '>' t with
  | some (c :: name,rest) =>
    if isNameFirst c && name.all isNameRest then some (c :: name,rest) else none
  | _ => none

def Flags.set? (flags : Flags) (c : Char) (on : Bool) : Option Flags :=
  match c with
  | 'i' => some { flags with ignoreCase := on }
  | 'm' => some { flags with multiLine := on }
  | 's' => some { flags with dotMatchesNewLine := on }
  | 'U' => some { flags with swapGreed := on }
  | 'u' => some { flags with unicode := on }
  | 'R' => some { flags with returnEndsLine := on }
  | 'x' => some { flags with ignoreBlanks := on }
  | _ => none

/-- Flags up to a colon or a parenthesis; `used` are those already given. A hyphen
switches the flags after it off, and some flag must follow it. -/
def readFlags (flags : Flags) (used : List Char) (on : Bool) : Text → Option (Flags × Text)
  | [] => none
  | c :: t =>
    if c = ':' ∨ c = ')' then if used.head? = some '-' then none else some (flags,c :: t)
    else if used.contains c then none
    else if c = '-' then readFlags flags (c :: used) false t
    else
      match flags.set? c on with
      | some flags => readFlags flags (c :: used) on t
      | none => none

/-- Read what follows an opening parenthesis. There is no looking around. -/
def readGroupStart (flags : Flags) (t : Text) : Option (GroupStart × Text) :=
  match t with
  | '?' :: 'P' :: '<' :: t =>
    (readGroupName t).map fun (name,rest) => (.group (.named name) flags,rest)
  | '?' :: '<' :: t =>
    (readGroupName t).map fun (name,rest) => (.group (.named name) flags,rest)
  | '?' :: ')' :: _ => none
  | '?' :: t =>
    match readFlags flags [] true t with
    | some (flags,':' :: rest) => some (.group .plain flags,rest)
    | some (flags,')' :: rest) => some (.directive flags,rest)
    | _ => none
  | t => some (.group .counted flags,t)

/-- Whether there are other characters that differ from one in case. -/
def Flags.hasCase (flags : Flags) (c : Char) : Bool :=
  if flags.unicode then Text.caseVariants c ≠ [c] else c.isAlpha

def ofChar (flags : Flags) (c : Char) : Pattern :=
  .chars (if flags.ignoreCase && flags.hasCase c then flags.fold (.char c) else .char c)

/-- A set as a pattern. Where characters do not count, it may only be one of ASCII. -/
def ofSet? (flags : Flags) (s : CharSet) : Option Pattern :=
  if flags.unicode || s.isAscii then some (.chars s) else none

def dot (flags : Flags) : CharSet :=
  if flags.dotMatchesNewLine then .all
  else if flags.returnEndsLine then .inter (.except '\n') (.except '\r')
  else .except '\n'

def startLook (flags : Flags) : Look :=
  if flags.multiLine then if flags.returnEndsLine then .returnLineStart else .lineStart
  else .textStart

def endLook (flags : Flags) : Look :=
  if flags.multiLine then if flags.returnEndsLine then .returnLineEnd else .lineEnd
  else .textEnd

/-- The condition of a boundary escape. The letter for a word boundary may be followed by
the kind of boundary in braces, unless these hold a count. -/
def readBoundary (unicode : Bool) (c : Char) (t : Text) : Option (Look × Text) :=
  match c, t with
  | 'A', t => some (.textStart,t)
  | 'z', t => some (.textEnd,t)
  | 'B', t => some (.notWordBoundary unicode,t)
  | '<', t => some (.wordStart unicode,t)
  | '>', t => some (.wordEnd unicode,t)
  | _, '\x7b' :: t =>
    let letters := t.takeWhile fun d => d.isAlpha || d = '-'
    if letters = [] then
      if t = [] then none else some (.wordBoundary unicode,'\x7b' :: t)
    else
      match t.drop letters.length with
      | '\x7d' :: rest =>
        [("start",Look.wordStart unicode),("end",.wordEnd unicode),
          ("start-half",.wordStartHalf unicode),("end-half",.wordEndHalf unicode)].findSome?
            fun e => if e.1.toList = letters then some (e.2,rest) else none
      | _ => none
  | _, t => some (.wordBoundary unicode,t)

def readEscaped (flags : Flags) (t : Text) : Option (Pattern × Text) :=
  match readEscape flags t with
  | some (.char c,rest) => some (ofChar flags c,rest)
  | some (.set s,rest) => (ofSet? flags s).map (·,rest)
  | some (.boundary c,rest) =>
    (readBoundary flags.unicode c rest).map fun (l,rest) => (.look l,rest)
  | none => none

/-- Where the reader of a pattern stands: the groups around are given from the innermost one
on, and `names` are those given so far. -/
structure State where
  flags : Flags
  level : Level
  outer : List OpenGroup
  names : List Text

namespace State

def push (s : State) (p : Pattern) : State :=
  { s with level := s.level.push p }

def pushSet? (s : State) (set : CharSet) : Option State :=
  (ofSet? s.flags set).map s.push

def alternative (s : State) : State :=
  { s with level := ⟨sequence s.level.items :: s.level.alternatives,[]⟩ }

def enter? (s : State) : GroupStart → Option State
  | .group kind inner =>
    if kind.names.any s.names.contains then none
    else some ⟨inner,{},⟨kind,s.flags,s.level⟩ :: s.outer,kind.names ++ s.names⟩
  | .directive flags =>
    some { s with flags, level := { s.level with items := .directive :: s.level.items } }

def leave? (s : State) : Option State :=
  match s.outer with
  | [] => none
  | ⟨kind,flags,around⟩ :: outer =>
    some ⟨flags,around.push (kind.enclose s.level.finish),outer,s.names⟩

def repeatLast? (s : State) (min : Nat) (max : Option Nat) (greedy : Bool) : Option State :=
  (s.level.repeat? min max greedy).map fun level => { s with level }

def readRepetition (s : State) (min : Nat) (max : Option Nat) (t : Text) : Option (State × Text) :=
  (s.repeatLast? min max (readLaziness s.flags t).1).map (·,(readLaziness s.flags t).2)

/-- What a character of a pattern makes of the reader, with what follows it. -/
def turn? (s : State) (c : Char) : Text → Option (State × Text) :=
  if s.flags.ignoreBlanks && (Text.isBlank c || c = '#') then
    fun t => some (s,skipBlanks s.flags (c :: t))
  else
    match c with
    | '(' => fun t =>
      (readGroupStart s.flags (skipBlanks s.flags t)).bind fun r => (s.enter? r.1).map (·,r.2)
    | ')' => fun t => s.leave?.map (·,t)
    | '|' => fun t => some (s.alternative,t)
    | '[' => fun t => (readSet s.flags t).bind fun r => (s.pushSet? r.1).map (·,r.2)
    | '*' => s.readRepetition 0 none
    | '+' => s.readRepetition 1 none
    | '?' => s.readRepetition 0 (some 1)
    | '\x7b' => fun t => (readBounds s.flags (skipBlanks s.flags t)).bind fun r =>
      s.readRepetition r.1.1 r.1.2 (skipBlanks s.flags r.2)
    | '\\' => fun t => (readEscaped s.flags t).map fun r => (s.push r.1,r.2)
    | '.' => fun t => (s.pushSet? (dot s.flags)).map (·,t)
    | '^' => fun t => some (s.push (.look (startLook s.flags)),t)
    | '$' => fun t => some (s.push (.look (endLook s.flags)),t)
    | c => fun t => some (s.push (ofChar s.flags c),t)

/-- Read a pattern to its end. Every turn takes at least one character. -/
def read (s : State) : Text → Option Pattern
  | [] => if s.outer.isEmpty then some s.level.finish else none
  | c :: t =>
    match s.turn? c t with
    | some (s,rest) => s.read (t.drop (t.length - rest.length))
    | none => none
termination_by t => t.length
decreasing_by
  simp only [List.length_drop,List.length_cons]
  omega

end State

def read? (t : Text) : Option Pattern :=
  State.read ⟨{},{},[],[]⟩ t

end Realm.Pattern
