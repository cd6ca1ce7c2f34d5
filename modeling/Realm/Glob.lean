import Realm.Error
import Realm.Pattern

/-! File expressions: patterns of file names, one for each segment of a path. -/
namespace Realm.Glob

inductive Part where
  /-- Any run of characters. -/
  | run
  /-- Any one character. -/
  | one
  | char (c : Char)
  /-- One character of a class, given by what stands between its brackets, or one that is
  not in it. -/
  | oneOf (negated : Bool) (body : Text)
deriving DecidableEq, Repr

/-- The body of a class and what follows its closing bracket. A closing bracket at the
beginning belongs to the body. -/
def readBody? : Text → Option (Text × Text)
  | [] => none
  | c :: t => (Text.splitFirst? ']' t).map fun r => (c :: r.1,r.2)

theorem length_readBody? {t body rest : Text} (h : readBody? t = some (body,rest)) :
    rest.length < t.length := by
  cases t with
  | nil => simp [readBody?] at h
  | cons c t =>
    obtain ⟨⟨x,y⟩,hx,he⟩ := Option.map_eq_some_iff.1 h
    cases he
    have := Text.eq_of_splitFirst? hx
    subst this
    simp only [List.length_cons,List.length_append]
    omega

/-- A class after its opening bracket: whether it is negated, its body and what follows its
closing bracket. -/
def readClass? : Text → Option (Bool × Text × Text)
  | '!' :: t => (readBody? t).map (true,·)
  | t => (readBody? t).map (false,·)

theorem length_readClass? {t body rest : Text} {b : Bool}
    (h : readClass? t = some (b,body,rest)) : rest.length < t.length := by
  unfold readClass? at h
  split at h
  · obtain ⟨⟨x,y⟩,hx,he⟩ := Option.map_eq_some_iff.1 h
    cases he
    exact Nat.lt_succ_of_lt (length_readBody? hx)
  · obtain ⟨⟨x,y⟩,hx,he⟩ := Option.map_eq_some_iff.1 h
    cases he
    exact length_readBody? hx

/-- The parts of a segment. A bracket without its partner stands for itself. -/
def parts : Text → List Part
  | [] => []
  | c :: t =>
    if c = '*' then .run :: parts t
    else if c = '?' then .one :: parts t
    else if c = '[' then
      match _h : readClass? t with
      | some (negated,body,rest) => .oneOf negated body :: parts rest
      | none => .char c :: parts t
    else .char c :: parts t
termination_by t => t.length
decreasing_by
  all_goals try (simp only [List.length_cons]; omega)
  have := length_readClass? _h
  simp only [List.length_cons]
  omega

/-- A character in the body of a class. A hyphen that is neither first nor last can stand
between the ends of a range. -/
inductive Mark where
  | char (c : Char)
  | hyphen
deriving DecidableEq, Repr

def laterMarks : Text → List Mark
  | [] => []
  | [c] => [.char c]
  | c :: t => (if c = '-' then .hyphen else .char c) :: laterMarks t

def marks : Text → List Mark
  | [] => []
  | c :: t => .char c :: laterMarks t

open Pattern (CharSet)

/-- The characters of a class. Two hyphens take the characters after them away from those
before; a range must not be reversed. -/
def charSet? (minuend : Option CharSet) (items : CharSet) : List Mark → Option CharSet
  | [] => some (close items)
  | .hyphen :: .hyphen :: ms => charSet? (some (close items)) .none ms
  | .hyphen :: ms => charSet? minuend (add items (.char '-')) ms
  | .char a :: .hyphen :: .char b :: ms =>
    if a ≤ b then charSet? minuend (add items (.range a b)) ms else none
  | .char a :: ms => charSet? minuend (add items (.char a)) ms
where
  add (items s : CharSet) : CharSet :=
    match items with
    | .none => s
    | items => .union items s
  close (items : CharSet) : CharSet :=
    match minuend with
    | some s => .diff s items
    | none => items

def anyChar : Pattern :=
  .chars (.except '/')

def Part.pattern? : Part → Option Pattern
  | run => some (.repeated anyChar 0 none true)
  | one => some anyChar
  | char c => some (.chars (.char c))
  | oneOf negated body =>
    (charSet? none .none (marks body)).map fun s =>
      .chars (if negated then .compl s else s)

def pattern? (segment : Text) : Option Pattern := do
  let ps ← (parts segment).mapM Part.pattern?
  pure (.seq (.look .textStart) (ps.foldr .seq (.look .textEnd)))

/-- The pattern of a segment, or the error of one that has none. -/
def compile (segment : Text) : Except Error Pattern :=
  match pattern? segment with
  | some p => .ok p
  | none => .error (.parse (.badFileExpression segment))

end Realm.Glob
