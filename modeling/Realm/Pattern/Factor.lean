import Realm.Pattern

/-! Patterns made of simpler ones, in the form in which they are searched for. A repetition
of something that takes no characters happens at most once, and what all alternatives begin
with stands before them. -/
namespace Realm.Pattern

def isLiteral : Pattern → Bool
  | chars (.char _) => true
  | _ => false

def hasGroup : Pattern → Bool
  | empty | chars _ | look _ => false
  | seq p q | alt p q => p.hasGroup || q.hasGroup
  | group _ _ => true
  | repeated p _ _ _ => p.hasGroup

/-- The patterns that follow each other in a sequence. -/
def parts : Pattern → List Pattern
  | empty => []
  | seq p q => p.parts ++ q.parts
  | p => [p]

/-- The factors of a sequence: its parts, with characters that follow each other taken
together. -/
def factors (p : Pattern) : List (List Pattern) :=
  p.parts.splitBy fun a b => a.isLiteral && b.isLiteral

def ofParts : List Pattern → Pattern
  | [] => .empty
  | [p] => p
  | p :: ps => .seq p (ofParts ps)

def anyOf : List Pattern → Pattern
  | [] => .empty
  | [p] => p
  | p :: ps => .alt p (anyOf ps)

/-- The factors with which two sequences begin alike. A group is like no other. -/
def commonFactors : List (List Pattern) → List (List Pattern) → List (List Pattern)
  | f :: fs, g :: gs =>
    if f = g && !f.any hasGroup then f :: commonFactors fs gs else []
  | _, _ => []

/-- The factors with which all of some patterns begin, if each is a sequence of at least
two. -/
def sharedFactors : List Pattern → List (List Pattern)
  | p :: q :: ps =>
    let all := (p :: q :: ps).map factors
    if all.all (2 ≤ ·.length) then all.tail.foldl commonFactors p.factors else []
  | _ => []

def choice (ps : List Pattern) : Pattern :=
  match sharedFactors ps with
  | [] => anyOf ps
  | shared =>
    .seq (ofParts shared.flatten)
      (anyOf (ps.map fun p => ofParts (p.factors.drop shared.length).flatten))

def times (p : Pattern) (min : Nat) (max : Option Nat) (greedy : Bool) : Pattern :=
  let (min,max) :=
    if p.isWidthless then (Nat.min min 1,some (Nat.min (max.getD 1) 1)) else (min,max)
  if max = some 0 then .empty
  else if min = 1 ∧ max = some 1 then p
  else .repeated p min max greedy

end Realm.Pattern
