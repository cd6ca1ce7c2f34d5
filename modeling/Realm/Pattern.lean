import Realm.Pattern.CharSet

/-! Regular patterns. -/
namespace Realm

inductive Pattern.Look where
  | textStart
  | textEnd
  | lineStart
  | lineEnd
  /-- Line ends where a carriage return ends a line too. -/
  | returnLineStart
  | returnLineEnd
  /-- Conditions on words, which are those of all scripts or of ASCII only. -/
  | wordBoundary (unicode : Bool)
  | notWordBoundary (unicode : Bool)
  | wordStart (unicode : Bool)
  | wordEnd (unicode : Bool)
  | wordStartHalf (unicode : Bool)
  | wordEndHalf (unicode : Bool)
deriving DecidableEq, Repr

/-- A regular pattern. -/
inductive Pattern where
  | empty
  | chars (s : Pattern.CharSet)
  | look (l : Pattern.Look)
  | seq (p q : Pattern)
  | alt (p q : Pattern)
  /-- A group. What it matches is remembered if it has a name. -/
  | group (name : Option Text) (p : Pattern)
  /-- A part that occurs from `min` to `max` times. -/
  | repeated (p : Pattern) (min : Nat) (max : Option Nat) (greedy : Bool)
deriving DecidableEq, Repr

namespace Pattern

/-- Whether a pattern can match the empty text, as far as its form shows. -/
def isNullable : Pattern → Bool
  | empty => true
  | chars _ => false
  | look _ => true
  | seq p q => p.isNullable && q.isNullable
  | alt p q => p.isNullable || q.isNullable
  | group _ p => p.isNullable
  | repeated p min _ _ => min = 0 || p.isNullable

/-- Whether a pattern takes no character, as far as its form shows. -/
def isWidthless : Pattern → Bool
  | empty => true
  | chars _ => false
  | look _ => true
  | seq p q => p.isWidthless && q.isWidthless
  | alt p q => p.isWidthless && q.isWidthless
  | group _ p => p.isWidthless
  | repeated p _ max _ => max = some 0 || p.isWidthless

end Pattern
end Realm
