import Realm.Command
import Realm.Options

/-! The words of a command, put together from tokens that touch. -/
namespace Realm

/-- What a token contributes to the words of a command. -/
inductive Fragment where
  /-- The end of a word. -/
  | gap
  /-- A word of its own. -/
  | whole (text : Text)
  | plain (text : Text)
  | quoted (text : Text)
  /-- A variable with its members, by name and as written. -/
  | variable (name raw : Text)
deriving DecidableEq, Repr

structure Word where
  text : Text
  raw : Text
  /-- Some part of the word was quoted. -/
  isQuoted : Bool
deriving DecidableEq, Repr

namespace Fragment

/-- The fragments of a list of tokens. Redirections are no part of any word, and an alias
makes a word of its own only as the verb. -/
def ofTokens (isVerb : Bool) : List Token → List Fragment
  | [] => []
  | t :: ts =>
    match t.kind with
    | .blank => gap :: ofTokens false ts
    | .history | .substitution => ofTokens false ts
    | .operator =>
      (if (Redirect.Kind.ofText? t.value).isSome then gap else whole t.value) :: ofTokens false ts
    | .alias =>
      (if isVerb then whole t.value else plain t.rawText) :: ofTokens false ts
    | .variable =>
      let members := ts.takeWhile (·.kind = .member)
      let rest := ts.dropWhile (·.kind = .member)
      .variable (t.value ++ members.flatMap (·.rawText)) (t.rawText ++ members.flatMap (·.rawText))
        :: ofTokens false rest
    | .string => quoted t.value :: ofTokens false ts
    | .word | .numeric | .member | .backtick => plain t.rawText :: ofTokens false ts
termination_by ts => ts.length
decreasing_by
  all_goals try (simp only [List.length_cons]; omega)
  have := (List.dropWhile_suffix (fun t : Token => decide (t.kind = .member)) (l := ts)).length_le
  simp only [List.length_cons]
  omega

end Fragment

namespace Word

def extend (current : Option Word) (text raw : Text) (isQuoted : Bool) : Option Word :=
  match current with
  | none => some ⟨text,raw,isQuoted⟩
  | some w => some ⟨w.text ++ text,w.raw ++ raw,w.isQuoted || isQuoted⟩

variable {σ : Type}

def ofFragments (o : Options σ) (expand : Bool) (current : Option Word) :
    List Fragment → StateM σ (List Word)
  | [] => pure current.toList
  | .gap :: fs => do
    let words ← ofFragments o expand none fs
    pure (current.toList ++ words)
  | .whole text :: fs => do
    let words ← ofFragments o expand none fs
    pure (current.toList ++ ⟨text,text,false⟩ :: words)
  | .plain text :: fs => ofFragments o expand (extend current text text false) fs
  | .quoted text :: fs => ofFragments o expand (extend current text text true) fs
  | .variable name raw :: fs => do
    let text ← if expand then o.valueOf name else pure raw
    ofFragments o expand (extend current text raw false) fs

def ofTokens (o : Options σ) (expand : Bool) (tokens : List Token) : StateM σ (List Word) :=
  ofFragments o expand none (Fragment.ofTokens true tokens)

end Word
end Realm
