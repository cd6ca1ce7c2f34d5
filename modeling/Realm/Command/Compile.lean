import Realm.Command.Alias
import Realm.Command.Word

/-! The verb and the arguments of a command, worked out from its tokens. -/
namespace Realm

/-- Whether a text holds a character that makes it a file expression. -/
def hasGlob (t : Text) : Bool :=
  t.any fun c => c = '*' || c = '?' || c = '['

/-- Places of the elements with a property. -/
def placesOf {α : Type} (p : α → Bool) (xs : List α) : List Nat :=
  xs.zipIdx.filterMap fun (x,i) => if p x then some i else none

theorem placesOf_eq_nil {α : Type} {p : α → Bool} {xs : List α} (h : ∀ x ∈ xs, p x = false) :
    placesOf p xs = [] := by
  refine List.filterMap_eq_nil_iff.2 fun y hy => ?_
  exact if_neg (Bool.eq_false_iff.1 (h y.1 (List.fst_mem_of_mem_zipIdx hy)))

namespace Command

variable {σ : Type}

def alias? (o : Options σ) (c : Command) : Option (Text × Text) :=
  match c.tokens with
  | token :: _ =>
    if token.kind = .alias then (o.aliases.get? token.value).map fun t => (token.value,t)
    else none
  | [] => none

/-- Work out verb and arguments: an alias is expanded through its template, and variables
are replaced where the grammar says so. An expression keeps its words as written. -/
def compile (o : Options σ) (c : Command) : StateM σ Command := do
  let isExpression := c.kind = .expression
  let expand := o.expandVariables && !isExpression
  let words ← Word.ofTokens o expand c.tokens
  match words with
  | [] => pure c
  | first :: rest =>
    match c.alias? o with
    | some (name,template) => do
      let line ← Alias.expand o expand name template (rest.map (·.text))
      let (verb,args) := Alias.splitLine line
      pure { c with
        verb, args
        globArgs := if o.expandFileExpressions then placesOf hasGlob args else [] }
    | none =>
      if isExpression then
        pure { c with verb := first.raw, args := rest.map (·.raw), globArgs := [] }
      else
        pure { c with
          verb := first.text
          args := rest.map (·.text)
          globArgs :=
            if o.expandFileExpressions then
              placesOf (fun w => !w.isQuoted && hasGlob w.raw) rest
            else [] }

end Command
end Realm
