import Realm.Json
import Realm.Json.Draft
import Realm.Permission

/-! Values of known shapes in drafts of documents. A draft is looked at from left to right
and given up at the first flaw; what is not asked for is only skimmed. -/
namespace Realm.Json

open Draft (Flaw Obstacle Quotation Span)

/-- How many arrays and objects may stand inside each other, and one more. -/
def depthLimit : Nat := 128

def enter (span : Span) : Nat → Except Flaw Nat
  | n + 2 => .ok (n + 1)
  | _ => .error ⟨.tooDeep,span.start - 1⟩

def Draft.inside (depth : Nat) : Draft → Except Flaw Nat
  | .array _ _ s | .object _ _ s => enter s depth
  | _ => .ok depth

def pass : Option Flaw → Except Flaw Unit
  | some flaw => .error flaw
  | none => .ok ()

/-- Stop at what keeps the end of an array or object from being found. -/
def ask (o : Option Obstacle) : Except Flaw Unit :=
  pass (o.map (·.asked))

namespace Draft

mutual

def skim : Draft → Except Flaw Unit
  | .broken o _ => .error o.skimmed
  | .string s => pass s.obstacle
  | .array items o _ => do skimItems items; pass (o.map (·.skimmed))
  | .object members o _ => do skimMembers members; pass (o.map (·.skimmed))
  | .null _ | .bool _ _ | .integer _ _ | .real _ _ _ => .ok ()

def skimItems : List Draft → Except Flaw Unit
  | [] => .ok ()
  | v :: vs => do skim v; skimItems vs

def skimMembers : List (Quotation × Draft) → Except Flaw Unit
  | [] => .ok ()
  | (key,v) :: ms => do pass key.obstacle; skim v; skimMembers ms

end

/-- Why a value is refused where something else is expected. A value that is no array or
object is read to its end first. -/
def refusal (expected : String) (v : Draft) : Flaw :=
  let other (found : Text) (rest : Nat) : Flaw := ⟨.unexpected found expected.toList,rest⟩
  let graves (kind : String) (t : Text) : Text := kind.toList ++ ' ' :: Reason.graves t
  match v with
  | .broken o _ => o.asked
  | .null s => other "null".toList s.stop
  | .bool b s => other (graves "boolean" (if b then "true" else "false").toList) s.stop
  | .integer n s => other (graves "integer" (Text.ofInt n)) s.stop
  | .real spelling true s => other (graves "floating point" spelling) s.stop
  | .real _ false s => ⟨.numberTooLarge,s.stop⟩
  | .string ⟨.error flaw,_,_⟩ => flaw
  | .string ⟨.ok t,_,s⟩ => other ("string ".toList ++ Text.quoted t) s.stop
  | .array _ _ s => other "sequence".toList s.start
  | .object _ _ s => other "map".toList s.start

mutual

/-- A value of any shape. Members of objects are put into ascending order of their names;
of two with one name the later counts. -/
def anything (depth : Nat) : Draft → Except Flaw Json
  | .null _ => .ok .null
  | .bool b _ => .ok (.bool b)
  | .integer n _ => .ok (.number n)
  | .real spelling inRange s =>
    if inRange then .ok (.real spelling) else .error ⟨.numberTooLarge,s.stop⟩
  | .string s => s.value.map .string
  | .array items o s => do
    let depth ← enter s depth
    let vs ← anyItems depth items
    ask o
    pure (.array vs)
  | .object members o s => do
    let depth ← enter s depth
    let ms ← anyMembers depth members
    ask o
    pure (.object (Table.ofList ms))
  | .broken o _ => .error o.asked

def anyItems (depth : Nat) : List Draft → Except Flaw (List Json)
  | [] => .ok []
  | v :: vs => do
    let v ← anything depth v
    let vs ← anyItems depth vs
    pure (v :: vs)

def anyMembers (depth : Nat) : List (Quotation × Draft) → Except Flaw (List (Text × Json))
  | [] => .ok []
  | (key,v) :: ms => do
    let name ← key.value
    let v ← anything depth v
    let ms ← anyMembers depth ms
    pure ((name,v) :: ms)

end

def text : Draft → Except Flaw Text
  | .string s => s.value
  | v => .error (v.refusal "a string")

def flag : Draft → Except Flaw Bool
  | .bool b _ => .ok b
  | v => .error (v.refusal "a boolean")

/-- A permission by its number of 32 bits, as an entry of an object. -/
def permission : Draft → Except Flaw Permission
  | .integer n s =>
    if n < 0 ∨ 0x100000000 ≤ n then .error ⟨.outOfBounds n "u32".toList,s.stop⟩
    else
      match Permission.ofNat? n.toNat with
      | some p => .ok p
      | none => .error ⟨.unknownPermissionBits n.toNat,s.next⟩
  | v => .error (v.refusal "u32")

def entries {α : Type} (read : Draft → Except Flaw α) :
    List (Quotation × Draft) → Except Flaw (List (Text × α))
  | [] => .ok []
  | (key,v) :: ms => do
    let name ← key.value
    let v ← read v
    let ms ← entries read ms
    pure ((name,v) :: ms)

/-- An object whose names are free; of two entries with one name the later counts. -/
def table {α : Type} (read : Nat → Draft → Except Flaw α) (depth : Nat) :
    Draft → Except Flaw (Table Text α)
  | .object members o s => do
    let depth ← enter s depth
    let es ← entries (read depth) members
    ask o
    pure (Table.ofList es)
  | v => .error (v.refusal "a map")

def list {α : Type} (read : Nat → Draft → Except Flaw α) (depth : Nat) :
    Draft → Except Flaw (List α)
  | .array items o s => do
    let depth ← enter s depth
    let vs ← items.mapM (read depth)
    ask o
    pure vs
  | v => .error (v.refusal "a sequence")

end Draft

/-- The fields of a record in their order, and how each is read into it. -/
structure Fields (α : Type) where
  /-- What a record is called when something else stands in its place. -/
  label : String
  names : List Text
  /-- The fields that must be there. -/
  required : List Text := []
  read : Text → Draft → α → Except Flaw α

/-- A record is read from the document, or from a part of it that has been looked at as a
whole before. -/
inductive Source where
  | document
  | buffer

namespace Fields

variable {α : Type}

/-- Read the members of an object into a record. A field may not be given twice; other
members are skimmed. -/
def ofMembers (f : Fields α) (seen : List Text) (a : α) :
    List (Quotation × Draft) → Except Flaw α
  | [] => .ok a
  | (key,v) :: ms => do
    let name ← key.value
    if name ∈ f.names then
      if name ∈ seen then .error ⟨.duplicateField name,key.span.next⟩
      else do
        let a ← f.read name v a
        ofMembers f (name :: seen) a ms
    else do
      v.skim
      ofMembers f seen a ms

/-- Read the items of an array into the fields of a record in their order, and give the
names and the items that are left. -/
def ofItems (f : Fields α) (a : α) :
    List Text → List Draft → Except Flaw (α × List Text × List Draft)
  | name :: names, v :: vs => do
    let a ← f.read name v a
    ofItems f a names vs
  | names, vs => .ok (a,names,vs)

def noMore (f : Fields α) (source : Source) : List Draft → Except Flaw Unit
  | [] => .ok ()
  | v :: vs =>
    let fields := f.names.length
    .error
      (match source with
        | .document => ⟨.trailingText,v.span.start - 1⟩
        | .buffer =>
          ⟨.wrongLength (fields + vs.length + 1)
            (Text.ofNat fields ++ " elements in sequence".toList),v.span.start⟩)

/-- Read a record, written as an object or as an array of its fields, of which the last
ones may be missing. -/
def record (f : Fields α) (source : Source) (a : α) : Draft → Except Flaw α
  | .object members o s => do
    let a ← f.ofMembers [] a members
    ask o
    let given := members.filterMap (·.1.value.toOption)
    match f.required.find? (!given.contains ·) with
    | some name => .error ⟨.missingField name,s.stop⟩
    | none => pure a
  | .array items o s => do
    let (a,missing,more) ← f.ofItems a f.names items
    f.noMore source more
    match missing with
    | [] => pass (o.map (·.closing))
    | _ => ask o
    match f.required.find? (missing.contains ·) with
    | some name =>
      let label := f.label ++ " with " ++ toString f.names.length ++ " elements"
      .error ⟨.wrongLength (f.names.idxOf name) label.toList,s.stop⟩
    | none => pure a
  | v => .error (v.refusal f.label)

end Fields

/-- Read a document that holds one value of a known shape. -/
def parse {α : Type} (read : Nat → Draft → Except Flaw α) (s : Symbols) : Except Fault α :=
  let (v,rest) := Draft.ofSymbols s
  let read : Except Flaw α := do
    let a ← read depthLimit v
    match Draft.skipBlanks rest with
    | [] => pure a
    | rest => .error (Draft.behind rest .trailingText)
  read.mapError (·.locate s)

end Realm.Json
