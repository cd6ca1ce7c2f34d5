import Realm.Json.Shape

/-! Shadow files: the access rules of a directory as they are stored, as JSON. A rule for
names that match a pattern is stored with the directory that holds the names, and so is all
that lies beneath such a name. -/
namespace Realm.Acl

abbrev Grants := Table Text Permission

structure FileEntry where
  permissions : Grants := []
  /-- Whether the grants are added to those of the directory, or replace them. -/
  inherits : Bool := true
deriving DecidableEq, Repr

/-- The rules of a directory: its grants, whether they are added to those from above, its
files, the rules of names that match patterns, and those of names below such a name. -/
inductive Shadow where
  | node (permissions : Grants) (files : Table Text FileEntry) (inherits : Bool)
    (patterns : List (Text × Shadow)) (children : List (Text × Shadow))

namespace Shadow

/-- The rules of a directory of which nothing is said. -/
def empty : Shadow :=
  .node [] [] true [] []

/-! Writing. -/

def grantsJson (g : Grants) : Json :=
  .object (g.map fun (key,p) => (key,.number p.toNat))

def fileJson (f : FileEntry) : Json :=
  .object [("permissions".toList,grantsJson f.permissions),("inherits".toList,.bool f.inherits)]

def unlessEmpty {α : Type} (name : String) (xs : List α) (v : Json) : List (Text × Json) :=
  if xs.isEmpty then [] else [(name.toList,v)]

mutual

def members : Shadow → List (Text × Json)
  | .node permissions files inherits patterns children =>
    ("permissions".toList,grantsJson permissions) ::
      unlessEmpty "files" files (.object (files.map fun (name,f) => (name,fileJson f))) ++
      (if inherits then [] else [("inherits".toList,.bool false)]) ++
      unlessEmpty "regexEntries" patterns (.array (patternsJson patterns)) ++
      unlessEmpty "children" children (.object (childrenJson children))

def patternsJson : List (Text × Shadow) → List Json
  | [] => []
  | (pattern,s) :: ps =>
    .object (("pattern".toList,.string pattern) :: members s) :: patternsJson ps

def childrenJson : List (Text × Shadow) → List (Text × Json)
  | [] => []
  | (name,s) :: cs => (name,.object (members s)) :: childrenJson cs

end

def toJson (s : Shadow) : Json :=
  .object (members s)

def toBytes (s : Shadow) : Bytes :=
  Text.encode s.toJson.pretty

/-! Reading. -/

open Json (Draft Fields Source)
open Json.Draft (Flaw Quotation)

def readGrants (depth : Nat) : Draft → Except Flaw Grants :=
  Draft.table (fun _ v => v.permission) depth

def fileFields (depth : Nat) : Fields FileEntry where
  label := "struct AclEntry"
  names := ["permissions".toList,"inherits".toList]
  read name v f :=
    if name = "permissions".toList then do
      let permissions ← readGrants depth v
      pure { f with permissions }
    else do
      let inherits ← v.flag
      pure { f with inherits }

def readFile (source : Source) (depth : Nat) (v : Draft) : Except Flaw FileEntry := do
  let depth ← v.inside depth
  (fileFields depth).record source {} v

/-- The members of a rule for a pattern: the pattern, and the others in their order. The
others are looked at, without asking what they mean, before any of them counts. -/
def splitPattern (depth : Nat) (pattern : Option Text) :
    List (Quotation × Draft) → Except Flaw (Option Text × List (Quotation × Draft))
  | [] => .ok (pattern,[])
  | (key,v) :: ms => do
    let name ← key.value
    if name = "pattern".toList then
      match pattern with
      | some _ => .error ⟨.duplicateField name,key.span.next⟩
      | none => do
        let pattern ← v.text
        splitPattern depth (some pattern) ms
    else do
      let _ ← v.anything depth
      let (pattern,others) ← splitPattern depth pattern ms
      pure (pattern,(key,v) :: others)

/-- Read a rule for a pattern, given how rules are read. Flaws of the rules are noticed when
the whole has been looked at. -/
def readPattern (readRules : Draft → Except Flaw Shadow) (depth : Nat) :
    Draft → Except Flaw (Text × Shadow)
  | .object members o s => do
    let inside ← Json.enter s depth
    let (pattern,others) ← splitPattern inside none members
    Json.ask o
    match pattern with
    | none => .error ⟨.missingField "pattern".toList,s.stop⟩
    | some pattern => do
      let rules ← (readRules (.object others none s)).mapError fun f => ⟨f.reason,s.stop⟩
      pure (pattern,rules)
  | v => .error (v.refusal "struct RegexEntry")

/-- The fields of rules, given how rules inside them are read: those of names, and those of
patterns. -/
def fields (source : Source) (depth : Nat) (readChild readRules : Draft → Except Flaw Shadow) :
    Fields Shadow where
  label := "struct ShadowFile"
  names :=
    ["permissions","files","inherits","regexEntries","children"].map String.toList
  read name v s :=
    match s with
    | .node permissions files inherits patterns children =>
      if name = "permissions".toList then do
        let permissions ← readGrants depth v
        pure (.node permissions files inherits patterns children)
      else if name = "files".toList then do
        let files ← v.table (readFile source) depth
        pure (.node permissions files inherits patterns children)
      else if name = "inherits".toList then do
        let inherits ← v.flag
        pure (.node permissions files inherits patterns children)
      else if name = "regexEntries".toList then do
        let patterns ← v.list (readPattern readRules) depth
        pure (.node permissions files inherits patterns children)
      else do
        let children ← v.table (fun _ => readChild) depth
        pure (.node permissions files inherits patterns children)

/-- Read rules. Those of a pattern are looked at as a whole before they are read. -/
def read (source : Source) : Nat → Draft → Except Flaw Shadow
  | depth + 2, v =>
    (fields source (depth + 1) (read source depth) (read .buffer depth)).record source empty v
  | depth, v => do
    let _ ← v.inside depth
    .error (v.refusal "struct ShadowFile")

def parse (s : Json.Symbols) : Except Json.Fault Shadow :=
  Json.parse (read .document) s

def ofBytes (bytes : Bytes) : Except Json.Fault Shadow :=
  parse (Text.symbols bytes)

end Shadow
end Realm.Acl
