import Realm.Acl.Shadow
import Realm.Path
import Realm.Regex

/-! Nodes of the access tree: the rules of a directory at its place in the tree, with the
nodes below it that have been read. -/
namespace Realm.Acl

/-- Whether an identity belongs to a group. -/
abbrev Groups := Text → Text → Bool

/-- What the patterns on the way to a place have captured. -/
abbrev Bindings := Table Text Text

def everyone : Text := "$EVERYONE".toList

/-- The name under which the whole of a matched name is bound. -/
def wholeName : Text := "token".toList

/-- Whether a key of some grants is meant for an identity: everyone, the group or the
identity that is bound to a name, a group, or an identity by its name. -/
def keyApplies (groups : Groups) (bindings : Bindings) (identity key : Text) : Bool :=
  if key = everyone then true
  else
    match key with
    | '$' :: '%' :: name => ((bindings.get? name).map (groups identity ·)).getD false
    | '%' :: name => bindings.get? name = some identity
    | '$' :: group => groups identity group
    | key => key = identity

def granted (groups : Groups) (bindings : Bindings) (identity : Text) (g : Grants) :
    Permission :=
  ((g.filter fun e => keyApplies groups bindings identity e.1).map (·.2)).foldl
    Permission.union Permission.empty

/-- Put grants of a place on top of what is granted above it. -/
def layer (inherits : Bool) (total own : Permission) : Permission :=
  if inherits then total.union own else own

/-- A directory in the access tree. Patterns are expressions of type `R`. -/
inductive Node (R : Type := Pattern) where
  /-- Its path, depth and name, its rules, whether it lies at or below a pattern, the
  pattern if it stands for all names that match one, the nodes of the patterns in it in
  their order, and the nodes of its directories as far as they have been read. -/
  | mk (path : Text) (depth : Nat) (name : Text) (permissions : Grants)
    (files : Table Text FileEntry) (inherits : Bool) (isSpecial : Bool)
    (pattern : Option R) (patterns : List (Node R)) (children : List (Text × Node R))

namespace Node

variable {R : Type}

def path : Node R → Text
  | mk p _ _ _ _ _ _ _ _ _ => p

def depth : Node R → Nat
  | mk _ d _ _ _ _ _ _ _ _ => d

/-- The last segment of its path, or the text of its pattern. -/
def name : Node R → Text
  | mk _ _ n _ _ _ _ _ _ _ => n

def permissions : Node R → Grants
  | mk _ _ _ g _ _ _ _ _ _ => g

def files : Node R → Table Text FileEntry
  | mk _ _ _ _ f _ _ _ _ _ => f

def inherits : Node R → Bool
  | mk _ _ _ _ _ i _ _ _ _ => i

/-- Whether it is stored with a directory above it, being at or below a pattern. -/
def isSpecial : Node R → Bool
  | mk _ _ _ _ _ _ s _ _ _ => s

def pattern : Node R → Option R
  | mk _ _ _ _ _ _ _ p _ _ => p

def patterns : Node R → List (Node R)
  | mk _ _ _ _ _ _ _ _ ps _ => ps

def children : Node R → Table Text (Node R)
  | mk _ _ _ _ _ _ _ _ _ cs => cs

/-- A directory of which only its own grants are known. -/
def new (path : Text) (depth : Nat) (name : Text) (permissions : Grants) : Node R :=
  mk path depth name permissions [] true false none [] []

def withPermissions (permissions : Grants) : Node R → Node R
  | mk p d n _ f i s pt ps cs => mk p d n permissions f i s pt ps cs

def withFiles (files : Table Text FileEntry) : Node R → Node R
  | mk p d n g _ i s pt ps cs => mk p d n g files i s pt ps cs

def withInherits (inherits : Bool) : Node R → Node R
  | mk p d n g f _ s pt ps cs => mk p d n g f inherits s pt ps cs

def withPatterns (patterns : List (Node R)) : Node R → Node R
  | mk p d n g f i s pt _ cs => mk p d n g f i s pt patterns cs

def withChild (parent : Node R) (name : Text) (child : Node R) : Node R :=
  match parent with
  | mk p d n g f i s pt ps cs => mk p d n g f i s pt ps (Table.insert name child cs)

section Reading

variable [Regex R]

/-- The pattern of a rule: it has to match a name as a whole. -/
def compilePattern (pattern : Text) : Except Error R :=
  match Regex.compile ("^(?:".toList ++ pattern ++ ")$".toList) with
  | some p => .ok p
  | none => .error (.config (.invalidPattern pattern))

/-- A node for the names in a directory that match a pattern. -/
def ofPattern (parent : Node R) (pattern : Text) (permissions : Grants) (inherits : Bool) :
    Except Error (Node R) := do
  let p ← compilePattern pattern
  pure (mk (Path.child parent.path pattern) (parent.depth + 1) pattern permissions [] inherits
    true (some p) [] [])

mutual

/-- The node with given rules at a place. Rules of single names inside a directory are
stored with it only at or below a pattern. -/
def build (path : Text) (depth : Nat) (name : Text) (isSpecial : Bool)
    (pattern : Option R) : Shadow → Except Error (Node R)
  | .node permissions files inherits patterns children => do
    let ps ← buildPatterns path (depth + 1) patterns
    if !children.isEmpty && !isSpecial then .error (.config (.inlineChildren path))
    else do
      let cs ← buildChildren path (depth + 1) children
      pure (mk path depth name permissions files inherits isSpecial pattern ps cs)

def buildPatterns (parent : Text) (depth : Nat) :
    List (Text × Shadow) → Except Error (List (Node R))
  | [] => .ok []
  | (pattern,s) :: rest => do
    let p ← compilePattern pattern
    let n ← build (Path.child parent pattern) depth pattern true (some p) s
    let ns ← buildPatterns parent depth rest
    pure (n :: ns)

def buildChildren (parent : Text) (depth : Nat) :
    List (Text × Shadow) → Except Error (List (Text × Node R))
  | [] => .ok []
  | (name,s) :: rest => do
    let n ← build (Path.child parent name) depth name true none s
    let ns ← buildChildren parent depth rest
    pure ((name,n) :: ns)

end

/-- The node of a directory with a shadow file of its own. -/
def ofShadow (path : Text) (depth : Nat) (name : Text) (s : Shadow) : Except Error (Node R) :=
  build path depth name false none s

end Reading

mutual

/-- The rules that are stored with a node. Directories with shadow files of their own are
left out. -/
def toShadow : Node R → Shadow
  | mk _ _ _ permissions files inherits isSpecial _ patterns children =>
    .node permissions files inherits (patternShadows patterns)
      (if isSpecial then childShadows children else [])

def patternShadows : List (Node R) → List (Text × Shadow)
  | [] => []
  | n :: ns => (n.name,toShadow n) :: patternShadows ns

def childShadows : List (Text × Node R) → List (Text × Shadow)
  | [] => []
  | (name,n) :: ns => (name,toShadow n) :: childShadows ns

end

section Matching

variable [Regex R]

/-- What a pattern captures from a name: the whole of it, and what its named parts
match. -/
def capture (p : R) (segment : Text) : Option Bindings :=
  (Regex.captures? p segment).map fun found => Table.insertAll found [(wholeName,segment)]

/-- The first of some nodes whose pattern matches a name, its place, and what it binds. -/
def firstMatch (segment : Text) : List (Node R) → Option (Nat × Node R × Bindings)
  | [] => none
  | n :: ns =>
    match n.pattern.bind (capture · segment) with
    | some bound => some (0,n,bound)
    | none => (firstMatch segment ns).map fun r => (r.1 + 1,r.2)

/-- The first pattern in a directory that matches a name. -/
def match? (n : Node R) (segment : Text) : Option (Nat × Node R × Bindings) :=
  firstMatch segment n.patterns

end Matching

def lookup (n : Node R) (groups : Groups) (bindings : Bindings) (identity : Text) : Permission :=
  granted groups bindings identity n.permissions

def apply (n : Node R) (groups : Groups) (bindings : Bindings) (identity : Text)
    (total : Permission) : Permission :=
  layer n.inherits total (n.lookup groups bindings identity)

end Node

def FileEntry.lookup (f : FileEntry) (groups : Groups) (bindings : Bindings) (identity : Text) :
    Permission :=
  granted groups bindings identity f.permissions

def FileEntry.apply (f : FileEntry) (groups : Groups) (bindings : Bindings) (identity : Text)
    (total : Permission) : Permission :=
  layer f.inherits total (f.lookup groups bindings identity)

end Realm.Acl
