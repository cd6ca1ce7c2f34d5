import Realm.Acl.Node
import Realm.FileSystem

/-! The access engine: what an identity may do at a path, and how that is changed. The tree
of nodes is read from shadow files as far as it is needed, kept, and written back when it
changes. Nodes that have been kept stay kept when an operation ends in an error. -/
namespace Realm.Acl

/-- The fixed parts of an engine. -/
structure Engine (σ : Type) where
  /-- Where the shadow files are. -/
  shadow : FileSystem σ
  /-- The directory of the shadow files on it, in normal form. -/
  shadowRoot : Text := ['/']
  groups : Groups := fun _ _ => false
  /-- The grants of a directory that has no node yet. -/
  source : Text → Grants := fun _ => []

/-- The tree of nodes as far as it is kept. -/
abbrev Cache := Option Node

abbrev Visit (σ α : Type) := Action (Node × σ) α

namespace Visit

variable {σ α : Type}

def node : Visit σ Node := do
  let s ← get
  pure s.1

def put (n : Node) : Visit σ Unit :=
  modify fun s => (n,s.2)

def outside (step : Action σ α) : Visit σ α := fun (n,w) =>
  let (r,w) := step w
  (r,(n,w))

def child (name : Text) (c : Node) (visit : Visit σ α) : Visit σ α := fun (n,w) =>
  let (r,(c,w)) := visit (c,w)
  (r,(n.withChild name c,w))

/-- Visit a node that is stored with the one visited. No visit to ask for permissions
changes it. -/
def inner (c : Node) (visit : Visit σ α) : Visit σ α := fun (n,w) =>
  let (r,(_,w)) := visit (c,w)
  (r,(n,w))

end Visit

def Groups.ofTable (t : Table Text (List Text)) : Groups := fun identity group =>
  ((Table.get? group t).getD []).contains identity

/-- A change of the rules of a directory. -/
inductive Change where
  /-- Replace what a key grants; an empty permission takes the key away. -/
  | grant (key : Text) (p : Permission)
  | inherit (on : Bool)
  | addPattern (pattern : Text) (permissions : Grants) (inherits : Bool)
  /-- Have an entry for a file. -/
  | touch (file : Text)
  | grantFile (file key : Text) (p : Permission)
  | inheritFile (file : Text) (on : Bool)

def Grants.grant (key : Text) (p : Permission) (g : Grants) : Grants :=
  if p = Permission.empty then Table.erase key g else Table.insert key p g

/-- Change the entry of a file, which is made if there is none. -/
def changeFile (file : Text) (change : FileEntry → FileEntry) (n : Node) : Node :=
  n.withFiles (Table.insert file (change ((Table.get? file n.files).getD {})) n.files)

def Change.apply (n : Node) : Change → Except Error Node
  | grant key p => .ok (n.withPermissions (Grants.grant key p n.permissions))
  | inherit on => .ok (n.withInherits on)
  | addPattern pattern permissions inherits =>
    if n.patterns.any (·.name = pattern) then
      .error (.config (.duplicatePattern n.path pattern))
    else
      (Node.ofPattern n pattern permissions inherits).map fun c =>
        n.withPatterns (n.patterns ++ [c])
  | touch file => .ok (if Table.contains file n.files then n else changeFile file id n)
  | grantFile file key p =>
    .ok (changeFile file (fun f => { f with permissions := Grants.grant key p f.permissions }) n)
  | inheritFile file on => .ok (changeFile file (fun f => { f with inherits := on }) n)

namespace Engine

variable {σ α : Type}

def shadowPath (e : Engine σ) (dir : Text) : Text :=
  let base :=
    if dir = ['/'] then e.shadowRoot
    else if e.shadowRoot = ['/'] then dir
    else e.shadowRoot ++ dir
  Path.child base ".acl".toList

/-- Read the node of a directory from its shadow file, if it has one. -/
def load (e : Engine σ) (dir : Text) (depth : Nat) (name : Text) : Action σ (Option Node) := do
  let file := e.shadowPath dir
  if ← e.shadow.has file then
    let bytes ← e.shadow.read file
    match Shadow.ofBytes bytes with
    | .error fault => throw (.json fault)
    | .ok s =>
      match Node.ofShadow dir depth name s with
      | .error err => throw err
      | .ok n => pure (some n)
  else pure none

def persist (e : Engine σ) (n : Node) : Action σ Unit := do
  if n.isSpecial then throw (.internal (.patternNodeStored n.path))
  else
    let file := e.shadowPath n.path
    e.shadow.makeDir (Path.parent file) true
    e.shadow.write file n.toShadow.toBytes

/-- The child of a name, which is read if it is not kept yet. -/
def child? (e : Engine σ) (name : Text) : Visit σ (Option Node) := do
  let n ← Visit.node
  match Table.get? name n.children with
  | some c => pure (some c)
  | none =>
    if n.isSpecial then pure none
    else
      match ← Visit.outside (e.load (Path.child n.path name) (n.depth + 1) name) with
      | some c => do
        Visit.put (n.withChild name c)
        pure (some c)
      | none => pure none

def create (e : Engine σ) (name : Text) : Visit σ Node := do
  let n ← Visit.node
  let dir := Path.child n.path name
  let c := Node.new dir (n.depth + 1) name (e.source dir)
  Visit.outside (e.persist c)
  Visit.put (n.withChild name c)
  pure c

/-- Go down through some names, gathering what an identity may do. At each name the node of
that very name comes first, then the patterns, then the files. A directory that lies on the
way and has no node gets one. -/
def resolve (e : Engine σ) (identity : Text) :
    List Text → Bindings → Permission → Visit σ Permission
  | [], _, total => pure total
  | name :: names, bindings, total => do
    match ← e.child? name with
    | some c =>
      Visit.child name c
        (resolve e identity names bindings (c.apply e.groups bindings identity total))
    | none => do
      let n ← Visit.node
      match n.match? name with
      | some (_,c,bound) =>
        let bindings := Table.insertAll bound bindings
        Visit.inner c
          (resolve e identity names bindings (c.apply e.groups bindings identity total))
      | none =>
        match Table.get? name n.files with
        | some f => pure (f.apply e.groups bindings identity total)
        | none =>
          if names.isEmpty || n.isSpecial then pure total
          else do
            let c ← e.create name
            Visit.child name c
              (resolve e identity names bindings (c.apply e.groups bindings identity total))

/-- Visit the node of a directory, reading nodes on the way. A missing node ends the visit
with the result `absent`; without one it is made. -/
def visitDirectory (e : Engine σ) (dir : Text) (absent : Option α) (visit : Visit σ α) :
    List Text → Visit σ α
  | [] => visit
  | name :: names => do
    let n ← Visit.node
    if n.isSpecial then throw (.config (.beneathPattern dir))
    else
      match ← e.child? name with
      | some c => Visit.child name c (visitDirectory e dir absent visit names)
      | none =>
        match absent with
        | some a => pure a
        | none => do
          let c ← e.create name
          Visit.child name c (visitDirectory e dir absent visit names)

/-- Visit the top of the tree, which is read or made when it is needed first. -/
def visitTop (e : Engine σ) (visit : Visit σ α) : Action (Cache × σ) α := fun (cache,w) =>
  let go (n : Node) (w : σ) :=
    let (r,(n,w)) := visit (n,w)
    (r,(some n,w))
  match cache with
  | some n => go n w
  | none =>
    match e.load ['/'] 0 [] w with
    | (.error err,w) => (.error err,(none,w))
    | (.ok (some n),w) => go n w
    | (.ok none,w) => go (Node.new ['/'] 0 [] (e.source ['/'])) w

/-- All that an identity may do at a path. -/
def effective (e : Engine σ) (path identity : Text) : Action (Cache × σ) Permission :=
  e.visitTop do
    let n ← Visit.node
    e.resolve identity (Path.segments path) [] (n.lookup e.groups [] identity)

def check (e : Engine σ) (path identity : Text) (required : Permission) :
    Action (Cache × σ) Bool := do
  let p ← e.effective path identity
  pure (p.allows required)

/-- Change the rules of a directory and store them. The result is the node before. -/
def update (e : Engine σ) (dir : Text) (change : Change) : Action (Cache × σ) Node :=
  let visit : Visit σ Node := do
    let n ← Visit.node
    match change.apply n with
    | .error err => throw err
    | .ok n' => do
      Visit.put n'
      Visit.outside (e.persist n')
      pure n
  e.visitTop (e.visitDirectory (Path.normalize dir) none visit (Path.segments dir))

def splitFile (file : Text) : Except Error (Text × Text) :=
  match Path.fileName (Path.normalize file) with
  | [] => .error (.config (.notAFilePath (Path.normalize file)))
  | name => .ok (Path.parent (Path.normalize file),name)

/-- Change the rules of a file and store them. The result is the node of its directory
before. -/
def updateFile (e : Engine σ) (file : Text) (change : Text → Change) :
    Action (Cache × σ) Node := do
  match splitFile file with
  | .error err => throw err
  | .ok (dir,name) => e.update dir (change name)

/-- Have an entry for a file; the result says whether there was none. -/
def touchFile (e : Engine σ) (file : Text) : Action (Cache × σ) Bool := do
  let before ← e.updateFile file .touch
  pure (!Table.contains (Path.fileName (Path.normalize file)) before.files)

/-! Descriptions. -/

def line (indent : Nat) (text : Text) : Text :=
  List.replicate (2 * indent) ' ' ++ text ++ ['\n']

def describeFlag (b : Bool) : Text :=
  " inherits=".toList ++ (if b then "true" else "false").toList

def describeGrants (indent : Nat) (g : Grants) : Text :=
  g.flatMap fun (key,p) => line indent (key ++ ':' :: ' ' :: p.toText)

mutual

def describeNode (indent : Nat) : Node → Text
  | .mk path _ name permissions files inherits isSpecial pattern patterns children =>
    line indent
      ((if pattern.isSome then name ++ " (regex)".toList else path) ++ describeFlag inherits) ++
    describeGrants (indent + 1) permissions ++
    files.flatMap (fun (file,f) =>
      line (indent + 1) ("file ".toList ++ file ++ describeFlag f.inherits) ++
      describeGrants (indent + 2) f.permissions) ++
    describePatterns (indent + 1) patterns ++
    (if isSpecial then describeChildren (indent + 1) children else [])

def describePatterns (indent : Nat) : List Node → Text
  | [] => []
  | n :: ns => describeNode indent n ++ describePatterns indent ns

def describeChildren (indent : Nat) : List (Text × Node) → Text
  | [] => []
  | (_,n) :: ns => describeNode indent n ++ describeChildren indent ns

end

def describe (e : Engine σ) (dir : Text) : Action (Cache × σ) Text :=
  let absent := Path.normalize dir ++ ": no ACL node\n".toList
  let visit : Visit σ Text := do
    let n ← Visit.node
    pure (describeNode 0 n)
  e.visitTop (e.visitDirectory (Path.normalize dir) (some absent) visit (Path.segments dir))

/-- Forget the tree; it is read anew when it is needed next. -/
def clearCache : Action (Cache × σ) Unit :=
  modify fun s => (none,s.2)

end Engine
end Realm.Acl
