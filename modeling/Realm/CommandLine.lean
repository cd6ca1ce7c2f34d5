import Realm.Command.Json
import Realm.CommandLine.Arguments
import Realm.Shell
import Realm.World

/-! The program on a command line: shows the tokens and the tree of a line, answers what an
identity may do at a path, and reads lines as a session does. -/
namespace Realm.CommandLine

/-- How lines are to be read, as it is given by arguments. -/
structure LineOptions where
  restricted : Bool
  aliases : List Text
  assignments : List Text
  history : List Text

inductive Request where
  | tokens (line : Text) (options : LineOptions)
  | parse (line : Text) (options : LineOptions)
  /-- What `user` may do at `path`, by the shadow files in a directory of the host. -/
  | acl (shadow user : Text) (groups : List Text) (path : Text)
  /-- Read lines; file expressions are expanded if a directory of the host is given. -/
  | shell (root : Option Text) (identity : Text) (options : LineOptions)

def Request.directory? : Request → Option Text
  | tokens _ _ | parse _ _ => none
  | acl shadow _ _ _ => some shadow
  | shell root _ _ => root

def Request.readsInput : Request → Bool
  | shell _ _ _ => true
  | _ => false

structure Outcome where
  code : Nat := 0
  output : Text := []
  errors : Text := []

/-! Requests. -/

/-- The arguments that say how lines are to be read, with those of a command. -/
def lineSignature (s : Signature) : Signature :=
  { s with
    flags := "restricted".toList :: s.flags
    repeated := ["alias","var","history"].map String.toList ++ s.repeated }

def lineOptions (a : Arguments) : LineOptions where
  restricted := a.has "restricted"
  aliases := a.all "alias"
  assignments := a.all "var"
  history := a.all "history"

def readTokens (arguments : List Text) : Except Refusal Request := do
  let a ← (lineSignature { operands := 1 }).read arguments
  let line ← a.operand
  pure (.tokens line (lineOptions a))

def readParse (arguments : List Text) : Except Refusal Request := do
  let a ← (lineSignature { operands := 1 }).read arguments
  let line ← a.operand
  pure (.parse line (lineOptions a))

def readAcl (arguments : List Text) : Except Refusal Request := do
  let s : Signature :=
    { single := ["shadow","user"].map String.toList
      repeated := ["group".toList]
      paths := ["shadow".toList]
      operands := 1 }
  let a ← s.read arguments
  let shadow ← a.require "shadow"
  let user ← a.require "user"
  let path ← a.operand
  pure (.acl shadow user (a.all "group") path)

def readShell (arguments : List Text) : Except Refusal Request := do
  let s := lineSignature
    { single := ["root","identity"].map String.toList
      paths := ["root".toList] }
  let a ← s.read arguments
  pure (.shell (a.value? "root") ((a.value? "identity").getD "guest".toList) (lineOptions a))

def commands : List (Text × (List Text → Except Refusal Request)) :=
  [("tokens".toList,readTokens),("parse".toList,readParse),("acl".toList,readAcl),
    ("shell".toList,readShell)]

def isHelpTopic (arguments : List Text) : Bool :=
  match arguments with
  | [] => true
  | [name] => name = "help".toList || (commands.lookup name).isSome
  | _ => false

def readRequest : List Text → Except Refusal Request
  | [] => .error .usage
  | name :: arguments =>
    match commands.lookup name with
    | some read => read arguments
    | none =>
      if name = "help".toList ∧ isHelpTopic arguments then .error .help
      else
        match Argument.classify name with
        | .short ('h' :: _) => .error .help
        | .short ('V' :: _) => .error .version
        | .long name none =>
          if name = "help".toList then .error .help
          else if name = "version".toList then .error .version
          else .error .usage
        | _ => .error .usage

/-! Failures. -/

/-- A failure of the program: what failed, and the errors behind it, the outer ones
first. -/
structure Failure where
  message : Text
  causes : List Text := []

/-- An error in words, and once more the words of the part that it wraps. -/
def wordings (e : Error) : List Text :=
  match e with
  | .file cause => [e.message,cause.message]
  | .json fault => [e.message,fault.message]
  | e => [e.message]

def Failure.while (doing : String) (e : Error) : Failure :=
  ⟨doing.toList,wordings e⟩

def Failure.of (e : Error) : Failure :=
  match wordings e with
  | [] => ⟨[],[]⟩
  | message :: causes => ⟨message,causes⟩

def indent (first further text : Text) : Text :=
  first ++ Text.replaceAll ['\n'] ('\n' :: further) text

/-- The lines that tell of a cause; several causes are numbered. -/
def causeLines (several : Bool) (i : Nat) (cause : Text) : Text :=
  let margin := List.replicate 4 ' '
  if several then
    indent (margin ++ Text.ofNat i ++ [':',' ']) (margin ++ List.replicate 3 ' ') cause
  else indent margin margin cause

def Failure.report (f : Failure) : Text :=
  let causes := f.causes.zipIdx.flatMap fun (cause,i) =>
    '\n' :: causeLines (1 < f.causes.length) i cause
  "Error: ".toList ++ f.message ++
    (if f.causes.isEmpty then [] else "\n\nCaused by:".toList ++ causes) ++ ['\n']

def Failure.outcome (f : Failure) : Outcome where
  code := 1
  errors := f.report

/-- The name and the value on the two sides of the first equals sign. -/
def splitPair (text : Text) : Except Failure (Text × Text) :=
  match Text.splitFirst? '=' text with
  | some (c :: name,value) => .ok (c :: name,value)
  | _ => .error ⟨"expected NAME=VALUE, got ".toList ++ Text.quoted text,[]⟩

/-! Doing. -/

abbrev Task (α : Type) := ExceptT Failure (StateM World) α

def LineOptions.resolve (o : LineOptions) : Except Failure (Options World) := do
  let aliases ← o.aliases.mapM splitPair
  let environment ← o.assignments.mapM splitPair
  pure {
    toGrammar := if o.restricted then Grammar.restricted else {}
    aliases := Table.ofList aliases
    environment := Table.ofList (environment.map fun (name,value) => (name,.plain value))
    history := o.history }

def attempt {α : Type} (describe : Error → Failure) (step : Action World α) : Task α := fun w =>
  let (r,w) := step w
  (r.mapError describe,w)

def println (t : Text) : Text := t ++ ['\n']

def showTokens (line : Text) (o : LineOptions) : Task Text := do
  let options ← ExceptT.mk (pure o.resolve)
  match tokenize options line with
  | .error e => throw (.while "Failed to tokenize line" e)
  | .ok tokens =>
    pure (tokens.flatMap fun t => println (t.kind.label ++ ' ' :: Text.quoted t.value))

def showTree (line : Text) (o : LineOptions) : Task Text := do
  let options ← ExceptT.mk (pure o.resolve)
  let parsed ← attempt (.while "Failed to parse line")
    (ExceptT.mk (parseLine line options (fun _ => none) none))
  let json :=
    match parsed.tree with
    | some t => t.toJson
    | none => .null
  pure (println json.pretty)

def groupsOf (pairs : List (Text × Text)) : Acl.Groups := fun identity group =>
  pairs.contains (group,identity)

def showPermissions (shadow user : Text) (groups : List Text) (path : Text) : Task Text := do
  let w ← get
  let root := w.hostPlace shadow
  if !w.host.isDirectory root then
    throw ⟨"shadow directory not found: ".toList ++ shadow,[]⟩
  let pairs ← ExceptT.mk (pure (groups.mapM splitPair))
  let engine : Acl.Engine World :=
    { shadow := World.disk root false, groups := groupsOf pairs }
  let cache ← ExceptT.lift World.newCache
  let p ← attempt
    (.while (String.ofList ("Failed to resolve permissions for ".toList ++ path)))
    (cache.runBeside (engine.effective path user))
  pure (println (path ++ ':' :: ' ' :: p.toText))

def linesOf (input : Bytes) : List Bytes :=
  go [] input
where
  go (line : Bytes) : Bytes → List Bytes
    | [] => if line.isEmpty then [] else [line.reverse]
    | b :: bs =>
      if b = 10 then (if line.head? = some 13 then line.tail else line).reverse :: go [] bs
      else go (b :: line) bs

/-- Take in the lines of a session one by one, and tell what each of them means. -/
def session (m : Option (FileManager World)) : Shell World → Outcome → List Bytes →
    StateM World Outcome
  | _, told, [] => pure told
  | shell, told, line :: lines => do
    let fail (f : Failure) : StateM World Outcome :=
      pure { told with code := 1, errors := told.errors ++ f.report }
    match Text.decode? line with
    | none =>
      fail ⟨"Failed to read stdin".toList,["stream did not contain valid UTF-8".toList]⟩
    | some line => do
      match ← shell.process line with
      | (.ok .empty,shell) | (.ok .incomplete,shell) => session m shell told lines
      | (.ok (.printOnly text),shell) =>
        session m shell { told with output := told.output ++ println text } lines
      | (.error e,shell) =>
        session m shell { told with errors := told.errors ++ println (shell.formatError e) } lines
      | (.ok (.command t),shell) => do
        let expanded ←
          match m with
          | some m => (shell.expandFileExpressions m t).run
          | none => pure (.ok t)
        match expanded with
        | .error e => fail (.of e)
        | .ok t =>
          session m shell { told with output := told.output ++ println t.toJson.compact } lines

def runShell (root : Option Text) (identity : Text) (o : LineOptions) (input : Bytes) :
    StateM World Outcome := do
  match o.resolve with
  | .error f => pure f.outcome
  | .ok options => do
    let w ← get
    let mount (root : Text) : Mount World :=
      ⟨World.disk (w.hostPlace root) true,.permissive true⟩
    let manager : Option (FileManager World) := root.map fun root => ⟨[(['/'],mount root)]⟩
    let options := { options with expandFileExpressions := manager.isSome }
    session manager { identity, options } {} (linesOf input)

def perform (input : Bytes) (r : Request) : StateM World Outcome :=
  let tell (task : Task Text) : StateM World Outcome := do
    match ← task.run with
    | .ok output => pure { output }
    | .error f => pure f.outcome
  match r with
  | .tokens line o => tell (showTokens line o)
  | .parse line o => tell (showTree line o)
  | .acl shadow user groups path => tell (showPermissions shadow user groups path)
  | .shell root identity o => runShell root identity o input

def usage : Text :=
  "Usage: mudkit <tokens|parse|acl|shell> [OPTIONS] [LINE|PATH]\n".toList

def Refusal.outcome : Refusal → Outcome
  | usage => { code := 2, errors := "error: bad arguments\n\n".toList ++ CommandLine.usage }
  | help => { output := CommandLine.usage }
  | version => { output := "mudkit 0.1.0\n".toList }

/-- Run the program with some arguments and an input. -/
def run (arguments : List Text) (input : Bytes) : StateM World Outcome :=
  match readRequest arguments with
  | .error r => pure r.outcome
  | .ok r => perform input r

end Realm.CommandLine
