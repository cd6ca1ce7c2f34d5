import Realm.Command
import Realm.Json

/-! Commands as JSON. What is not there is left out. -/
namespace Realm

def Token.Kind.label : Token.Kind → Text
  | .word => "Word".toList
  | .numeric => "Numeric".toList
  | .blank => "Whitespace".toList
  | .operator => "Operator".toList
  | .string => "String".toList
  | .variable => "Variable".toList
  | .alias => "Alias".toList
  | .history => "History".toList
  | .substitution => "HistorySubstitution".toList
  | .member => "MemberAccess".toList
  | .backtick => "Backtick".toList

def Token.Source.label : Token.Source → Text
  | .input => "Input".toList
  | .history => "History".toList

def Operator.label : Operator → Text
  | .sequence => "Sequence".toList
  | .and => "And".toList
  | .or => "Or".toList
  | .pipe => "Pipe".toList
  | .pipeAll => "PipeAll".toList

def PipeTarget.label : PipeTarget → Text
  | .output => "Stdout".toList
  | .outputAndMessages => "StdoutAndStderr".toList

def Redirect.Kind.label : Redirect.Kind → Text
  | .input => "Input".toList
  | .output => "Output".toList
  | .append => "Append".toList

def Command.Kind.label : Command.Kind → Text
  | .game => "MudCommand".toList
  | .shell => "ShellCommand".toList
  | .expression => "ExpressionCommand".toList

namespace Json

def optional (name : String) : Option Json → List (Text × Json)
  | some v => [(name.toList,v)]
  | none => []

/-- A member for a list, unless the list is empty. -/
def listed (name : String) (vs : List Json) : List (Text × Json) :=
  if vs.isEmpty then [] else [(name.toList,.array vs)]

end Json

def Token.toJson (t : Token) : Json :=
  .object
    ([("token_type".toList,.string t.kind.label),("value".toList,.string t.value),
      ("source".toList,.string t.source.label),("start".toList,.number t.start),
      ("end".toList,.number t.stop),("complete".toList,.bool true)] ++
      Json.optional "redirect_target" (t.redirectTarget.map .string))

def Redirect.toJson (r : Redirect) : Json :=
  .object [("kind".toList,.string r.kind.label),("target".toList,.string r.target)]

/-- The members of a command, around those that join it to others. -/
def Command.members (c : Command) (joins : List (Text × Json)) : List (Text × Json) :=
  [("verb".toList,.string c.verb),("args".toList,.array (c.args.map .string)),
    ("tokens".toList,.array (c.tokens.map Token.toJson)),
    ("cmd_type".toList,.string c.kind.label)] ++
    joins ++
    Json.listed "redirects" (c.redirects.map Redirect.toJson) ++
    Json.listed "glob_args" (c.globArgs.map fun (i : Nat) => .number i)

def Command.toJson (c : Command) : Json :=
  .object (c.members [])

namespace CommandTree

mutual

def toJson : CommandTree → Json
  | .node c operator pipeTarget conditions alternate successor =>
    .object (c.members
      (Json.optional "operator" (operator.map fun o => .string o.label) ++
        Json.listed "conditions" (allToJson conditions) ++
        Json.optional "alternate" (optToJson alternate) ++
        Json.optional "next_command" (optToJson successor) ++
        Json.optional "pipe_target" (pipeTarget.map fun p => .string p.label)))

def allToJson : List CommandTree → List Json
  | [] => []
  | t :: ts => toJson t :: allToJson ts

def optToJson : Option CommandTree → Option Json
  | none => none
  | some t => some (toJson t)

end

end CommandTree
end Realm
