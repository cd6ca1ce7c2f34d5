import Realm.Position
import Realm.Json.Fault

/-! Errors by cause. The wording shown to a player is given in one place, under each
group of causes, and nothing decides by looking at a wording. -/
namespace Realm

inductive ParseError where
  /-- A token stands where none of its kind may; a token brought in from history has no
  place in the line. -/
  | unexpectedToken (text : Text) (place : Option Position)
  | missingRedirectTarget
  | danglingOperator (operator : Text)
  | unterminatedString (quote : Char) (offset : Nat)
  | unterminatedEscape (offset : Nat)
  | backgroundExecution
  | badFileExpression (segment : Text)
deriving DecidableEq, Repr

/-- A history reference that cannot be resolved; `reference` is the text read so far. -/
inductive HistoryError where
  | eventNotFound (reference : Text)
  | missingModifier (reference : Text)
  | unrecognizedModifier (reference : Text)
  | badWordSpecifier (reference : Text)
  | substitutionFailed (reference : Text)
  | noPreviousSubstitution (modifier : Text)
  | missingDelimiter
deriving DecidableEq, Repr

/-- The reasons for which a host refuses a file operation. -/
inductive HostError where
  | noSuchFile
  | fileExists
  | notADirectory
  | isADirectory
  | directoryNotEmpty
deriving DecidableEq, Repr

inductive FileError where
  | notFound (path : Text)
  | isDirectory
  | notDirectory
  | parentNotFound
  | directoryExists
  | directoryNotEmpty
  | readOnly
  | cannotRemoveRoot
  | pathIsDirectory (path : Text)
  | pathNotDirectory (path : Text)
  | host (cause : HostError)
  /-- A failure that a file system defined elsewhere reports in its own words. -/
  | reported (message : Text)
deriving DecidableEq, Repr

inductive FileErrorKind where
  | notFound
  | alreadyExists
  | notADirectory
  | isADirectory
  | directoryNotEmpty
  | permissionDenied
  | other
deriving DecidableEq, Repr

/-- A mistake in the set-up of a world: options, access rules, mounts. -/
inductive ConfigError where
  | historyLevel (level : Nat)
  | unknownPermission (c : Char) (text : Text)
  | invalidPattern (pattern : Text)
  | inlineChildren (path : Text)
  | beneathPattern (directory : Text)
  | duplicatePattern (path pattern : Text)
  | notAFilePath (path : Text)
  | managerExists
  | alreadyMounted (path : Text)
  | notMounted (path : Text)
  | diskRootMissing
  | fileSystemRegistered (name : Text)
  | securityManagerRegistered (name : Text)
  | unknownFileSystem (name : Text)
  | unknownSecurityManager (name : Text)
deriving DecidableEq, Repr

/-- A broken promise between two parts of the library. -/
inductive InternalError where
  | operatorMissing
  | operatorAtEnd
  | patternNodeStored (path : Text)
deriving DecidableEq, Repr

/-- Everything that can go wrong. -/
inductive Error where
  | parse (cause : ParseError)
  /-- The line ends in a continuation, so that more input is needed. -/
  | incomplete
  | history (cause : HistoryError)
  | file (cause : FileError)
  | json (fault : Json.Fault)
  | config (cause : ConfigError)
  | noMount (path : Text)
  | permissionDenied (action path : Text)
  | internal (cause : InternalError)
deriving DecidableEq, Repr

def inGraves (t : Text) : Text :=
  '\x60' :: t ++ ['\x60']

def badPattern : Text := ": regex parse error".toList

def ParseError.message : ParseError → Text
  | .unexpectedToken text none =>
    "syntax error: near unexpected token ".toList ++ inGraves text
  | .unexpectedToken text (some place) =>
    "syntax error at line ".toList ++ Text.ofNat place.line ++ ", column ".toList ++
      Text.ofNat place.column ++ ": near unexpected token ".toList ++ inGraves text
  | .missingRedirectTarget =>
    "syntax error: near unexpected token ".toList ++ inGraves "newline".toList
  | .danglingOperator operator =>
    "syntax error: unexpected end of input after ".toList ++ inGraves operator
  | .unterminatedString quote offset =>
    "unexpected end of input: unterminated ".toList ++ quote :: " at offset ".toList ++
      Text.ofNat offset
  | .unterminatedEscape offset =>
    "unexpected end of input: unterminated escape at offset ".toList ++ Text.ofNat offset
  | .backgroundExecution => "background execution is not supported".toList
  | .badFileExpression segment =>
    "syntax error: bad file expression ".toList ++ Text.quoted segment ++ badPattern

def HistoryError.message : HistoryError → Text
  | .eventNotFound reference => reference ++ ": event not found".toList
  | .missingModifier reference => reference ++ ": missing history modifier".toList
  | .unrecognizedModifier reference => reference ++ ": unrecognized history modifier".toList
  | .badWordSpecifier reference => reference ++ ": bad word specifier".toList
  | .substitutionFailed reference => reference ++ ": substitution failed".toList
  | .noPreviousSubstitution modifier => modifier ++ ": no previous substitution".toList
  | .missingDelimiter => ":s: missing substitution delimiter".toList

def HostError.number : HostError → Nat
  | .noSuchFile => 2
  | .fileExists => 17
  | .notADirectory => 20
  | .isADirectory => 21
  | .directoryNotEmpty => 39

def HostError.description : HostError → Text
  | .noSuchFile => "No such file or directory".toList
  | .fileExists => "File exists".toList
  | .notADirectory => "Not a directory".toList
  | .isADirectory => "Is a directory".toList
  | .directoryNotEmpty => "Directory not empty".toList

def HostError.message (e : HostError) : Text :=
  e.description ++ " (os error ".toList ++ Text.ofNat e.number ++ ")".toList

def HostError.kind : HostError → FileErrorKind
  | .noSuchFile => .notFound
  | .fileExists => .alreadyExists
  | .notADirectory => .notADirectory
  | .isADirectory => .isADirectory
  | .directoryNotEmpty => .directoryNotEmpty

def FileError.message : FileError → Text
  | .notFound path => path ++ ": not found".toList
  | .isDirectory => "is a directory".toList
  | .notDirectory => "not a directory".toList
  | .parentNotFound => "parent directory not found".toList
  | .directoryExists => "directory exists".toList
  | .directoryNotEmpty => "directory not empty".toList
  | .readOnly => "filesystem is read-only".toList
  | .cannotRemoveRoot => "cannot remove root".toList
  | .pathIsDirectory path => path ++ ": is a directory".toList
  | .pathNotDirectory path => path ++ ": not a directory".toList
  | .host cause => cause.message
  | .reported message => message

def FileError.kind : FileError → FileErrorKind
  | .notFound _ | .parentNotFound => .notFound
  | .directoryExists => .alreadyExists
  | .readOnly | .cannotRemoveRoot => .permissionDenied
  | .host cause => cause.kind
  | .isDirectory | .notDirectory | .directoryNotEmpty | .pathIsDirectory _
  | .pathNotDirectory _ | .reported _ => .other

def ConfigError.message : ConfigError → Text
  | .historyLevel level =>
    "history level must be 0, 1 or 2 (got ".toList ++ Text.ofNat level ++ ")".toList
  | .unknownPermission c text =>
    "unknown permission character '".toList ++ c :: "' in \"".toList ++ text ++ "\"".toList
  | .invalidPattern pattern =>
    "invalid ACL pattern ".toList ++ Text.quoted pattern ++ badPattern
  | .inlineChildren path =>
    path ++ ": inline children are only allowed beneath a regex entry".toList
  | .beneathPattern directory =>
    directory ++ ": lies beneath a regex entry and cannot have its own ACL node".toList
  | .duplicatePattern path pattern =>
    path ++ ": duplicate regex entry ".toList ++ Text.quoted pattern
  | .notAFilePath path => path ++ ": not a file path".toList
  | .managerExists => "a FileManager already exists".toList
  | .alreadyMounted path => path ++ " is already mounted".toList
  | .notMounted path => path ++ " is not mounted".toList
  | .diskRootMissing => "disk mount needs a \"root\" option".toList
  | .fileSystemRegistered name =>
    "filesystem type ".toList ++ Text.quoted name ++ " is already registered".toList
  | .securityManagerRegistered name =>
    "security manager ".toList ++ Text.quoted name ++ " is already registered".toList
  | .unknownFileSystem name => "unknown filesystem type ".toList ++ Text.quoted name
  | .unknownSecurityManager name => "unknown security manager ".toList ++ Text.quoted name

def InternalError.message : InternalError → Text
  | .operatorMissing => "command without an operator in the middle of a chain".toList
  | .operatorAtEnd => "chain ended on an operator".toList
  | .patternNodeStored path => path ++ ": regex nodes are stored with their parent".toList

def Error.message : Error → Text
  | .parse cause => cause.message
  | .incomplete => "incomplete input: line continues".toList
  | .history cause => cause.message
  | .file cause => "io error: ".toList ++ cause.message
  | .json fault => "json error: ".toList ++ fault.message
  | .config cause => "configuration error: ".toList ++ cause.message
  | .noMount path => "no filesystem mounted for ".toList ++ path
  | .permissionDenied action path => "permission denied: ".toList ++ action ++ ' ' :: path
  | .internal cause => "internal error: ".toList ++ cause.message

def Error.isParse : Error → Bool
  | .parse _ => true
  | _ => false

def Error.isHistory : Error → Bool
  | .history _ => true
  | _ => false

end Realm
