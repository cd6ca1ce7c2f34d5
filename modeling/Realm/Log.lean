import Realm.Text.Blank
import Realm.Text.Class
import Realm.Text.Uppercase

/-! What of a player's input may be written to a log: lines and values cannot forge other
log lines, long ones are cut, and values under names that sound secret are left out. -/
namespace Realm.Log

/-- What is written to the log. -/
structure Config where
  redactSensitive : Bool := true
  /-- Parts of names whose values are left out, in upper case. -/
  sensitiveNames : List Text :=
    ["PASSWORD","PASSWD","SECRET","TOKEN","KEY","CREDENTIAL","AUTH"].map String.toList
  /-- Whether lines are written out rather than counted. -/
  logCommandLines : Bool := false
  /-- Bytes of a value that are written at most. -/
  maxValueLength : Nat := 200

def Config.redact (c : Config) (part : Text) : Config :=
  { c with sensitiveNames := Text.toUpper part :: c.sensitiveNames }

def Config.isSensitive (c : Config) (name : Text) : Bool :=
  c.redactSensitive && c.sensitiveNames.any fun part => Text.contains part (Text.toUpper name)

/-- Cut a value behind the last character that fits, and note how much is missing. -/
def Config.truncate (c : Config) (value : Text) : Text :=
  if Text.byteSize value ≤ c.maxValueLength then value
  else
    let kept := Text.takeBytes c.maxValueLength value
    kept ++ "...[truncated ".toList ++
      Text.ofNat (Text.byteSize value - Text.byteSize kept) ++ " bytes]".toList

def Config.variable (c : Config) (name value : Text) : Text :=
  if c.isSensitive name then "[REDACTED]".toList else c.truncate value

/-- One character of a log line: line breaks and tabs by name, other controls not at
all. -/
def sanitizeChar (c : Char) : Text :=
  if c = '\n' then ['\\','n']
  else if c = '\r' then ['\\','r']
  else if c = '\t' then ['\\','t']
  else if Text.isControl c then []
  else [c]

/-- The text with nothing that could begin another log line. -/
def sanitize (t : Text) : Text :=
  t.flatMap sanitizeChar

def Config.line (c : Config) (line : Text) : Text :=
  if c.logCommandLines then c.truncate (sanitize line)
  else "[line: ".toList ++ Text.ofNat (Text.byteSize line) ++ " bytes]".toList

end Realm.Log
