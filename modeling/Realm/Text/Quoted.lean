import Realm.Text.Unprintable

/-! Quoted text for messages: double quotes around it, so that a reader sees where a
name begins and ends, and an escape for each character that would not show as itself. -/
namespace Realm.Text

def hex (n : Nat) : Text :=
  Nat.toDigits 16 n

def escapeQuoted (c : Char) : Text :=
  if c = '"' then ['\\','"']
  else if c = '\\' then ['\\','\\']
  else if c = '\n' then ['\\','n']
  else if c = '\r' then ['\\','r']
  else if c = '\t' then ['\\','t']
  else if c.toNat = 0 then ['\\','0']
  else if isUnprintable c then ['\\','u','\x7b'] ++ hex c.toNat ++ ['\x7d']
  else [c]

def quoted (t : Text) : Text :=
  '"' :: t.flatMap escapeQuoted ++ ['"']

end Realm.Text
