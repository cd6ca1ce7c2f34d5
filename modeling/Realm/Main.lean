import Realm.CommandLine

/-! The program itself: looks at the directory that the arguments name, runs the request on
what is there, and writes back what has changed. -/
namespace Realm.Main

open CommandLine

/-- Take what lies at and below a path of the host into a tree. Of files only shadow files
are read; the others are never looked into. -/
partial def load (path : String) (place : List Text) (isDirectory : Bool) (t : FileTree) :
    IO FileTree := do
  if isDirectory then
    let real ← IO.FS.realPath path
    let mut t := t.insert place FileTree.Entry.directory
    for e in ← real.readDir do
      let kind := (← e.path.symlinkMetadata).type
      t ← load e.path.toString (place ++ [e.fileName.toList]) (kind matches .dir) t
    return t
  else
    let content ←
      if place.getLast? = some ".acl".toList then IO.FS.readBinFile path else pure ByteArray.empty
    return t.insert place (FileTree.Entry.file content.toList)

def snapshot (directory : List Text) (path : Text) : IO World := do
  let w : World := { directory }
  let place := w.hostPlace path
  let way := (FileTree.wayTo place).dropLast
  let t := way.foldl (fun t p => t.insert p FileTree.Entry.directory) w.host
  try
    let real ← IO.FS.realPath (String.ofList path)
    let host ← load real.toString place (← real.isDir) t
    return { w with host }
  catch _ => return { w with host := t }

def writeBack (old new : FileTree) : IO Unit := do
  for (place,e) in new do
    if old.at? place ≠ some e then
      let path := String.ofList (Path.ofSegments place)
      match e with
      | .directory => IO.FS.createDirAll path
      | .file content => IO.FS.writeBinFile path ⟨content.toArray⟩

def readInput : IO Bytes := do
  let bytes ← (← IO.getStdin).readBinToEnd
  return bytes.toList

end Realm.Main

open Realm in
def main (arguments : List String) : IO UInt32 := do
  let arguments := arguments.map String.toList
  let request := (CommandLine.readRequest arguments).toOption
  let directory := Path.segments (toString (← IO.currentDir)).toList
  let w ←
    match request.bind (·.directory?) with
    | some path => Main.snapshot directory path
    | none => pure { directory }
  let input ←
    if (request.map (·.readsInput)).getD false then Main.readInput else pure []
  let (outcome,w') := (CommandLine.run arguments input).run w
  Main.writeBack w.host w'.host
  (← IO.getStdout).putStr (String.ofList outcome.output)
  (← IO.getStderr).putStr (String.ofList outcome.errors)
  return outcome.code.toUInt32
