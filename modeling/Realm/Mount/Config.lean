import Realm.Json.Shape

/-! Mounts as they are written in a configuration. -/
namespace Realm

/-- One mount: the kinds of its file system and of its security manager, and what each
kind is told. -/
structure MountSpec where
  kind : Text := []
  options : Json := .null
  security : Text := "acl".toList
  securityOptions : Json := .null

abbrev MountConfig := Table Text MountSpec

namespace MountSpec

open Json (Draft Fields)
open Json.Draft (Flaw)

def fields (depth : Nat) : Fields MountSpec where
  label := "struct MountSpec"
  names := ["type","options","securityManager","securityManagerOptions"].map String.toList
  required := ["type".toList]
  read name v s :=
    if name = "type".toList then do
      let kind ← v.text
      pure { s with kind }
    else if name = "options".toList then do
      let options ← v.anything depth
      pure { s with options }
    else if name = "securityManager".toList then do
      let security ← v.text
      pure { s with security }
    else do
      let securityOptions ← v.anything depth
      pure { s with securityOptions }

def read (depth : Nat) (v : Draft) : Except Flaw MountSpec := do
  let depth ← v.inside depth
  (fields depth).record .document {} v

def toJson (s : MountSpec) : Json :=
  .object [("type".toList,.string s.kind),("options".toList,s.options),
    ("securityManager".toList,.string s.security),
    ("securityManagerOptions".toList,s.securityOptions)]

end MountSpec

namespace MountConfig

def parse (text : Text) : Except Error MountConfig :=
  (Json.parse (Json.Draft.table MountSpec.read) (text.map some)).mapError .json

def toJson (c : MountConfig) : Json :=
  .object (c.map fun (path,s) => (path,s.toJson))

end MountConfig
end Realm
