import Realm.FileManager
import Realm.Mount.Config
import Realm.World

/-! Registries: the kinds of file systems and security managers that a configuration may
name. -/
namespace Realm

abbrev Maker (σ α : Type) := Json → Action σ α

structure Registry (σ : Type) where
  fileSystems : Table Text (Maker σ (FileSystem σ)) := []
  securityManagers : Table Text (Maker σ (SecurityManager σ)) := []

namespace Registry

variable {σ : Type}

/-- Make a kind of file systems known under a name that is not taken. -/
def addFileSystem (r : Registry σ) (name : Text) (make : Maker σ (FileSystem σ)) :
    Except Error (Registry σ) :=
  if Table.contains name r.fileSystems then .error (.config (.fileSystemRegistered name))
  else .ok { r with fileSystems := Table.insert name make r.fileSystems }

/-- Make a kind of security managers known under a name that is not taken. -/
def addSecurityManager (r : Registry σ) (name : Text) (make : Maker σ (SecurityManager σ)) :
    Except Error (Registry σ) :=
  if Table.contains name r.securityManagers then
    .error (.config (.securityManagerRegistered name))
  else .ok { r with securityManagers := Table.insert name make r.securityManagers }

/-- Make what a mount is to consist of. Both kinds have to be known before either is
made. -/
def build (r : Registry σ) (s : MountSpec) : Action σ (Mount σ) :=
  match Table.get? s.kind r.fileSystems, Table.get? s.security r.securityManagers with
  | none, _ => throw (.config (.unknownFileSystem s.kind))
  | some _, none => throw (.config (.unknownSecurityManager s.security))
  | some makeFiles, some makeSecurity => do
    let fileSystem ← makeFiles s.options
    let security ← makeSecurity s.securityOptions
    pure { fileSystem, security }

def mountAll (r : Registry σ) (m : FileManager σ) : MountConfig → Action σ (FileManager σ)
  | [] => pure m
  | (path,s) :: rest => do
    let mounted ← r.build s
    match m.mount path mounted with
    | .error e => throw e
    | .ok m => mountAll r m rest

def manager (r : Registry σ) (oneExists : Bool) (config : MountConfig) :
    Action σ (FileManager σ) := do
  match FileManager.new oneExists with
  | .error e => throw e
  | .ok m => r.mountAll m config

def isOn (name : String) (options : Json) : Bool :=
  ((options.get? name.toList).bind Json.bool?).getD false

def textOption (name : String) (options : Json) : Option Text :=
  (options.get? name.toList).bind Json.string?

def makeDisk : Maker World (FileSystem World) := fun options => do
  match textOption "root" options with
  | none => throw (.config .diskRootMissing)
  | some root => do
    let w ← get
    pure (World.disk (w.hostPlace root) (isOn "readOnly" options))

def makeMemory : Maker World (FileSystem World) := fun _ =>
  ExceptT.lift World.newVolume

def makePermissive : Maker World (SecurityManager World) := fun options =>
  pure (.permissive (isOn "readOnly" options))

/-- An access engine of its own, with its shadow files in memory or on the host. -/
def makeAcl : Maker World (SecurityManager World) := fun options => do
  let w ← get
  let shadow : FileSystem World ←
    match textOption "shadowDir" options with
    | some dir => pure (World.disk (w.hostPlace dir) false)
    | none => ExceptT.lift World.newVolume
  let shadowRoot := Path.normalize ((textOption "shadowRoot" options).getD ['/'])
  let cache ← ExceptT.lift World.newCache
  pure (.ofEngine { shadow, shadowRoot } cache)

def defaults : Registry World where
  fileSystems := Table.ofList [("memory".toList,makeMemory),("disk".toList,makeDisk)]
  securityManagers :=
    Table.ofList [("permissive".toList,makePermissive),("acl".toList,makeAcl)]

end Registry
end Realm
