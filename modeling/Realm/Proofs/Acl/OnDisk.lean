import Realm.Proofs.Acl.Calls
import Realm.Proofs.Acl.Fresh
import Realm.Proofs.FileSystem.Disk

/-! Engines that store their shadow files in a directory of the host. -/
namespace Realm.Acl

open Realm.Path (ofSegments AreNames)

variable {σ : Type}

/-- Where shadow files lie on the host, and the directories that hold them. -/
theorem resolve_shadowFile {e : Engine σ} (hroot : Path.IsNormal e.shadowRoot) (top : List Text)
    {dir : List Text} (hdir : AreNames dir) :
    Disk.resolve top (e.shadowPath (ofSegments dir)) =
        top ++ Path.segments e.shadowRoot ++ dir ++ [aclName] ∧
      Disk.resolve top (Path.parent (e.shadowPath (ofSegments dir))) =
        top ++ Path.segments e.shadowRoot ++ dir := by
  obtain ⟨hnames,hpath,hparent⟩ := Engine.shadowFile_spec hroot hdir
  rw [hparent,hpath,Disk.resolve_ofSegments top hnames,
    Disk.resolve_ofSegments top (hnames.append Engine.areNames_aclName)]
  simp

/-- The shadow files of an engine on the host keep out of each other's way. -/
def diskLocality (e : Engine σ) (hroot : Path.IsNormal e.shadowRoot) (c : Disk.Config) :
    (Disk.fileSystem c).Locality fun dir => e.shadowPath (ofSegments dir) :=
  if hc : c.readOnly = true then Disk.readOnlyLocality hc _
  else Disk.locality (Bool.eq_false_iff.2 hc)
    (fun _ hdir => (resolve_shadowFile hroot c.root hdir).1)
    fun _ hdir => (resolve_shadowFile hroot c.root hdir).2

theorem diskLocality_layered (e : Engine σ) (hroot : Path.IsNormal e.shadowRoot) (c : Disk.Config) :
    (diskLocality e hroot c).Layered aclName := by
  rw [diskLocality]
  split
  · exact FileSystem.Locality.ofReadOnly_layered _
  · exact Disk.locality_layered _ _ _

theorem diskLocality_fine (e : Engine σ) (hroot : Path.IsNormal e.shadowRoot) (c : Disk.Config)
    {t : FileTree} (ht : t.Closed) : (diskLocality e hroot c).agree [] t t := by
  rw [diskLocality]
  split
  · rfl
  · exact ⟨ht,ht,fun _ => rfl,fun _ => rfl,fun _ => rfl⟩

/-- A directory of the host that may only be looked at. -/
def archive : Disk.Config where
  root := ["srv".toList]
  readOnly := true

/-- An engine with its shadow files there. -/
def archiveEngine : Engine FileTree where
  shadow := Disk.fileSystem archive

/-- A host on which the directory is empty. -/
def archiveTree : FileTree :=
  [([],.directory),(["srv".toList],.directory)]

end Realm.Acl
