import Realm.Proofs.Acl.Calls
import Realm.Proofs.Acl.Fresh
import Realm.Proofs.FileSystem.Locality

/-! Engines that store their shadow files in memory. -/
namespace Realm.Acl

open Realm.Path (ofSegments AreNames)

variable {σ : Type}

theorem locate_shadowFile {e : Engine σ} (hroot : Path.IsNormal e.shadowRoot) {dir : List Text}
    (hdir : AreNames dir) :
    Memory.locate (e.shadowPath (ofSegments dir)) =
        Path.segments e.shadowRoot ++ dir ++ [aclName] ∧
      Memory.locate (Path.parent (e.shadowPath (ofSegments dir))) =
        Path.segments e.shadowRoot ++ dir := by
  obtain ⟨hnames,hpath,hparent⟩ := Engine.shadowFile_spec hroot hdir
  rw [hparent,hpath,Memory.locate_ofSegments hnames,
    Memory.locate_ofSegments (hnames.append Engine.areNames_aclName)]
  exact ⟨rfl,rfl⟩

/-- The shadow files in a tree: none of them lies on the way to another. -/
def memoryContents (e : Engine σ) (hroot : Path.IsNormal e.shadowRoot) :
    FileSystem.Contents Memory.fileSystem e.IsShadowFile :=
  Memory.contents e.IsShadowFile
    (by
      rintro p ⟨dir,hdir,rfl⟩
      obtain ⟨hnames,hpath,-⟩ := Engine.shadowFile_spec hroot hdir.1
      exact ⟨_,hnames.append Engine.areNames_aclName,by simp,hpath⟩)
    (by
      rintro p q ⟨dir,hdir,rfl⟩ ⟨dir',hdir',rfl⟩ hpre
      rw [(locate_shadowFile hroot hdir.1).1,(locate_shadowFile hroot hdir'.1).1,
        List.dropLast_concat,List.append_assoc,List.prefix_append_right_inj] at hpre
      exact hdir'.2 (hpre.subset (by simp)))

/-- The shadow files of an engine in memory keep out of each other's way. -/
def memoryLocality (e : Engine σ) (hroot : Path.IsNormal e.shadowRoot) :
    Memory.fileSystem.Locality fun dir => e.shadowPath (ofSegments dir) :=
  Memory.locality (fun _ hdir => (locate_shadowFile hroot hdir).1)
    fun _ hdir => (locate_shadowFile hroot hdir).2

theorem memoryLocality_layered (e : Engine σ) (hroot : Path.IsNormal e.shadowRoot) :
    (memoryLocality e hroot).Layered aclName :=
  Memory.locality_layered _ _

/-- An engine with its shadow files in memory, of which no identity is in a group. -/
def memoryEngine : Engine FileTree where
  shadow := Memory.fileSystem

theorem isNormal_top : Path.IsNormal ['/'] :=
  ⟨[],rfl,by simp⟩

theorem locate_shadowPath {dir : List Text} (hp : Plain dir) :
    Memory.locate (memoryEngine.shadowPath (ofSegments dir)) = dir ++ [aclName] :=
  (locate_shadowFile (e := memoryEngine) isNormal_top hp.1).1

/-- An engine that lets ann read in every directory that it makes, its shadow files in
memory. -/
def readingEngine : Engine FileTree where
  shadow := Memory.fileSystem
  source := fun _ => [("ann".toList,Permission.of .read)]

/-- Nobody may do anything at the top. -/
def closeTop : List Engine.Call :=
  [.setPermissions "/".toList "ann".toList Permission.empty]

end Realm.Acl
