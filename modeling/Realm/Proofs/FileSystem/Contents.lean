import Realm.Path
import Realm.FileSystem

/-! File systems that give back what was written last. -/
namespace Realm.FileSystem

variable {σ : Type}

/-- What a file system holds at some paths. It is in order as long as its owner only makes
the directories of such paths and writes files at them, and as long as none of this is
refused. -/
structure Contents (fs : FileSystem σ) (files : Text → Prop) where
  /-- The file at a path. -/
  seen : σ → Text → Option Bytes
  /-- Whether the paths hold nothing but files. -/
  fine : σ → Prop
  has_eq : ∀ w p, fine w → files p → fs.has p w = (.ok (seen w p).isSome,w)
  read_eq : ∀ w p c, fine w → files p → seen w p = some c → fs.read p w = (.ok c,w)
  makeDir_keeps : ∀ w w' p, fine w → files p →
    fs.makeDir (Path.parent p) true w = (.ok (),w') →
    fine w' ∧ ∀ q, files q → seen w' q = seen w q
  write_keeps : ∀ w w' p c, fine w → files p → fs.write p c w = (.ok (),w') →
    fine w' ∧ seen w' p = some c ∧ ∀ q, files q → q ≠ p → seen w' q = seen w q

end Realm.FileSystem
