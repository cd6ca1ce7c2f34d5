import Realm.Text

/-! Case mappings as runs of evenly spaced characters with evenly spaced images. -/
namespace Realm.Text

/-- The characters `first`, `first + step`, … up to `last`; the image of `first` is
`image`, and image and character keep their distance throughout the run. -/
structure CaseRun where
  first : Nat
  last : Nat
  step : Nat
  image : Nat

namespace CaseRun

def map? (run : CaseRun) (code : Nat) : Option Nat :=
  if run.first ≤ code ∧ code ≤ run.last ∧ (code - run.first) % run.step = 0 then
    some (run.image + (code - run.first))
  else none

/-- Map a character by the run that holds it; a character in no run stays. -/
def apply (runs : List CaseRun) (c : Char) : Char :=
  match runs.findSome? (·.map? c.toNat) with
  | some code => Char.ofNat code
  | none => c

def preimage (runs : List CaseRun) (c : Char) : List Char :=
  runs.filterMap fun run =>
    let code := run.first + (c.toNat - run.image)
    if run.image ≤ c.toNat && run.map? code == some c.toNat then some (Char.ofNat code) else none

end CaseRun
end Realm.Text
