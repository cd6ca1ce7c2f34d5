import Realm.Error

/-! Permissions: sets of capabilities, written as a row of letters or as a number. -/
namespace Realm

inductive Capability where
  | read
  | write
  /-- Pass through a directory or run a file. -/
  | execute
  /-- Compile a file and load it as an object of the game. -/
  | load
  | createFile
  | createDirectory
  | deleteDirectory
  | changePermissions
  | changeOwner
  | takeOwnership
  | special
  /-- Left out of directory listings. -/
  | hidden
  | inherits
deriving DecidableEq, Repr

namespace Capability

def all : List Capability :=
  [.read,.write,.execute,.load,.createFile,.createDirectory,.deleteDirectory,
    .changePermissions,.changeOwner,.takeOwnership,.special,.hidden,.inherits]

/-- The place of the capability's bit. Stored numbers depend on it. -/
def bit : Capability → Nat
  | .read => 0
  | .write => 1
  | .execute => 2
  | .load => 3
  | .createFile => 4
  | .createDirectory => 5
  | .deleteDirectory => 6
  | .changePermissions => 7
  | .changeOwner => 8
  | .takeOwnership => 9
  | .special => 10
  | .hidden => 11
  | .inherits => 12

def letter : Capability → Char
  | .read => 'r'
  | .write => 'w'
  | .execute => 'x'
  | .load => 'l'
  | .createFile => 'c'
  | .createDirectory => 'C'
  | .deleteDirectory => 'D'
  | .changePermissions => 'P'
  | .changeOwner => 'O'
  | .takeOwnership => 'T'
  | .special => 'S'
  | .hidden => 'H'
  | .inherits => '+'

end Capability

/-- A set of capabilities. -/
structure Permission where
  bits : BitVec 13
deriving DecidableEq, Repr

namespace Permission

def empty : Permission := ⟨0⟩

def of (c : Capability) : Permission :=
  ⟨BitVec.twoPow 13 c.bit⟩

def union (p q : Permission) : Permission :=
  ⟨p.bits ||| q.bits⟩

def allows (p required : Permission) : Bool :=
  p.bits &&& required.bits = required.bits

def has (p : Permission) (c : Capability) : Bool :=
  p.bits.getLsbD c.bit

def toNat (p : Permission) : Nat :=
  p.bits.toNat

/-- The set with a number; a number with a bit of no capability stands for none. -/
def ofNat? (n : Nat) : Option Permission :=
  if n < 0x2000 then some ⟨BitVec.ofNat 13 n⟩ else none

@[simp] theorem ofNat?_toNat (p : Permission) : ofNat? p.toNat = some p := by
  have h : p.toNat < 0x2000 := p.bits.isLt
  simp only [ofNat?,h,if_true]
  simp [toNat]

/-- Letters of the capabilities in their order, a hyphen for none. -/
def toText (p : Permission) : Text :=
  match (Capability.all.filter p.has).map (·.letter) with
  | [] => ['-']
  | letters => letters

/-- Read a row of letters; hyphens and spaces only fill it up. -/
def parse (text : Text) : Except Error Permission :=
  go empty text
where
  go (p : Permission) : Text → Except Error Permission
    | [] => .ok p
    | c :: t =>
      if c = '-' ∨ c = ' ' then go p t
      else
        match Capability.all.find? (·.letter = c) with
        | some capability => go (p.union (of capability)) t
        | none => .error (.config (.unknownPermission c text))

end Permission
end Realm
