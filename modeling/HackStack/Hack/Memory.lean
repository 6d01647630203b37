import HackStack.Word

/-!
# Memory

The memory of the machine is an array of cells. A cell may hold any integer that is put
there from outside; the machine itself writes words.

From outside a cell may also be named by a negative address, which counts from the end.
An address that does not fit into sixty-four bits is told apart from one that merely
lies outside the memory.
-/

namespace HackStack.Hack

/-- The cells of the machine. -/
abbrev Memory := Array Int

/-- The number of cells of the whole memory. -/
def memorySize : Nat := 32768

/-- A memory of zeros. -/
def blankMemory (size : Nat) : Memory := Array.replicate size 0

/-- Why there is no cell at an address. -/
inductive AddressError where
  /-- The address lies outside the memory. -/
  | outside
  /-- The address has too many bits to be looked up. -/
  | tooWide
  deriving DecidableEq, Repr

/-- The message of an address without a cell. -/
def AddressError.message : AddressError → String
  | .outside => "list index out of range"
  | .tooWide => "cannot fit 'int' into an index-sized integer"

/-- The number of bits of an address that can be looked up. -/
def addressWidth : Nat := 64

/-- An address of no more bits than that can be looked up. -/
theorem signedAt_addressWidth {a : Int} (hlow : -0x8000000000000000 ≤ a)
    (hhigh : a < 0x8000000000000000) : Word.signedAt addressWidth a = a := by
  have hpow : Nat.pow 2 addressWidth = 0x10000000000000000 := rfl
  exact Int.bmod_eq_of_le (by omega) (by omega)

/-- The place in a memory of `size` cells of an address, which counts from the end if it is
negative. -/
def cellIndex (size : Nat) (address : Int) : Except AddressError Nat :=
  if Word.signedAt addressWidth address != address then .error .tooWide
  else
    let place := if address < 0 then address + size else address
    if place < 0 || size ≤ place then .error .outside else .ok place.toNat

/-- The value of the cell at an address. -/
def cell (ram : Memory) (address : Int) : Except AddressError Int :=
  (cellIndex ram.size address).map fun i => ram.getD i 0

end HackStack.Hack
