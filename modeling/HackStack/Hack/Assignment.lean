import HackStack.Numeral
import HackStack.Hack.Memory
import HackStack.Hack.Symbols

/-!
# Assignments

An assignment such as `SP=256` gives a cell its value before a run. The left side is a
symbol of the machine or a number, and the address is checked before the right side is
read. Of the value the low sixteen bits are kept.
-/

namespace HackStack.Hack

/-- Why an assignment is refused. -/
inductive AssignmentError where
  | numeral (e : Numeral.Error)
  /-- There is no such cell. -/
  | addressOutOfRange (text : Text)
  deriving DecidableEq, Repr

/-- The message of an assignment that is refused. -/
def AssignmentError.message : AssignmentError → String
  | .numeral e => e.message
  | .addressOutOfRange text => "address out of range: " ++ String.ofList text

/-- An address and the word to be stored there. -/
structure Assignment where
  address : Nat
  value : Nat
  deriving DecidableEq, Repr

/-- The address that the left side of an assignment names. -/
def assignedAddress (name : Text) : Except AssignmentError Int :=
  match predefined.lookup name with
  | some address => .ok address
  | none => (Numeral.read .marked name).mapError .numeral

/-- Read an assignment. -/
def Assignment.parse (t : Text) : Except AssignmentError Assignment :=
  match assignedAddress (Text.before '=' t) with
  | .error e => .error e
  | .ok address =>
    if address < 0 || memorySize ≤ address then .error (.addressOutOfRange t)
    else match Numeral.read .marked (Text.after '=' t) with
      | .error e => .error (.numeral e)
      | .ok value => .ok ⟨address.toNat, Word.wrap value⟩

/-- Carry out an assignment. A memory without the cell stays as it is. -/
def Assignment.store (s : Assignment) (ram : Memory) : Memory :=
  ram.setIfInBounds s.address s.value

end HackStack.Hack
