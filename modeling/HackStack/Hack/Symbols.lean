import HackStack.Text.Basic

/-!
# Symbols

The symbols that stand for addresses: those that the machine defines are its pointers,
its sixteen low cells and the places of screen and keyboard. The cells behind the low
ones are for the variables of a program.
-/

namespace HackStack.Hack

/-- What symbols stand for. Of two entries for a name the first counts. -/
abbrev Symbols := List (Text × Nat)

/-- The symbols that the machine defines. -/
def predefined : Symbols :=
  [("SP", 0), ("LCL", 1), ("ARG", 2), ("THIS", 3), ("THAT", 4), ("SCREEN", 16384), ("KBD", 24576),
   ("R0", 0), ("R1", 1), ("R2", 2), ("R3", 3), ("R4", 4), ("R5", 5), ("R6", 6), ("R7", 7),
   ("R8", 8), ("R9", 9), ("R10", 10), ("R11", 11), ("R12", 12), ("R13", 13), ("R14", 14),
   ("R15", 15)].map fun e => (e.1.toList, e.2)

/-- The address of the first variable. -/
def firstVariable : Nat := 16

end HackStack.Hack
