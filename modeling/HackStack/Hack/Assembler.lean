import HackStack.Code
import HackStack.Text.Lines
import HackStack.Hack.Decode
import HackStack.Hack.Line
import HackStack.Hack.Symbols

/-!
# The assembler

A source is assembled in two passes. The first finds the labels: a label stands for
the number of instructions before it, and of several declarations of one name the
last counts. The second reads the instructions.

The operand of an address is a number if it is all digits. Otherwise it is a symbol:
a label, else one of the symbols that the machine defines, else a variable. The
variables get the addresses from 16 on, in the order in which they first appear.

The first line at fault is reported.
-/

namespace HackStack.Hack

/-- The largest value that an instruction can hold. -/
def largestValue : Nat := 0x7fff

/-- A line of a source, recognised, with its number. -/
structure SourceLine where
  number : Nat
  line : Line
  deriving DecidableEq, Repr

/-- The lines of a source. -/
def sourceLines (source : Text) : List SourceLine :=
  (CodeLine.ofLines (Text.lines source)).map fun l => ⟨l.number, Line.ofCode l.code⟩

/-- Enter the labels of lines before `table`, when `count` instructions precede them. -/
def labelsOnto (table : Symbols) (count : Nat) : List SourceLine → Symbols
  | [] => table
  | ⟨_, .label name⟩ :: more => labelsOnto ((name, count) :: table) count more
  | _ :: more => labelsOnto table (count + 1) more

/-- Whether a line declares a label. -/
def Line.isDeclaration : Line → Bool
  | .label _ => true
  | _ => false

/-- The lines that are instructions. -/
def instructionLines (lines : List SourceLine) : List SourceLine :=
  lines.filter fun l => !l.line.isDeclaration

/-- The symbol that a line refers to, if it does. -/
def Line.symbol? : Line → Option Text
  | .address operand => if Text.isDigits operand then none else some operand
  | _ => none

/-- The variables of a program: the symbols that are in no table, in the order of their
first appearance. -/
def variableNames (known : Symbols) (lines : List SourceLine) : List Text :=
  ((lines.filterMap (·.line.symbol?)).filter fun name => (known.lookup name).isNone).eraseDups

/-- What the symbols of a program stand for: labels and predefined symbols, and the
variables in order. -/
structure SymbolTable where
  known : Symbols
  variableNames : List Text
  deriving DecidableEq, Repr

/-- The symbol table of a source. -/
def SymbolTable.ofLines (lines : List SourceLine) : SymbolTable :=
  let known := labelsOnto predefined 0 lines
  ⟨known, Hack.variableNames known lines⟩

/-- What a symbol stands for. -/
def SymbolTable.value (table : SymbolTable) (name : Text) : Nat :=
  (table.known.lookup name).getD (firstVariable + table.variableNames.idxOf name)

/-- The value of the operand of an address. -/
def SymbolTable.operand (table : SymbolTable) (operand : Text) : Except AssemblyError Nat :=
  if Text.isDigits operand then
    ((Numeral.read .decimal operand).map Int.toNat).mapError .numeral
  else .ok (table.value operand)

/-- The instruction on a line. A declaration counts as a computation here; the assembler
passes none. -/
def SymbolTable.instruction (table : SymbolTable) (l : SourceLine) :
    Except AssemblyError Instruction :=
  match l.line with
  | .address operand =>
    match table.operand operand with
    | .error e => .error e
    | .ok value =>
      if largestValue < value then .error (.valueTooLarge l.number value)
      else .ok ⟨.address value, l.number⟩
  | line => decode line.render l.number

/-- Assemble a source. -/
def assemble (source : Text) : Except AssemblyError (Array Instruction) :=
  let lines := sourceLines source
  let table := SymbolTable.ofLines lines
  ((instructionLines lines).mapM table.instruction).map List.toArray

end HackStack.Hack
