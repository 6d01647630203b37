import HackStack.Numeral
import HackStack.Hack.Instruction

/-!
# Reading a computation

A computation is written `dest=comp;jump`, where `dest=` and `;jump` may be missing.
The destination ends at the last equals sign, and the jump starts at the first
semicolon after it. Spaces count only inside the computation, where they are dropped.

The computation is that of the arithmetic unit with `M` in the place of `A` when the
memory is read. The operands of `+`, `&` and `|` may be exchanged.

Of several faults the first in this order is reported: the computation, the jump, the
destination.
-/

namespace HackStack.Hack

/-- Why a source is not assembled. -/
inductive AssemblyError where
  | unknownComputation (line : Int) (text : Text)
  | unknownJump (line : Int) (text : Text)
  /-- A destination with a letter other than `A`, `D` and `M`, or with a letter twice. -/
  | badDestination (line : Int) (text : Text)
  /-- A value that does not fit into an instruction. -/
  | valueTooLarge (line : Int) (value : Nat)
  /-- A number that cannot be read, or cannot be written. -/
  | numeral (e : Numeral.Error)
  deriving DecidableEq, Repr

/-- The message of a source that is not assembled. -/
def AssemblyError.message : AssemblyError → String
  | .unknownComputation line text =>
    "line " ++ toString line ++ ": unknown comp " ++ Text.shown text
  | .unknownJump line text => "line " ++ toString line ++ ": unknown jump " ++ Text.shown text
  | .badDestination line text => "line " ++ toString line ++ ": bad dest " ++ Text.shown text
  | .valueTooLarge line value =>
    "line " ++ toString line ++ ": constant " ++ toString value ++ " does not fit in 15 bits"
  | .numeral e => e.message

/-- The operators whose operands may be exchanged. -/
def isCommutative (c : Char) : Bool := c == '+' || c == '&' || c == '|'

/-- The operation that a computation is, with its operands as written or exchanged. -/
def Computation.ofWritten? (key : Text) : Option Computation :=
  match ofText? key with
  | some comp => some comp
  | none =>
    match key with
    | [_, operator, _] => if isCommutative operator then ofText? key.reverse else none
    | _ => none

/-- Whether a computation reads the memory. -/
def readsMemory (comp : Text) : Bool := comp.contains 'M'

/-- A computation with `A` in the place of `M`. -/
def withoutMemory (comp : Text) : Text := comp.map fun c => if c == 'M' then 'A' else c

/-- The places that a destination names, each at most once. -/
def destination? (t : Text) : Option (List Register) :=
  match t.mapM Register.ofLetter? with
  | some registers => if registers.Nodup then some registers else none
  | none => none

/-- Read a computation from the line with the given number. -/
def decode (text : Text) (line : Int) : Except AssemblyError Instruction :=
  let dest := Text.beforeLast '=' text
  let rest := Text.afterLast '=' text
  let comp := (Text.before ';' rest).filter (· != ' ')
  let jump := Text.after ';' rest
  match Computation.ofWritten? (withoutMemory comp) with
  | none => .error (.unknownComputation line comp)
  | some computation =>
    match Jump.ofText? jump with
    | none => .error (.unknownJump line jump)
    | some condition =>
      match destination? dest with
      | none => .error (.badDestination line dest)
      | some registers =>
        .ok ⟨.compute registers computation (readsMemory comp) condition, line⟩

/-- The line that an error gives. -/
def AssemblyError.line? : AssemblyError → Option Int
  | .unknownComputation line _ | .unknownJump line _ | .badDestination line _
  | .valueTooLarge line _ => some line
  | .numeral _ => none

/-- An error with its line written out. -/
def AssemblyError.written (e : AssemblyError) : AssemblyError :=
  if e.line?.all Numeral.isWritable then e else .numeral .unwritable

end HackStack.Hack
