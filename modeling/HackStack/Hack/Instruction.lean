import HackStack.Word
import HackStack.Text.Quoted

/-!
# Instructions

An instruction loads the register `A` with an address, or computes: an operation of
the arithmetic unit on `D` and on either `A` or the memory cell at `A`, the places
where the result goes, and the condition on the result under which the machine jumps
to `A`.

`Computation.eval` works on integers of any size; the machine feeds it signed words
and keeps the low bits of the result.
-/

namespace HackStack.Hack

/-- The operations of the arithmetic unit, in the form with `A` as second operand. -/
inductive Computation where
  | zero
  | one
  | minusOne
  | d
  | a
  | notD
  | notA
  | negD
  | negA
  | succD
  | succA
  | predD
  | predA
  | add
  | subA
  | subD
  | and
  | or
  deriving DecidableEq, Repr

namespace Computation

/-- How an operation is written. -/
def text : Computation → Text
  | .zero => "0".toList
  | .one => "1".toList
  | .minusOne => "-1".toList
  | .d => "D".toList
  | .a => "A".toList
  | .notD => "!D".toList
  | .notA => "!A".toList
  | .negD => "-D".toList
  | .negA => "-A".toList
  | .succD => "D+1".toList
  | .succA => "A+1".toList
  | .predD => "D-1".toList
  | .predA => "A-1".toList
  | .add => "D+A".toList
  | .subA => "D-A".toList
  | .subD => "A-D".toList
  | .and => "D&A".toList
  | .or => "D|A".toList

/-- All operations. -/
def all : List Computation :=
  [.zero, .one, .minusOne, .d, .a, .notD, .notA, .negD, .negA, .succD, .succA, .predD, .predA,
   .add, .subA, .subD, .and, .or]

/-- The operation that a text is. -/
def ofText? (t : Text) : Option Computation := all.find? (·.text == t)

@[simp]
theorem ofText?_text (c : Computation) : ofText? c.text = some c := by
  cases c <;> rfl

/-- A text is an operation only if it is written as the operation is. -/
theorem ofText?_eq_some_iff {t : Text} {c : Computation} : ofText? t = some c ↔ t = c.text := by
  constructor
  · intro h
    have := List.find?_some h
    exact (LawfulBEq.eq_of_beq this).symm
  · rintro rfl
    exact ofText?_text c

/-- The result of an operation on `D` and the second operand. -/
def eval (d a : Int) : Computation → Int
  | .zero => 0
  | .one => 1
  | .minusOne => -1
  | .d => d
  | .a => a
  | .notD => ~~~d
  | .notA => ~~~a
  | .negD => -d
  | .negA => -a
  | .succD => d + 1
  | .succA => a + 1
  | .predD => d - 1
  | .predA => a - 1
  | .add => d + a
  | .subA => d - a
  | .subD => a - d
  | .and => Word.land d a
  | .or => Word.lor d a

end Computation

/-- The conditions of a jump. -/
inductive Jump where
  | never
  | gt
  | eq
  | ge
  | lt
  | ne
  | le
  | always
  deriving DecidableEq, Repr

namespace Jump

/-- How a condition is written: an instruction that never jumps has none. -/
def text : Jump → Text
  | .never => []
  | .gt => "JGT".toList
  | .eq => "JEQ".toList
  | .ge => "JGE".toList
  | .lt => "JLT".toList
  | .ne => "JNE".toList
  | .le => "JLE".toList
  | .always => "JMP".toList

/-- All conditions. -/
def all : List Jump := [.never, .gt, .eq, .ge, .lt, .ne, .le, .always]

/-- The condition that a text is. -/
def ofText? (t : Text) : Option Jump := all.find? (·.text == t)

@[simp]
theorem ofText?_text (j : Jump) : ofText? j.text = some j := by
  cases j <;> rfl

/-- A text is a condition only if it is written as the condition is. -/
theorem ofText?_eq_some_iff {t : Text} {j : Jump} : ofText? t = some j ↔ t = j.text := by
  constructor
  · intro h
    have := List.find?_some h
    exact (LawfulBEq.eq_of_beq this).symm
  · rintro rfl
    exact ofText?_text j

/-- Whether a result satisfies the condition. -/
def holds (x : Int) : Jump → Bool
  | .never => false
  | .gt => 0 < x
  | .eq => x == 0
  | .ge => 0 ≤ x
  | .lt => x < 0
  | .ne => x != 0
  | .le => x ≤ 0
  | .always => true

end Jump

/-- The places that a result can go to: the two registers and the memory cell at `A`. -/
inductive Register where
  | a
  | d
  | m
  deriving DecidableEq, Repr

/-- The letter of a place. -/
def Register.letter : Register → Char
  | .a => 'A'
  | .d => 'D'
  | .m => 'M'

/-- The place that a letter stands for. -/
def Register.ofLetter? (c : Char) : Option Register :=
  if c == 'A' then some .a else if c == 'D' then some .d else if c == 'M' then some .m else none

/-- What an instruction does. -/
inductive Operation where
  /-- Load `A` with an address. -/
  | address (value : Nat)
  /-- Compute with `D` and either the memory cell at `A`, if `memory` is set, or `A`. -/
  | compute (dest : List Register) (comp : Computation) (memory : Bool) (jump : Jump)
  deriving DecidableEq, Repr

/-- An instruction and the number of its line in the source. -/
structure Instruction where
  operation : Operation
  line : Int
  deriving DecidableEq, Repr

end HackStack.Hack
