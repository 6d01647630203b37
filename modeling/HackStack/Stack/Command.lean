import HackStack.Text.Basic

/-!
# Stack commands

The commands of the stack language. An arithmetic command works on the top of the
stack, `push` and `pop` move one value between the stack and a cell of a memory
segment, and the others are about control. A command names its segment as the
source spells it: which segments there are is for the lowering to say.

Each command keeps the number of the line it was read from. The views `kind`,
`operand1?` and `operand2?` give its parts.
-/

namespace HackStack.Stack

/-- The kinds of command. -/
inductive Kind where
  | arithmetic
  | push
  | pop
  | label
  | goto
  | ifGoto
  | function
  | call
  | ret
  deriving DecidableEq, Repr

/-- The name of a kind in capitals. -/
def Kind.title : Kind → String
  | .arithmetic => "ARITHMETIC"
  | .push => "PUSH"
  | .pop => "POP"
  | .label => "LABEL"
  | .goto => "GOTO"
  | .ifGoto => "IF"
  | .function => "FUNCTION"
  | .call => "CALL"
  | .ret => "RETURN"

/-- The name of a kind as messages give it: but for arithmetic, the word that starts its
commands. -/
def Kind.word : Kind → String
  | .arithmetic => "arithmetic"
  | .push => "push"
  | .pop => "pop"
  | .label => "label"
  | .goto => "goto"
  | .ifGoto => "if"
  | .function => "function"
  | .call => "call"
  | .ret => "return"

/-- The place of a kind in their list, counted from one. -/
def Kind.number : Kind → Nat
  | .arithmetic => 1
  | .push => 2
  | .pop => 3
  | .label => 4
  | .goto => 5
  | .ifGoto => 6
  | .function => 7
  | .call => 8
  | .ret => 9

/-- All kinds, in order. -/
def Kind.all : List Kind :=
  [.arithmetic, .push, .pop, .label, .goto, .ifGoto, .function, .call, .ret]

/-- The arithmetic commands. -/
inductive Arithmetic where
  | add
  | sub
  | neg
  | eq
  | gt
  | lt
  | and
  | or
  | not
  deriving DecidableEq, Repr

/-- The word for an arithmetic command. -/
def Arithmetic.mnemonic : Arithmetic → Text
  | .add => "add".toList
  | .sub => "sub".toList
  | .neg => "neg".toList
  | .eq => "eq".toList
  | .gt => "gt".toList
  | .lt => "lt".toList
  | .and => "and".toList
  | .or => "or".toList
  | .not => "not".toList

/-- All arithmetic commands. -/
def Arithmetic.all : List Arithmetic := [.add, .sub, .neg, .eq, .gt, .lt, .and, .or, .not]

/-- The arithmetic command that a word stands for. -/
def Arithmetic.ofText? (t : Text) : Option Arithmetic := all.find? (·.mnemonic == t)

@[simp]
theorem Arithmetic.ofText?_mnemonic (op : Arithmetic) : ofText? op.mnemonic = some op := by
  cases op <;> rfl

/-- A word stands for a command only if it is its mnemonic. -/
theorem Arithmetic.ofText?_eq_some_iff {t : Text} {op : Arithmetic} :
    ofText? t = some op ↔ t = op.mnemonic := by
  constructor
  · intro h
    have := List.find?_some h
    exact (LawfulBEq.eq_of_beq this).symm
  · rintro rfl
    exact ofText?_mnemonic op

/-- Whether a command compares the two values on top of the stack. -/
def Arithmetic.isComparison : Arithmetic → Bool
  | .eq | .gt | .lt => true
  | _ => false

/-- What a command does. -/
inductive Operation where
  | arithmetic (op : Arithmetic)
  | push (segment : Text) (index : Nat)
  | pop (segment : Text) (index : Nat)
  | label (name : Text)
  | goto (name : Text)
  | ifGoto (name : Text)
  | function (name : Text) (locals : Nat)
  | call (name : Text) (arguments : Nat)
  | ret
  deriving DecidableEq, Repr

/-- A command and the number of its line. -/
structure Command where
  operation : Operation
  line : Int
  deriving DecidableEq, Repr

/-- The kind of an operation. -/
def Operation.kind : Operation → Kind
  | .arithmetic _ => .arithmetic
  | .push _ _ => .push
  | .pop _ _ => .pop
  | .label _ => .label
  | .goto _ => .goto
  | .ifGoto _ => .ifGoto
  | .function _ _ => .function
  | .call _ _ => .call
  | .ret => .ret

/-- The first operand: an arithmetic command counts as its own, and a return has none. -/
def Operation.operand1? : Operation → Option Text
  | .arithmetic op => some op.mnemonic
  | .push t _ | .pop t _ | .label t | .goto t | .ifGoto t | .function t _ | .call t _ => some t
  | .ret => none

/-- The second operand, which is a number. -/
def Operation.operand2? : Operation → Option Nat
  | .push _ n | .pop _ n | .function _ n | .call _ n => some n
  | _ => none

/-- The kind of a command. -/
def Command.kind (c : Command) : Kind := c.operation.kind

/-- The first operand of a command. -/
def Command.operand1? (c : Command) : Option Text := c.operation.operand1?

/-- The second operand of a command. -/
def Command.operand2? (c : Command) : Option Nat := c.operation.operand2?

end HackStack.Stack
