import HackStack.Numeral

/-!
# Lines of assembly

A line of Hack assembly is the declaration of a label `(name)`, the loading of an
address `@operand`, or a computation, which is kept as it is written. `render` writes
a line and `ofCode` recognises one.
-/

namespace HackStack.Hack

/-- A line of assembly. -/
inductive Line where
  /-- `(name)` names the instruction that follows. -/
  | label (name : Text)
  /-- `@operand` loads a number or the address that a symbol stands for. -/
  | address (operand : Text)
  /-- `dest=comp;jump`. -/
  | compute (text : Text)
  deriving DecidableEq, Repr

/-- How a line is written. -/
def Line.render : Line → Text
  | .label name => '(' :: name ++ [')']
  | .address operand => '@' :: operand
  | .compute text => text

/-- The line that a piece of code is. -/
def Line.ofCode (code : Text) : Line :=
  if code.head? == some '(' && code.getLast? == some ')' then .label code.tail.dropLast
  else if code.head? == some '@' then .address code.tail
  else .compute code

@[simp]
theorem Line.ofCode_render_label (name : Text) :
    Line.ofCode (Line.label name).render = .label name := by
  simp [Line.ofCode, Line.render, List.getLast?_cons]

@[simp]
theorem Line.ofCode_render_address (operand : Text) :
    Line.ofCode (Line.address operand).render = .address operand := by
  simp [Line.ofCode, Line.render]

/-- A computation that opens as neither of the other lines is recognised as written. -/
theorem Line.ofCode_render_compute {text : Text} (hlabel : text.head? ≠ some '(')
    (haddress : text.head? ≠ some '@') :
    Line.ofCode (Line.compute text).render = .compute text := by
  simp [Line.ofCode, Line.render, hlabel, haddress]

/-- The line that loads a number. -/
def Line.number (n : Int) : Line := .address (Numeral.decimal n)

/-- Lines in the notation of the assembler. -/
def assembly (lines : List String) : List Line := lines.map fun l => Line.ofCode l.toList

/-- Whether a written line opens as a label does. Such a line takes no place among the
instructions. -/
def isLabel (line : Text) : Bool := line.head? == some '('

end HackStack.Hack
