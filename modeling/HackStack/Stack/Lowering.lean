import HackStack.Hack.Line
import HackStack.Stack.Diagnostic

/-!
# Lowering

The assembly that stands for each stack command.

The stack grows upward from the address in `SP`, which is that of the first free
cell. A binary command takes the upper value `y` off the stack and combines it with
the value `x` below in place. A comparison writes `-1` for true and `0` for false,
and needs two labels of its own, which carry a number to keep those of different
comparisons apart.

Of the segments, four lie where a register points to, `temp` and `static` have fixed
places, `pointer` is the pair of registers `THIS` and `THAT`, and the cells of
`constant` hold their own index and can only be read. An index is not required to
be a natural number here: it is only compared with the limit of its segment.

A caller may give an index, or a number for labels, that is too long to be written. Then
there is no code, whatever it would have been (`writeOut`, `arithmeticLines`).
-/

namespace HackStack.Stack

open Hack

/-! ### Arithmetic -/

/-- `y` into `D`, and `A` at the cell of `x`, which becomes the top of the stack. -/
def popTwo : List Line := assembly ["@SP", "AM=M-1", "D=M", "A=A-1"]

/-- `D` onto the stack. -/
def pushD : List Line := assembly ["@SP", "A=M", "M=D", "@SP", "M=M+1"]

/-- The label with this number where a comparison goes when it fails. -/
def falseLabel (number : Int) : Text := "FALSE".toList ++ Numeral.decimal number

/-- The label with this number where a comparison ends. -/
def continueLabel (number : Int) : Text := "CONTINUE".toList ++ Numeral.decimal number

/-- A comparison, which fails when `x - y` satisfies the condition `jump`. -/
def comparisonLines (jump : Text) (number : Int) : List Line :=
  popTwo ++ assembly ["D=M-D"]
    ++ [.address (falseLabel number), .compute ("D;".toList ++ jump)]
    ++ assembly ["@SP", "A=M-1", "M=-1"]
    ++ [.address (continueLabel number)] ++ assembly ["0;JMP"]
    ++ [.label (falseLabel number)]
    ++ assembly ["@SP", "A=M-1", "M=0"]
    ++ [.label (continueLabel number)]

/-- The code of an arithmetic command; the number is for the labels of a comparison. -/
def Arithmetic.lines (number : Int) : Arithmetic → List Line
  | .add => popTwo ++ assembly ["M=D+M"]
  | .sub => popTwo ++ assembly ["M=M-D"]
  | .and => popTwo ++ assembly ["M=D&M"]
  | .or => popTwo ++ assembly ["M=D|M"]
  | .not => assembly ["@SP", "A=M-1", "M=!M"]
  | .neg => assembly ["D=0", "@SP", "A=M-1", "M=D-M"]
  | .eq => comparisonLines "JNE".toList number
  | .gt => comparisonLines "JLE".toList number
  | .lt => comparisonLines "JGE".toList number

/-- The number of labels when the caller keeps no count. -/
def firstLabel : Int := 0

/-- The failure of a word that stands for no arithmetic command. -/
def unknownArithmetic (mnemonic : Text) : Failure := .diagnostic ⟨.unknownArithmetic mnemonic, none⟩

/-- The code of the arithmetic command that a word stands for, with a number that a caller
gives. Only a comparison writes it. -/
def arithmeticLines (mnemonic : Text) (number : Int) : Except Failure (List Line) :=
  match Arithmetic.ofText? mnemonic with
  | some op =>
    if op.isComparison && !Numeral.isWritable number then .error (.numeral .unwritable)
    else .ok (op.lines number)
  | none => .error (unknownArithmetic mnemonic)

/-! ### Segments -/

/-- The registers that hold the base of a segment. -/
inductive Base where
  | lcl
  | arg
  | this
  | that
  deriving DecidableEq, Repr

/-- The symbol of a base register. -/
def Base.symbol : Base → Text
  | .lcl => "LCL".toList
  | .arg => "ARG".toList
  | .this => "THIS".toList
  | .that => "THAT".toList

/-- The memory segments. -/
inductive Segment where
  /-- The cell with index `i` holds `i`. -/
  | constant
  /-- The segment starts where a register points to. -/
  | based (base : Base)
  /-- Eight cells from address 5. -/
  | temp
  /-- The registers `THIS` and `THAT`. -/
  | pointer
  /-- The cells from address 16. -/
  | static
  deriving DecidableEq, Repr

/-- The name of a segment. -/
def Segment.name : Segment → Text
  | .constant => "constant".toList
  | .based .lcl => "local".toList
  | .based .arg => "argument".toList
  | .based .this => "this".toList
  | .based .that => "that".toList
  | .temp => "temp".toList
  | .pointer => "pointer".toList
  | .static => "static".toList

/-- All segments. -/
def Segment.all : List Segment :=
  [.constant, .based .lcl, .based .arg, .based .this, .based .that, .temp, .pointer, .static]

/-- The segment of a name. -/
def Segment.ofText? (t : Text) : Option Segment := all.find? (·.name == t)

@[simp]
theorem Segment.ofText?_name (s : Segment) : ofText? s.name = some s := by
  cases s with
  | based base => cases base <;> rfl
  | _ => rfl

/-- A name is that of a segment only if it is spelt as the segment's own. -/
theorem Segment.ofText?_eq_some_iff {t : Text} {s : Segment} :
    ofText? t = some s ↔ t = s.name := by
  constructor
  · intro h
    have := List.find?_some h
    exact (LawfulBEq.eq_of_beq this).symm
  · rintro rfl
    exact ofText?_name s

/-- The largest index of a segment of fixed size. -/
def Segment.limit? : Segment → Option Int
  | .constant => some 0x7fff
  | .temp => some 7
  | .static => some 239
  | .based _ | .pointer => none

/-- The address of the first cell of `static`. -/
def staticBase : Int := 16

/-- The register that an index of `pointer` selects: zero the first, all else the
second. -/
def pointerRegister (index : Int) : Line :=
  .address (if index == 0 then Base.this.symbol else Base.that.symbol)

/-- Refuse an index beyond the limit of its segment. A name that is no segment has no
limit. -/
def checkLimit (segment : Text) (index : Int) : Except Cause Unit :=
  match (Segment.ofText? segment).bind Segment.limit? with
  | some limit =>
    if limit < index then .error (.indexTooLarge segment index limit) else .ok ()
  | none => .ok ()

/-- The code that puts the address of a cell into `D`. Constants have no address. -/
def Segment.addressLines? (index : Int) : Segment → Option (List Line)
  | .constant => none
  | .based base =>
    some ([.address base.symbol] ++ assembly ["D=M"] ++ [.number index] ++ assembly ["D=D+A"])
  | .temp => some (assembly ["@R5", "D=A"] ++ [.number index] ++ assembly ["D=D+A"])
  | .pointer => some ([pointerRegister index] ++ assembly ["D=A"])
  | .static => some ([.number (staticBase + index)] ++ assembly ["D=A"])

/-- The code that puts the value of a cell into `D`. -/
def Segment.valueLines (index : Int) : Segment → List Line
  | .constant => [.number index] ++ assembly ["D=A"]
  | .based base =>
    [.address base.symbol] ++ assembly ["D=M"] ++ [.number index] ++ assembly ["A=D+A", "D=M"]
  | .temp => assembly ["@R5", "D=A"] ++ [.number index] ++ assembly ["A=D+A", "D=M"]
  | .pointer => [pointerRegister index] ++ assembly ["D=M"]
  | .static => [.number (staticBase + index)] ++ assembly ["D=M"]

/-- The code that puts the address of a cell of a named segment into `D`. -/
def addressCode (segment : Text) (index : Int) : Except Cause (List Line) :=
  match checkLimit segment index with
  | .error cause => .error cause
  | .ok () =>
    match (Segment.ofText? segment).bind (Segment.addressLines? index) with
    | some lines => .ok lines
    | none => .error (.unknownSegment segment)

/-- The code of a push. -/
def pushCode (segment : Text) (index : Int) : Except Cause (List Line) :=
  match checkLimit segment index with
  | .error cause => .error cause
  | .ok () =>
    match Segment.ofText? segment with
    | some s => .ok (s.valueLines index ++ pushD)
    | none => .error (.unknownSegment segment)

/-- The code that takes a value off the stack and stores it at the address in `D`, which
waits in the scratch register `R13`. -/
def popToD : List Line :=
  assembly ["@R13", "M=D", "@SP", "AM=M-1", "D=M", "@R13", "A=M", "M=D"]

/-- The code of a pop. -/
def popCode (segment : Text) (index : Int) : Except Cause (List Line) :=
  if segment == Segment.constant.name then .error .popConstant
  else (addressCode segment index).map (· ++ popToD)

/-! ### Writing code out -/

/-- The integer that stands in the code for a cell. A cell of `pointer` has a name instead. -/
def Segment.number? (index : Int) : Segment → Option Int
  | .constant | .based _ | .temp => some index
  | .static => some (staticBase + index)
  | .pointer => none

/-- Write out the code for a cell of a named segment, or the cause why there is none. -/
def writeOut (segment : Text) (index : Int) :
    Except Cause (List Line) → Except Failure (List Line)
  | .error cause => .error (Diagnostic.failure ⟨cause, none⟩)
  | .ok code =>
    if ((Segment.ofText? segment).bind (Segment.number? index)).all Numeral.isWritable then .ok code
    else .error (.numeral .unwritable)

/-- Refuse an index that a caller gives, if it is beyond the limit of its segment. -/
def checkIndex (segment : Text) (index : Int) : Except Failure Unit :=
  (checkLimit segment index).mapError fun cause => Diagnostic.failure ⟨cause, none⟩

/-- The code that puts the address of a cell into `D`, by an index that a caller gives. -/
def addressLines (segment : Text) (index : Int) : Except Failure (List Line) :=
  writeOut segment index (addressCode segment index)

/-- The code of a push, by an index that a caller gives. -/
def pushLines (segment : Text) (index : Int) : Except Failure (List Line) :=
  writeOut segment index (pushCode segment index)

/-- The code of a pop, by an index that a caller gives. -/
def popLines (segment : Text) (index : Int) : Except Failure (List Line) :=
  writeOut segment index (popCode segment index)

section Callers

variable (segment : Text) (index : Int)

/-- An index that is refused has no code. -/
theorem lines_of_checkIndex {f : Failure} (h : checkIndex segment index = .error f) :
    addressLines segment index = .error f ∧ pushLines segment index = .error f := by
  unfold checkIndex at h
  unfold addressLines addressCode pushLines pushCode
  cases hcheck : checkLimit segment index with
  | error cause => rw [hcheck] at h; cases h; exact ⟨rfl, rfl⟩
  | ok => rw [hcheck] at h; cases h

/-- A pop finds the address first. -/
theorem popLines_eq :
    popLines segment index =
      if segment == Segment.constant.name then .error (.diagnostic ⟨.popConstant, none⟩)
      else (addressLines segment index).map (· ++ popToD) := by
  unfold popLines popCode addressLines
  split
  · rfl
  · cases addressCode segment index with
    | error cause => rfl
    | ok lines =>
      show writeOut segment index (.ok (lines ++ popToD)) = _
      simp only [writeOut]
      split <;> rfl

end Callers

/-- The code of a move between the stack and a segment. -/
def moveLines (direction : Direction) (segment : Text) (index : Int) :
    Except Failure (List Line) :=
  match direction with
  | .kind .push => pushLines segment index
  | .kind .pop => popLines segment index
  | _ => .error (.diagnostic ⟨.wrongDirection direction, none⟩)

end HackStack.Stack
