import HackStack.Journal
import HackStack.Stack.Lowering

/-!
# The writer

A writer puts the code of commands into a sink, line by line. It numbers the labels
of comparisons and counts the instructions, that is the lines that do not open as a
label. Closing a writer closes its sink, once; after that nothing can be written.

Every operation gives its answer together with the writer afterwards, also when it
fails: a failed operation keeps what was done before the fault.
-/

namespace HackStack.Stack

open Hack

/-- Where the output goes: the lines received, and how often it was closed. -/
structure Sink where
  lines : Array Text
  closes : Nat
  deriving DecidableEq, Repr

/-- A sink that has received nothing. -/
def Sink.empty : Sink := ⟨#[], 0⟩

/-- Whether a sink takes no more lines. -/
def Sink.isClosed (s : Sink) : Bool := s.closes != 0

/-- The text that a sink has received. -/
def Sink.text (s : Sink) : Text := Text.ofLines s.lines.toList

/-- The state of a writer. -/
structure Writer where
  sink : Sink
  /-- The number for the labels of the next comparison. -/
  labels : Nat
  /-- How many instructions were written. -/
  instructions : Nat
  closed : Bool
  deriving DecidableEq, Repr

namespace Writer

/-- A writer on a sink that has received nothing. -/
def new : Writer := ⟨.empty, 0, 0, false⟩

/-- Count and send one line to an open sink. -/
def put (w : Writer) (line : Text) : Writer :=
  { w with
    sink := { w.sink with lines := w.sink.lines.push line }
    instructions := if isLabel line then w.instructions else w.instructions + 1 }

/-- A line is added to the text with a line feed behind it. -/
theorem text_put (w : Writer) (line : Text) :
    (w.put line).sink.text = w.sink.text ++ line ++ ['\n'] := by
  simp [put, Sink.text]

/-- Send lines, up to the first that the sink does not take. -/
def write (w : Writer) : List Text → Except Failure Unit × Writer
  | [] => (.ok (), w)
  | line :: more => if w.sink.isClosed then (.error .closedSink, w) else write (w.put line) more

/-- An open sink takes all lines, one after the other. -/
theorem write_of_open (w : Writer) (lines : List Text) (h : w.sink.isClosed = false) :
    w.write lines = (.ok (), lines.foldl put w) := by
  induction lines generalizing w with
  | nil => rfl
  | cons line more ih =>
    have hput : (w.put line).sink.isClosed = false := h
    simp [write, h, ih _ hput]

/-- A closed sink takes no line. -/
theorem write_of_closed (w : Writer) (line : Text) (more : List Text)
    (h : w.sink.isClosed = true) : w.write (line :: more) = (.error .closedSink, w) := by
  simp [write, h]

/-- Send the code of a command, and give it back when all of it was taken. -/
def emit (w : Writer) (code : List Line) : Except Failure (List Text) × Writer :=
  let lines := code.map Line.render
  match w.write lines with
  | (.ok (), w) => (.ok lines, w)
  | (.error e, w) => (.error e, w)

/-- Use up the number of a comparison's labels. -/
def countLabels (w : Writer) (mnemonic : Text) : Writer :=
  if (Arithmetic.ofText? mnemonic).any Arithmetic.isComparison then
    { w with labels := w.labels + 1 }
  else w

/-- Write an arithmetic command. The number of a comparison counts those before it, so it
can always be written. -/
def arithmetic (w : Writer) (mnemonic : Text) : Except Failure (List Text) × Writer :=
  match Arithmetic.ofText? mnemonic with
  | some op => (w.countLabels mnemonic).emit (op.lines w.labels)
  | none => (.error (unknownArithmetic mnemonic), w)

/-- Write a move between the stack and a segment. -/
def move (w : Writer) (direction : Direction) (segment : Text) (index : Int) :
    Except Failure (List Text) × Writer :=
  match moveLines direction segment index with
  | .error f => (.error f, w)
  | .ok code => w.emit code

/-- What is written for an arithmetic command is the code that its word stands for. -/
theorem arithmetic_eq (w : Writer) (mnemonic : Text) (h : Numeral.isWritable w.labels = true) :
    w.arithmetic mnemonic = match arithmeticLines mnemonic w.labels with
      | .error f => (.error f, w)
      | .ok code => (w.countLabels mnemonic).emit code := by
  unfold arithmetic arithmeticLines
  cases Arithmetic.ofText? mnemonic with
  | none => rfl
  | some op => simp [h]

/-- Close the writer and its sink, unless that was done before. -/
def close (w : Writer) : List Notice × Writer :=
  if w.closed then ([], w)
  else
    ([.outputClosed w.instructions],
      { w with sink := { w.sink with closes := w.sink.closes + 1 }, closed := true })

/-- A writer is closed once. -/
theorem close_of_closed (w : Writer) (h : w.closed = true) : w.close = ([], w) := by
  simp [close, h]

/-- Closing adds nothing to the text. -/
theorem text_close (w : Writer) : w.close.2.sink.text = w.sink.text := by
  unfold close
  split <;> rfl

end Writer

end HackStack.Stack
