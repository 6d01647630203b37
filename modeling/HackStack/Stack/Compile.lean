import HackStack.Stack.Cursor
import HackStack.Stack.Writer

/-!
# Compiling a source

A source is compiled command by command, as a cursor advances over its lines.
Arithmetic commands and moves are written, the others are skipped with a warning. The
first fault ends the work; what was written before it stays. The output is closed in
every case.

On demand each command written is echoed, followed by its code indented by four
spaces.
-/

namespace HackStack.Stack

/-- The state of a compilation under way. -/
structure Progress where
  writer : Writer
  /-- The lines echoed so far. -/
  echo : Array Text
  notices : Array Notice
  deriving DecidableEq, Repr

/-- A command as it is echoed. -/
def Command.shown (c : Command) : Text :=
  match c.operation with
  | .arithmetic op => op.mnemonic
  | _ =>
    c.kind.word.toList ++ ' ' :: c.operand1?.getD [] ++ ' '
      :: Numeral.decimal (c.operand2?.getD 0)

/-- The indentation of echoed code. -/
def indentation : Text := [' ', ' ', ' ', ' ']

/-- The echo of a command and its code. -/
def Command.echo (c : Command) (code : List Text) : List Text :=
  c.shown :: code.map (indentation ++ ·)

namespace Progress

/-- The state before the first command. -/
def start : Progress := ⟨.new, #[], #[]⟩

/-- The state after a command was written, or the fault on its line. -/
def wrote (test : Bool) (c : Command) (echo : Array Text) (notices : Array Notice) :
    Except Failure (List Text) × Writer → Except Failure Unit × Progress
  | (.error e, writer) => (.error (e.onLine c.line), ⟨writer, echo, notices⟩)
  | (.ok code, writer) =>
    (.ok (), ⟨writer, if test then echo ++ c.echo code else echo, notices⟩)

/-- Compile one command. -/
def command (test : Bool) (c : Command) : Progress → Except Failure Unit × Progress
  | ⟨writer, echo, notices⟩ =>
    match c.operation with
    | .arithmetic op => wrote test c echo notices (writer.arithmetic op.mnemonic)
    | .push segment index => wrote test c echo notices (writer.move (.kind .push) segment index)
    | .pop segment index => wrote test c echo notices (writer.move (.kind .pop) segment index)
    | _ => (.ok (), ⟨writer, echo, notices.push (.commandSkipped c.line c.kind)⟩)

/-- Compile the commands that a cursor advances to, one for each of the lines left, up to
the first fault. -/
def follow (test : Bool) (p : Progress) (c : Cursor) :
    List CodeLine → Except Failure Unit × Progress
  | [] => (.ok (), p)
  | _ :: left =>
    match c.advance with
    | (.error e, _) => (.error e, p)
    | (.ok (), c) =>
      match c.command with
      | .error e => (.error e, p)
      | .ok current =>
        match p.command test current with
        | (.error e, p) => (.error e, p)
        | (.ok (), p) => follow test p c left

/-- Close the output. -/
def close (p : Progress) : Progress :=
  let (notices, writer) := p.writer.close
  { p with writer, notices := p.notices ++ notices }

end Progress

/-- What a compilation leaves behind: the number of instructions or the fault, and the
state at the end. -/
structure Compilation where
  result : Except Failure Nat
  final : Progress
  deriving Repr

/-- Compile a source, with an echo if `test` is set. -/
def compile (test : Bool) (source : Text) : Compilation :=
  let c := Cursor.ofSource source
  let start := { Progress.start with notices := #[c.notice] }
  match start.follow test c c.lines with
  | (.error e, p) => ⟨.error e, p.close⟩
  | (.ok (), p) => ⟨.ok p.writer.instructions, p.close⟩

/-- What is left behind when the source cannot even be read. -/
def Progress.abandoned : Progress := Progress.start.close

namespace Compilation

/-- The text written. -/
def text (c : Compilation) : Text := c.final.writer.sink.text

/-- The text echoed. -/
def echo (c : Compilation) : Text := Text.ofLines c.final.echo.toList

/-- What was reported. -/
def notices (c : Compilation) : List Notice := c.final.notices.toList

end Compilation

end HackStack.Stack
