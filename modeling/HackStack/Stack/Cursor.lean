import HackStack.Stack.Parser
import HackStack.Text.Lines
import HackStack.Journal

/-!
# A cursor over a command source

A cursor walks over the lines of code of a source. The lines are found at once, but
each is read only when the cursor advances to it, so that a fault shows when it is
reached. A fault uses up its line and leaves the command before it current.

Every operation gives its answer together with the cursor afterwards.
-/

namespace HackStack.Stack

/-- The lines of code of a source, how many of them are used up, and the command read
last. -/
structure Cursor where
  lines : List CodeLine
  position : Nat
  current : Option Command
  deriving DecidableEq, Repr

/-- The lines of code of a source, which is cut at line feeds. -/
def sourceLines (source : Text) : List CodeLine := CodeLine.ofLines (Text.feedLines source)

namespace Cursor

/-- A cursor before the first command of a source. -/
def ofSource (source : Text) : Cursor := ⟨sourceLines source, 0, none⟩

/-- What is reported when a cursor is made. -/
def notice (c : Cursor) : Notice := .commandsFound c.lines.length

/-- Whether there are lines left. -/
def hasMore (c : Cursor) : Bool := c.position < c.lines.length

/-- Read the next command. -/
def advance (c : Cursor) : Except Failure Unit × Cursor :=
  match c.lines[c.position]? with
  | none => (.error (.diagnostic ⟨.exhausted, none⟩), c)
  | some line =>
    match Command.parse line.code line.number with
    | .error e => (.error e, { c with position := c.position + 1 })
    | .ok command => (.ok (), { c with position := c.position + 1, current := command })

/-- The current command, which there must be. -/
def command (c : Cursor) : Except Failure Command :=
  match c.current with
  | some command => .ok command
  | none => .error (.diagnostic ⟨.notStarted, none⟩)

/-- The line of the current command. -/
def lineNumber (c : Cursor) : Option Int := c.current.map (·.line)

/-- The kind of the current command. -/
def kind (c : Cursor) : Except Failure Kind := c.command.map (·.kind)

/-- The first operand of the current command. -/
def operand1 (c : Cursor) : Except Failure Text :=
  match c.command with
  | .error e => .error e
  | .ok command =>
    match command.operand1? with
    | some t => .ok t
    | none => .error (failAt command.line .returnOperand)

/-- The numeric operand of the current command. -/
def operand2 (c : Cursor) : Except Failure Nat :=
  match c.command with
  | .error e => .error e
  | .ok command =>
    match command.operand2? with
    | some n => .ok n
    | none => .error (failAt command.line (.noNumericOperand command.kind))

/-- Advance if there are lines left, and give the command that is then current. -/
def next (c : Cursor) : Except Failure (Option Command) × Cursor :=
  if c.hasMore then
    match c.advance with
    | (.error e, c) => (.error e, c)
    | (.ok (), c) => (.ok c.current, c)
  else (.ok none, c)

/-- Advance once for each of the lines left, and put the commands met before the reversed
list `acc`. -/
def drainOnto (acc : List Command) (c : Cursor) :
    List CodeLine → Except Failure (List Command) × Cursor
  | [] => (.ok acc.reverse, c)
  | _ :: left =>
    match c.next with
    | (.error e, c) => (.error e, c)
    | (.ok none, c) => drainOnto acc c left
    | (.ok (some command), c) => drainOnto (command :: acc) c left

/-- Advance to the end, and give the commands on the way. -/
def drain (c : Cursor) : Except Failure (List Command) × Cursor :=
  drainOnto [] c (c.lines.drop c.position)

end Cursor

end HackStack.Stack
