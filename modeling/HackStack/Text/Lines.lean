import HackStack.Text.Basic

/-!
# Line breaks

There are two ways to cut a text into lines. Command sources are cut at line feeds
only (`feedLines`). Assembly sources are cut at every line boundary of Unicode
(`lines`), where a carriage return and the line feed after it are one boundary.
A text read from a file first has its returns unified (`unifyReturns`).

A boundary at the very end of a text opens one more line, which is empty: the
readers drop blank lines, and no line after it is there to be renumbered.
-/

namespace HackStack.Text

/-- The ranges of the line boundaries. -/
def lineBreakRanges : List (Nat × Nat) :=
  [(0x0a, 0x0d), (0x1c, 0x1e), (0x85, 0x85), (0x2028, 0x2029)]

/-- Whether a character ends a line of an assembly source. -/
def isLineBreak (c : Char) : Bool := inRanges lineBreakRanges c

/-- Put the text, its returns unified, after the reversed text `acc`. -/
def unifyReturnsOnto (acc : Text) : Text → Text
  | [] => acc.reverse
  | '\r' :: '\n' :: rest => unifyReturnsOnto ('\n' :: acc) rest
  | '\r' :: rest => unifyReturnsOnto ('\n' :: acc) rest
  | c :: rest => unifyReturnsOnto (c :: acc) rest

/-- Write every carriage return, with the line feed that may follow it, as one line
feed. -/
def unifyReturns (t : Text) : Text := unifyReturnsOnto [] t

/-- The lines of a text cut at line feeds only. -/
def feedLines (t : Text) : List Text := t.splitOn '\n'

/-- The lines of a text cut at every line boundary. -/
def lines (t : Text) : List Text := (unifyReturns t).splitOnP isLineBreak

end HackStack.Text
