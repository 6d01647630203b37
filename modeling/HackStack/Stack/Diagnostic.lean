import HackStack.Numeral
import HackStack.Stack.Command

/-!
# Diagnostics

What can be wrong with a stack command. A diagnostic has a cause and, when it is
known, the number of the line at fault. Every cause belongs to a category and has
one wording, its `reason`; the message puts the line in front of it.

Two failures carry no line: a number that is too long to be read or to be written, and
writing to a sink that is closed. A diagnostic that would give such a number is the first
of these failures itself (`Diagnostic.failure`).
-/

namespace HackStack.Stack

/-- The sorts of diagnostics. -/
inductive Category where
  /-- No sort in particular. -/
  | general
  | malformedCommand
  | unknownCommand
  | missingOperand
  | invalidOperand
  | noMoreCommands
  | noCurrentCommand
  | operandUnavailable
  | unsupportedArithmetic
  | unsupportedSegment
  | invalidDirection
  deriving DecidableEq, Repr

/-- Which way a value is asked to move: by a kind of command, by a name, or not said. -/
inductive Direction where
  | kind (k : Kind)
  | named (t : Text)
  | unspecified
  deriving DecidableEq, Repr

/-- A direction as messages show it. -/
def Direction.shown : Direction → String
  | .kind k => "<Kind." ++ k.title ++ ": " ++ toString k.number ++ ">"
  | .named t => Text.shown t
  | .unspecified => "None"

/-- What is wrong. -/
inductive Cause where
  /-- A line of more than three words. -/
  | tooManyWords (line : Text)
  /-- A first word that starts no command. -/
  | unknownWord (word : Text)
  /-- A keyword without its first operand. -/
  | noArgument (word : Text)
  /-- A keyword without its numeric operand. -/
  | noIndex (word : Text)
  /-- A numeric operand that is not plain digits. -/
  | notNumeric (text : Text)
  /-- An index beyond the end of a segment of fixed size. -/
  | indexTooLarge (segment : Text) (index limit : Int)
  /-- An advance past the last command. -/
  | exhausted
  /-- A question about the current command before there is one. -/
  | notStarted
  /-- A question for the first operand of a return. -/
  | returnOperand
  /-- A question for the numeric operand of a command that has none. -/
  | noNumericOperand (kind : Kind)
  /-- A word that is no arithmetic command. -/
  | unknownArithmetic (mnemonic : Text)
  /-- A name that is no segment. -/
  | unknownSegment (segment : Text)
  /-- A pop into the segment of constants. -/
  | popConstant
  /-- A move in another direction than push or pop. -/
  | wrongDirection (direction : Direction)
  /-- A complaint in the caller's own words. -/
  | worded (category : Category) (reason : String)
  deriving DecidableEq, Repr

/-- The category that a cause belongs to. -/
def Cause.category : Cause → Category
  | .tooManyWords _ => .malformedCommand
  | .unknownWord _ => .unknownCommand
  | .noArgument _ => .missingOperand
  | .noIndex _ | .notNumeric _ | .indexTooLarge _ _ _ => .invalidOperand
  | .exhausted => .noMoreCommands
  | .notStarted => .noCurrentCommand
  | .returnOperand | .noNumericOperand _ => .operandUnavailable
  | .unknownArithmetic _ => .unsupportedArithmetic
  | .unknownSegment _ | .popConstant => .unsupportedSegment
  | .wrongDirection _ => .invalidDirection
  | .worded category _ => category

/-- The wording of a cause. -/
def Cause.reason : Cause → String
  | .tooManyWords line => "too many tokens in " ++ Text.shown line
  | .unknownWord word => "unknown command " ++ Text.shown word
  | .noArgument word => String.ofList word ++ " needs an argument"
  | .noIndex word => String.ofList word ++ " needs a numeric second argument"
  | .notNumeric text => "expected a non-negative integer, got " ++ Text.shown text
  | .indexTooLarge segment index limit =>
    String.ofList segment ++ " index " ++ toString index ++ " is out of range 0.."
      ++ toString limit
  | .exhausted => "no commands left to advance to"
  | .notStarted => "advance() has not been called yet"
  | .returnOperand => "return has no arguments"
  | .noNumericOperand kind => kind.word ++ " has no numeric argument"
  | .unknownArithmetic mnemonic => "unknown arithmetic command " ++ Text.shown mnemonic
  | .unknownSegment segment => "unknown segment " ++ Text.shown segment
  | .popConstant => "cannot pop into the constant segment"
  | .wrongDirection direction => "expected push or pop, got " ++ direction.shown
  | .worded _ reason => reason

/-- A cause, and the line where it arose. -/
structure Diagnostic where
  cause : Cause
  line : Option Int
  deriving DecidableEq, Repr

/-- The category of a diagnostic. -/
def Diagnostic.category (d : Diagnostic) : Category := d.cause.category

/-- The wording of a diagnostic without its line. -/
def Diagnostic.reason (d : Diagnostic) : String := d.cause.reason

/-- The wording of a diagnostic, the line in front when it is known. -/
def Diagnostic.message (d : Diagnostic) : String :=
  match d.line with
  | some line => "line " ++ toString line ++ ": " ++ d.reason
  | none => d.reason

/-- Why an operation on stack commands fails. -/
inductive Failure where
  | diagnostic (d : Diagnostic)
  /-- A number cannot be read, or cannot be written. -/
  | numeral (e : Numeral.Error)
  /-- The sink is closed. -/
  | closedSink
  deriving DecidableEq, Repr

/-- The message of a failure. -/
def Failure.message : Failure → String
  | .diagnostic d => d.message
  | .numeral e => e.message
  | .closedSink => "I/O operation on closed file"

/-- The index that the wording of a cause gives. -/
def Cause.index? : Cause → Option Int
  | .indexTooLarge _ index _ => some index
  | _ => none

/-- Whether the line and the index that a diagnostic gives can be written. -/
def Diagnostic.isWritable (d : Diagnostic) : Bool :=
  d.line.all Numeral.isWritable && d.cause.index?.all Numeral.isWritable

/-- The failure with a diagnostic, or with a number in it that cannot be written. -/
def Diagnostic.failure (d : Diagnostic) : Failure :=
  if d.isWritable then .diagnostic d else .numeral .unwritable

/-- A failure with what is in it written out. -/
def Failure.written : Failure → Failure
  | .diagnostic d => d.failure
  | f => f

/-- A failure that arose on a known line. A failure other than a diagnostic names none. -/
def Failure.onLine (line : Int) : Failure → Failure
  | .diagnostic d => .diagnostic { d with line := some line }
  | f => f

end HackStack.Stack
