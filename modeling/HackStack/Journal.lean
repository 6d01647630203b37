import HackStack.Stack.Command

/-!
# The journal

The tools say what they do in a journal of notices. A notice has a level, the
channel it is written to, and a wording. What is shown of a journal depends on the
level asked for.
-/

namespace HackStack

/-- How grave a notice is. -/
inductive Level where
  | debug
  | info
  | warning
  deriving DecidableEq, Repr

/-- The rank of a level. -/
def Level.rank : Level → Nat
  | .debug => 0
  | .info => 1
  | .warning => 2

/-- The name of a level. -/
def Level.name : Level → String
  | .debug => "DEBUG"
  | .info => "INFO"
  | .warning => "WARNING"

/-- What a tool has to report. -/
inductive Notice where
  /-- So many lines of code were found. -/
  | commandsFound (count : Nat)
  /-- A command on this line has no code. -/
  | commandSkipped (line : Int) (kind : Stack.Kind)
  /-- The output was closed after so many instructions. -/
  | outputClosed (instructions : Nat)
  /-- A file is being compiled into another. -/
  | compiling (source target : String)
  /-- The machine was stopped by the step limit, before the instruction at `pc`. -/
  | stopped (steps pc : Nat)
  deriving DecidableEq, Repr

/-- The level of a notice. -/
def Notice.level : Notice → Level
  | .commandsFound _ | .outputClosed _ => .debug
  | .compiling _ _ => .info
  | .commandSkipped _ _ | .stopped _ _ => .warning

/-- The channel that a notice is written to. -/
def Notice.channel : Notice → String
  | .commandsFound _ => "vm_parse"
  | .outputClosed _ => "vm_codegen"
  | .commandSkipped _ _ | .compiling _ _ => "vm_translate"
  | .stopped _ _ => "hack_run"

/-- The wording of a notice. -/
def Notice.message : Notice → String
  | .commandsFound count => toString count ++ " commands after preprocessing"
  | .commandSkipped line kind =>
    "line " ++ toString line ++ ": " ++ kind.word ++ " commands are not translated, skipped"
  | .outputClosed instructions =>
    "output closed after " ++ toString instructions ++ " instructions"
  | .compiling source target => "translating " ++ source ++ " -> " ++ target
  | .stopped steps pc => "stopped after " ++ toString steps ++ " steps, pc=" ++ toString pc

/-- A notice as a line of the journal. -/
def Notice.render (n : Notice) : String := n.level.name ++ " " ++ n.channel ++ ": " ++ n.message

/-- The lines of a journal from a level upward. -/
def Notice.journal (least : Level) (notices : List Notice) : String :=
  String.join ((notices.filter fun n => least.rank ≤ n.level.rank).map fun n => n.render ++ "\n")

end HackStack
