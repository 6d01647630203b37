import HackStack.Cli.Report
import HackStack.Hack.Assignment
import HackStack.Hack.Dump
import HackStack.Hack.Machine

/-!
# The machine on the command line

The tool assembles a program, runs it on a memory of zeros with some cells set, and
dumps a range of the memory into a file. The range is taken apart before anything else
is done; a fault in it is not reported by the tool itself. Nor is a fault of the dump,
whose file then holds the rows before it.
-/

namespace HackStack.Cli.Runner

open Files (Tree)

/-- What is told about the tool. -/
def tool : Tool where
  name := "hack-run"
  synopsis := "[OPTIONS] PROGRAM_ASM DUMP_CSV MEM_RANGE"
  options :=
    ["--set TEXT       initial RAM value, e.g. SP=256",
     "--steps INTEGER  instruction limit  [default: 100000]",
     "--help           Show this message and exit."]

/-- The options of the tool. -/
inductive Key where
  | set
  | steps
  | help
  deriving DecidableEq, Repr

/-- How the options are written. -/
def specs : List (OptionSpec Key) :=
  [⟨.set, "--set".toList, none, true⟩,
   ⟨.steps, "--steps".toList, none, true⟩,
   ⟨.help, "--help".toList, none, false⟩]

/-- The level of the journal. -/
def level : Level := .info

/-- What a call asks for. -/
structure Request where
  program : Text
  dump : Text
  range : Text
  assignments : List Text
  limit : Int
  deriving DecidableEq, Repr

/-- The step limit that a call asks for. -/
def stepLimit (value : Option Text) : Except Stop Int :=
  match value with
  | none => .ok Hack.defaultLimit
  | some t =>
    match Numeral.read .decimal t with
    | .ok n => .ok n
    | .error _ => .error (invalidValue "'--steps'" (Text.shown t ++ " is not a valid integer."))

/-- What a call asks for, when its options and arguments are in order. -/
def request (tree : Tree) (args : List Text) : Except Stop Request :=
  match parseOptions specs args with
  | .error e => .error e.stop
  | .ok parsed => do
    if parsed.has .help then throw .help
    let limit ← stepLimit (parsed.value? .steps)
    let program ← required "PROGRAM_ASM" parsed.arguments[0]?
    (PathRule.mk true false).check tree "'PROGRAM_ASM'" program
    let dump ← required "DUMP_CSV" parsed.arguments[1]?
    (PathRule.mk false false).check tree "'DUMP_CSV'" dump
    let range ← required "MEM_RANGE" parsed.arguments[2]?
    noExtra (parsed.arguments.drop 3)
    return ⟨program, dump, range, parsed.values .set, limit⟩

/-- The first and the last address of a range, written with a colon between them. -/
def parseRange (t : Text) : Except Crash (Int × Int) :=
  match t.splitOn ':' with
  | [first, last] =>
    match Numeral.read .marked first with
    | .error e => .error (.numeral e)
    | .ok first =>
      match Numeral.read .marked last with
      | .error e => .error (.numeral e)
      | .ok last => .ok (first, last)
  | parts => .error (.rangeParts parts.length)

/-- Carry out assignments, up to the first that is refused. -/
def assign (ram : Hack.Memory) : List Text → Except Hack.AssignmentError (Hack.Memory)
  | [] => .ok ram
  | t :: more =>
    match Hack.Assignment.parse t with
    | .error e => .error e
    | .ok a => assign (a.store ram) more

/-- Run the program in a file on a memory. -/
def execute (tree : Tree) (r : Request) (ram : Hack.Memory) : Except Stop Hack.Execution :=
  match tree.read r.program with
  | .error e => .error (.crash (.access e))
  | .ok content =>
    match Text.Utf8.decode content with
    | .error e => .error (.failed e.message)
    | .ok source => .ok (Hack.runSource (Text.unifyReturns source) ram r.limit)

/-- Write a dump of the memory. -/
def writeDump (e : Effects) (path : Text) (ram : Hack.Memory) (first last : Int) :
    Except Stop Unit × Effects :=
  match e.tree.writable path with
  | .error fault => (.error (.crash (.access fault)), e)
  | .ok l =>
    let dump := Hack.dump ram first last
    let e := { e with tree := e.tree.put l (Text.Utf8.encode dump.text) }
    match dump.broken with
    | some fault => (.error (.crash (.dump fault)), e)
    | none => (.ok (), e)

/-- The line printed after a run. -/
def executedLine (count : Nat) : String := "Executed " ++ toString count ++ " instructions\n"

/-- Do what a call asks for. -/
def perform (e : Effects) (r : Request) : Except Stop Unit × Effects :=
  match parseRange r.range with
  | .error crash => (.error (.crash crash), e)
  | .ok (first, last) =>
    match assign (Hack.blankMemory Hack.memorySize) r.assignments with
    | .error fault => (.error (.failed fault.message), e)
    | .ok ram =>
      match execute e.tree r ram with
      | .error stop => (.error stop, e)
      | .ok run =>
        let e := { e with notices := e.notices ++ run.notices }
        match run.result with
        | .error fault => (.error (.failed fault.message), e)
        | .ok count =>
          match writeDump e r.dump run.ram first last with
          | (.error stop, e) => (.error stop, e)
          | (.ok (), e) => (.ok (), { e with output := e.output ++ [executedLine count] })

/-- A call of the tool. -/
def call (print : Printer) (tree : Tree) (args : List Text) : Report :=
  let start : Effects := ⟨tree, [], []⟩
  match request tree args with
  | .error stop => start.stopped print level tool stop
  | .ok r =>
    let (result, e) := perform start r
    e.report print level tool result

end HackStack.Cli.Runner
