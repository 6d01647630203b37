import HackStack.Cli.Options
import HackStack.Files.Tree
import HackStack.Journal
import HackStack.Hack.Memory
import HackStack.Stack.Diagnostic
import HackStack.Text.Styling

/-!
# What a call of a tool does

A call works on a file tree. It ends by itself or at a `Stop`: the help was asked for,
the command line is misused, the work failed, or something came up that the tool does
not report itself (`Crash`). A report has the exit code, what was printed on the two
outputs, and the tree afterwards. The journal goes to the error output before the
message of a stop.

What a tool prints, other than the journal, goes through a `Printer`, which every call is
given: how a text comes out depends on where it goes and not on the tool.
-/

namespace HackStack.Cli

open Files (Tree AccessError)

/-- What ends a call without a message of the tool's own. -/
inductive Crash where
  | access (e : AccessError)
  /-- A path has a null character in it. -/
  | nullInPath
  /-- A source is not UTF-8. -/
  | decoding (e : Text.Utf8.DecodeError)
  | compiling (f : Stack.Failure)
  | numeral (e : Numeral.Error)
  /-- A range of so many parts, in place of two. -/
  | rangeParts (count : Nat)
  | dump (e : Hack.AddressError)
  deriving DecidableEq, Repr

/-- The message of a crash. -/
def Crash.message : Crash → String
  | .access e => e.message
  | .nullInPath => "embedded null byte"
  | .decoding e => e.message
  | .compiling f => f.message
  | .numeral e => e.message
  | .rangeParts count =>
    if count < 2 then
      "not enough values to unpack (expected 2, got " ++ toString count ++ ")"
    else "too many values to unpack (expected 2)"
  | .dump e => e.message

/-- What ends a call early. -/
inductive Stop where
  | help
  /-- The command line does not fit the tool. -/
  | misuse (message : String)
  /-- An option was given the wrong way. -/
  | badOption (message : String)
  /-- The work cannot be done. -/
  | failed (message : String)
  | crash (c : Crash)
  deriving DecidableEq, Repr

/-- The hint at options that one may have been meant for, in the order of their names. -/
def hint : List Text → String
  | [] => ""
  | [name] => " Did you mean " ++ String.ofList name ++ "?"
  | names =>
    let sorted := names.mergeSort Text.notAfter
    " (Possible options: " ++ ", ".intercalate (sorted.map String.ofList) ++ ")"

/-- A fault in the options as a stop. -/
def OptionError.stop : OptionError → Stop
  | .unknown name similar =>
    .misuse ("No such option: " ++ String.ofList name ++ hint similar)
  | .needsValue name => .badOption ("Option " ++ Text.shown name ++ " requires an argument.")
  | .takesNoValue name => .badOption ("Option " ++ Text.shown name ++ " does not take a value.")

/-- What is told about a tool. -/
structure Tool where
  name : String
  /-- What follows the name on a command line. -/
  synopsis : String
  /-- The options, a line each. -/
  options : List String

/-- The line that shows how a tool is called. -/
def Tool.usage (t : Tool) : String := "Usage: " ++ t.name ++ " " ++ t.synopsis ++ "\n"

/-- The help of a tool. -/
def Tool.help (t : Tool) : String :=
  t.usage ++ "\nOptions:\n" ++ String.join (t.options.map fun o => "  " ++ o ++ "\n")

/-- How texts come out on the two outputs. -/
structure Printer where
  output : String → String
  errors : String → String

/-- A text without its control sequences. -/
def unstyled (s : String) : String := String.ofList (Text.unstyled s.toList)

/-- The printer for outputs of which it is known whether they are terminals. Only a terminal is
sent control sequences. -/
def Printer.onto (output errors : Bool) : Printer where
  output := if output then id else unstyled
  errors := if errors then id else unstyled

/-- The line that reports an error. -/
def errorLine (message : String) : String := "Error: " ++ message ++ "\n"

/-- How to call a tool, and where to find more. -/
def Tool.advice (t : Tool) : String :=
  t.usage ++ "Try '" ++ t.name ++ " --help' for help.\n\n"

/-- What a call has done so far. -/
structure Effects where
  tree : Tree
  /-- The texts for the output, each of them printed by itself. -/
  output : List String
  notices : List Notice
  deriving DecidableEq, Repr

/-- The outcome of a call. -/
structure Report where
  exit : Nat
  output : String
  errors : String
  crash : Option Crash
  tree : Tree
  deriving DecidableEq, Repr

/-- What has come out on the output. -/
def Effects.printed (e : Effects) (print : Printer) : String :=
  String.join (e.output.map print.output)

/-- The report of a call that ended by itself. -/
def Effects.finished (e : Effects) (print : Printer) (level : Level) : Report :=
  ⟨0, e.printed print, Notice.journal level e.notices, none, e.tree⟩

/-- The report of a call that ended at a stop. -/
def Effects.stopped (e : Effects) (print : Printer) (level : Level) (tool : Tool) (stop : Stop) :
    Report :=
  let journal := Notice.journal level e.notices
  let output := e.printed print
  match stop with
  | .help => ⟨0, output ++ print.output tool.help, journal, none, e.tree⟩
  | .misuse message =>
    ⟨2, output, journal ++ print.errors tool.advice ++ print.errors (errorLine message), none,
      e.tree⟩
  | .badOption message => ⟨2, output, journal ++ print.errors (errorLine message), none, e.tree⟩
  | .failed message => ⟨1, output, journal ++ print.errors (errorLine message), none, e.tree⟩
  | .crash c => ⟨1, output, journal, some c, e.tree⟩

/-- The report of a call. -/
def Effects.report (e : Effects) (print : Printer) (level : Level) (tool : Tool) :
    Except Stop Unit → Report
  | .ok () => e.finished print level
  | .error stop => e.stopped print level tool stop

/-! ### Checks on arguments -/

/-- A value of a parameter that is refused. -/
def invalidValue (parameter message : String) : Stop :=
  .misuse ("Invalid value for " ++ parameter ++ ": " ++ message)

/-- What a path on the command line may lead to. -/
structure PathRule where
  mustExist : Bool
  directories : Bool

/-- The noun for what a path leads to. -/
def PathRule.noun (r : PathRule) : String := if r.directories then "Path" else "File"

/-- Check a path on the command line. -/
def PathRule.check (r : PathRule) (tree : Tree) (parameter : String) (path : Text) :
    Except Stop Unit :=
  let refuse (why : String) : Except Stop Unit :=
    .error (invalidValue parameter (r.noun ++ " " ++ Text.shown path ++ why))
  if path.contains '\x00' then .error (.crash .nullInPath)
  else
    match tree.stat path with
    | .error _ => if r.mustExist then refuse " does not exist." else .ok ()
    | .ok .directory => if r.directories then .ok () else refuse " is a directory."
    | .ok (.file _) => .ok ()

/-- The argument of a parameter, which has to be there. -/
def required (parameter : String) : Option Text → Except Stop Text
  | some t => .ok t
  | none => .error (.misuse ("Missing argument '" ++ parameter ++ "'."))

/-- Refuse arguments that no parameter is left for. -/
def noExtra : List Text → Except Stop Unit
  | [] => .ok ()
  | extra =>
    let noun := if extra.length = 1 then "argument" else "arguments"
    .error (.misuse ("Got unexpected extra " ++ noun ++ " ("
      ++ " ".intercalate (extra.map String.ofList) ++ ")"))

end HackStack.Cli
