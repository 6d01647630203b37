import HackStack.Cli.Report
import HackStack.Stack.Compile

/-!
# The compiler on the command line

The tool compiles one file of commands, or every such file of a directory in the order
of their names. A file of commands has the suffix `.vm`; its output has the same name
with the suffix `.asm`, unless the call names another. The first file at fault ends the
call. What was compiled before it stays, and its own output holds what was compiled of
it.
-/

namespace HackStack.Cli.Compiler

open Files (Path Tree)

/-- What is told about the tool. -/
def tool : Tool where
  name := "vm-translate"
  synopsis := "[OPTIONS] SRC"
  options :=
    ["-o, --out FILE  output .asm file",
     "--test          print the code generated for each command",
     "-v, --verbose   more logging (-vv for debug)",
     "--help          Show this message and exit."]

/-- The options of the tool. -/
inductive Key where
  | out
  | test
  | verbose
  | help
  deriving DecidableEq, Repr

/-- How the options are written. -/
def specs : List (OptionSpec Key) :=
  [⟨.out, "--out".toList, some 'o', true⟩,
   ⟨.test, "--test".toList, none, false⟩,
   ⟨.verbose, "--verbose".toList, some 'v', false⟩,
   ⟨.help, "--help".toList, none, false⟩]

/-- The level of the journal after so many requests for more. -/
def levelFor : Nat → Level
  | 0 => .warning
  | 1 => .info
  | _ => .debug

/-- What a call asks for. -/
structure Request where
  source : Path
  out : Option Text
  test : Bool
  level : Level
  deriving DecidableEq, Repr

/-- The suffix of a file of commands. -/
def sourceSuffix : Text := ".vm".toList

/-- The suffix of the output. -/
def targetSuffix : Text := ".asm".toList

/-- What a call asks for, when its options and arguments are in order. -/
def request (tree : Tree) (args : List Text) : Except Stop Request :=
  match parseOptions specs args with
  | .error e => .error e.stop
  | .ok parsed => do
    if parsed.has .help then throw .help
    let out := parsed.value? .out
    if let some path := out then
      (PathRule.mk false false).check tree "'-o' / '--out'" path
    let source ← required "SRC" parsed.arguments.head?
    (PathRule.mk true true).check tree "'SRC'" source
    noExtra parsed.arguments.tail
    return ⟨.parse source, out, parsed.has .test, levelFor (parsed.count .verbose)⟩

/-- A file to be compiled and its output. -/
structure Job where
  source : Path
  target : Path
  deriving DecidableEq, Repr

/-- The job for a file whose output goes beside it. -/
def Job.beside (source : Path) : Job := ⟨source, source.withSuffix targetSuffix⟩

/-- A path as it is named in messages. -/
def named (p : Path) : String := String.ofList p.render

/-- Whether a path leads to a directory. -/
def isDirectory (tree : Tree) (p : Path) : Bool :=
  match tree.stat p.render with
  | .ok .directory => true
  | _ => false

/-- The files of commands in a directory. -/
def sources (tree : Tree) (p : Path) : List Path :=
  match tree.locate p.render with
  | .error _ => []
  | .ok l => ((tree.names l).filter fun name => sourceSuffix.isSuffixOf name).map p.child

/-- Whether a path names a file of commands, in letters of either case. -/
def isSource (p : Path) : Bool := (Files.suffix p.name).map Char.toLower == sourceSuffix

/-- The jobs of a directory. -/
def directoryJobs (tree : Tree) (r : Request) : Except Stop (List Job) :=
  if r.out.isSome then .error (.misuse "--out can only be used with a single .vm file")
  else
    let files := sources tree r.source
    if files.isEmpty then .error (.failed ("no .vm files in " ++ named r.source))
    else .ok (files.map Job.beside)

/-- The output of a single file: an empty name stands for none. -/
def targetOf (r : Request) : Path :=
  match r.out with
  | some path => if path.isEmpty then r.source.withSuffix targetSuffix else .parse path
  | none => r.source.withSuffix targetSuffix

/-- The job of a single file, which its output must not replace. -/
def fileJob (tree : Tree) (r : Request) : Except Stop (List Job) :=
  if !isSource r.source then
    .error (.misuse ("input must be a .vm file: " ++ named r.source))
  else if tree.resolve (targetOf r) == tree.resolve r.source then
    .error (.misuse ("output would overwrite the input: " ++ named r.source))
  else .ok [⟨r.source, targetOf r⟩]

/-- The jobs that a call asks for. -/
def jobs (tree : Tree) (r : Request) : Except Stop (List Job) :=
  if isDirectory tree r.source then directoryJobs tree r else fileJob tree r

/-- The stop for a file that is not compiled. -/
def failureStop (source : Path) : Stack.Failure → Stop
  | .diagnostic d =>
    let place :=
      match d.line with
      | some line => named source ++ ":" ++ toString line
      | none => named source
    .failed (place ++ ": " ++ d.reason)
  | f => .crash (.compiling f)

/-- The effects of a compilation whose output is at a location. -/
def compiled (e : Effects) (l : Files.Location) (p : Stack.Progress) : Effects :=
  { tree := e.tree.put l (Text.Utf8.encode p.writer.sink.text)
    output := e.output ++ p.echo.toList.map fun line => String.ofList line ++ "\n"
    notices := e.notices ++ p.notices.toList }

/-- The line printed for a file that is compiled. -/
def createdLine (target : Path) (count : Nat) : String :=
  "File created: " ++ named target ++ " (" ++ toString count ++ " instructions)\n"

/-- Compile the bytes of a file into the output at a location. -/
def compileBytes (test : Bool) (e : Effects) (job : Job) (content : Text.Utf8.Bytes)
    (l : Files.Location) : Except Stop Unit × Effects :=
  match Text.Utf8.decodeBlocks content with
  | .error fault => (.error (.crash (.decoding fault)), compiled e l .abandoned)
  | .ok source =>
    let c := Stack.compile test (Text.unifyReturns source)
    let e := compiled e l c.final
    match c.result with
    | .error f => (.error (failureStop job.source f), e)
    | .ok count => (.ok (), { e with output := e.output ++ [createdLine job.target count] })

/-- Do a job. -/
def compileFile (test : Bool) (e : Effects) (job : Job) : Except Stop Unit × Effects :=
  let announced := Notice.compiling (named job.source) (named job.target)
  let e := { e with notices := e.notices ++ [announced] }
  match e.tree.read job.source.render with
  | .error fault => (.error (.crash (.access fault)), e)
  | .ok content =>
    match e.tree.writable job.target.render with
    | .error fault => (.error (.crash (.access fault)), e)
    | .ok l => compileBytes test e job content l

/-- Do jobs, up to the first that fails. -/
def compileFiles (test : Bool) (e : Effects) : List Job → Except Stop Unit × Effects
  | [] => (.ok (), e)
  | job :: more =>
    match compileFile test e job with
    | (.error stop, e) => (.error stop, e)
    | (.ok (), e) => compileFiles test e more

/-- A call of the tool. -/
def call (print : Printer) (tree : Tree) (args : List Text) : Report :=
  let start : Effects := ⟨tree, [], []⟩
  match request tree args with
  | .error stop => start.stopped print .warning tool stop
  | .ok r =>
    match jobs tree r with
    | .error stop => start.stopped print r.level tool stop
    | .ok js =>
      let (result, e) := compileFiles r.test start js
      e.report print r.level tool result

end HackStack.Cli.Compiler
