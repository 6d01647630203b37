import HackStack.Cli.Compiler
import HackStack.Cli.Runner

/-!
# The program

The first argument is the name of a tool, and the rest is the command line for it. The
tools see the working directory and what is below it: the program takes a snapshot of
the files there, calls the tool on it, and writes back the files that have changed.
-/

namespace HackStack.Main

open Files (Tree Location Entry)

/-- The path of a location under the working directory. -/
def pathOf (l : Location) : String := "/".intercalate (l.map String.ofList)

/-- The entries below a directory, at most `depth` levels deep. -/
def snapshot (depth : Nat) (l : Location) : IO (List (Location × Entry)) := do
  match depth with
  | 0 => return []
  | depth + 1 =>
    let here := (← IO.currentDir) / pathOf l
    let mut found := []
    for child in ← here.readDir do
      let location := l ++ [child.fileName.toList]
      if ← child.path.isDir then
        found := (location, Entry.directory) :: (← snapshot depth location) ++ found
      else
        let content ← IO.FS.readBinFile child.path
        found := (location, Entry.file content.toList) :: found
    return found

/-- How many levels of directories a snapshot covers. -/
def snapshotDepth : Nat := 16

/-- Write the files of a tree that another does not have. -/
def writeChanges (old new : Tree) : IO Unit := do
  for (l, entry) in new.entries do
    if let .file content := entry then
      if old.get? l != some entry then
        IO.FS.writeBinFile ((← IO.currentDir) / pathOf l) ⟨content.toArray⟩

/-- The tools by their names. -/
def toolNamed? (name : String) : Option (Cli.Printer → Tree → List Text → Cli.Report) :=
  if name == Cli.Compiler.tool.name then some Cli.Compiler.call
  else if name == Cli.Runner.tool.name then some Cli.Runner.call
  else none

/-- Call a tool on the files of the working directory. -/
def perform (tool : Cli.Printer → Tree → List Text → Cli.Report) (args : List String) :
    IO UInt32 := do
  let tree : Tree := ⟨← snapshot snapshotDepth [], []⟩
  let print := Cli.Printer.onto (← (← IO.getStdout).isTty) (← (← IO.getStderr).isTty)
  let report := tool print tree (args.map String.toList)
  writeChanges tree report.tree
  IO.print report.output
  IO.eprint report.errors
  if let some crash := report.crash then IO.eprintln crash.message
  return report.exit.toUInt32

end HackStack.Main

/-- Call the tool that the first argument names. -/
def main (args : List String) : IO UInt32 := do
  match args with
  | name :: rest =>
    match HackStack.Main.toolNamed? name with
    | some tool => HackStack.Main.perform tool rest
    | none => IO.eprintln ("no such tool: " ++ name); return 2
  | [] => IO.eprintln "the name of a tool is missing"; return 2
