import HackStack.Journal
import HackStack.Hack.Assembler
import HackStack.Hack.Memory

/-!
# The machine

The machine has the registers `A` and `D`, the number of the next instruction, and
its memory. A cell of the memory may hold any integer from outside; the machine reads
it as a signed word and writes words. A result goes to the memory through the `A` from
before the instruction, and a jump goes there too.

An instruction that touches a cell outside the memory is a fault and is not carried
out. A run ends when the next instruction is outside the program, at a fault, or when
the step limit is reached.
-/

namespace HackStack.Hack

/-- The state of the machine. -/
structure Machine where
  a : Nat
  d : Nat
  pc : Nat
  ram : Memory
  deriving DecidableEq, Repr

/-- An access to memory outside of it. -/
structure Fault where
  line : Int
  address : Nat
  deriving DecidableEq, Repr

/-- The message of a fault. -/
def Fault.message (f : Fault) : String :=
  "line " ++ toString f.line ++ ": memory access out of range: " ++ toString f.address

namespace Machine

/-- The machine before the first instruction. -/
def start (ram : Memory) : Machine := ⟨0, 0, 0, ram⟩

/-- Whether an operation reads or writes the memory. -/
def touchesMemory : Operation → Bool
  | .address _ => false
  | .compute dest _ memory _ => memory || dest.contains .m

/-- The fault that an instruction would be. -/
def fault? (m : Machine) (i : Instruction) : Option Fault :=
  if touchesMemory i.operation && m.ram.size ≤ m.a then some ⟨i.line, m.a⟩ else none

/-- The second operand of a computation. -/
def operand (m : Machine) (memory : Bool) : Int := if memory then m.ram.getD m.a 0 else m.a

/-- The result of a computation, a word. -/
def result (m : Machine) (comp : Computation) (memory : Bool) : Nat :=
  Word.wrap (comp.eval (Word.signed m.d) (Word.signed (m.operand memory)))

/-- Carry out an operation that is no fault. -/
def execute (m : Machine) : Operation → Machine
  | .address value => { m with a := value, pc := m.pc + 1 }
  | .compute dest comp memory jump =>
    let out := m.result comp memory
    { a := if dest.contains .a then out else m.a
      d := if dest.contains .d then out else m.d
      pc := if jump.holds (Word.signed out) then m.a else m.pc + 1
      ram := if dest.contains .m then m.ram.setIfInBounds m.a out else m.ram }

/-- No operation adds or removes cells. -/
theorem size_execute (m : Machine) (op : Operation) : (m.execute op).ram.size = m.ram.size := by
  cases op with
  | address value => rfl
  | compute dest comp memory jump =>
    simp only [execute]
    split <;> simp

end Machine

/-- How a run ends. -/
inductive Ending where
  /-- The next instruction is outside the program. -/
  | halted
  /-- The step limit was reached inside the program. -/
  | stopped
  | fault (f : Fault)
  deriving DecidableEq, Repr

/-- A run: the machine at its end, the number of instructions carried out, and how it
ended. -/
structure Run where
  machine : Machine
  steps : Nat
  ending : Ending
  deriving DecidableEq, Repr

/-- Run a program for at most `limit` more steps, after `steps` of them. -/
def runFrom (program : Array Instruction) (steps : Nat) : Nat → Machine → Run
  | 0, m => ⟨m, steps, if m.pc < program.size then .stopped else .halted⟩
  | limit + 1, m =>
    match program[m.pc]? with
    | none => ⟨m, steps, .halted⟩
    | some i =>
      match m.fault? i with
      | some f => ⟨m, steps, .fault f⟩
      | none => runFrom program (steps + 1) limit (m.execute i.operation)

/-- Run a program on a memory. A negative limit allows no step. -/
def run (program : Array Instruction) (ram : Memory) (limit : Int) : Run :=
  runFrom program 0 limit.toNat (.start ram)

/-- The step limit when none is given. -/
def defaultLimit : Int := 100000

/-- What is reported of a run. -/
def Run.notices (r : Run) : List Notice :=
  match r.ending with
  | .stopped => [.stopped r.steps r.machine.pc]
  | _ => []

/-- Why a source is not run to its end. -/
inductive RunError where
  | assembly (e : AssemblyError)
  | fault (f : Fault)
  deriving DecidableEq, Repr

/-- The message of a source that is not run to its end. -/
def RunError.message : RunError → String
  | .assembly e => e.message
  | .fault f => f.message

/-- What it leaves behind to assemble and run a source: the steps or the reason why not,
the memory, and what is reported. -/
structure Execution where
  result : Except RunError Nat
  ram : Memory
  notices : List Notice
  deriving Repr

/-- What a run leaves behind. -/
def Run.execution (r : Run) : Execution :=
  match r.ending with
  | .fault f => ⟨.error (.fault f), r.machine.ram, r.notices⟩
  | _ => ⟨.ok r.steps, r.machine.ram, r.notices⟩

/-- Assemble a source and run it on a memory. -/
def runSource (source : Text) (ram : Memory) (limit : Int) : Execution :=
  match assemble source with
  | .error e => ⟨.error (.assembly e), ram, []⟩
  | .ok program => (run program ram limit).execution

end HackStack.Hack
