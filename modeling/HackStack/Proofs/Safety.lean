import HackStack.Proofs.Resolution
import HackStack.Proofs.Semantics
import HackStack.Proofs.StepLimit

/-!
# Faults are all that can go wrong

The machine has registers that hold natural numbers, computations and jumps that are known,
and a memory that answers for every address. So a run cannot go wrong but by a fault, and
that deserves a proof from a machine that takes nothing for granted. `Bare` is such a
machine: its registers hold any integers, the parts of an instruction are texts that have
to be looked up, and so have cells, where a negative address counts from the end. Any of
this may fail, and it may fail when part of an instruction is done.

On an assembled program the bare machine does what the machine does (`bare_runFrom`). So
it never looks up what is not there, and an instruction that is a fault is found out
before anything is done.

A fault arises exactly where the next instruction reads or writes memory while `A` is not
an address of it (`ending_eq_fault_iff`).
-/

namespace HackStack.Hack

open Stack.Access (run_bind_ok run_bind_error)

/-! ### The bare machine -/

/-- What can go wrong when an instruction is carried out. -/
inductive Mishap where
  /-- It was found out that `A` is not an address of the memory. -/
  | outside (line address : Int)
  /-- A cell was looked up that is not there. -/
  | missingCell (e : AddressError)
  /-- No computation is written like this. -/
  | missingComputation (text : Text)
  /-- No jump is written like this. -/
  | missingJump (text : Text)
  deriving DecidableEq, Repr

/-- What an instruction does, in writing. -/
inductive BareOperation where
  | address (value : Int)
  | compute (dest comp : Text) (memory : Bool) (jump : Text)
  deriving DecidableEq, Repr

/-- An instruction in writing and the number of its line. -/
structure BareInstruction where
  operation : BareOperation
  line : Int
  deriving DecidableEq, Repr

/-- The state of the bare machine. -/
structure Bare where
  a : Int
  d : Int
  pc : Int
  ram : Memory
  deriving DecidableEq, Repr

namespace Bare

/-- Something done to a bare machine. When it goes wrong, what was done before stays. -/
abbrev Action := EStateM Mishap Bare

/-- Find out whether an address is one of the memory. -/
def checkAddress (line address : Int) : Action Unit := fun m =>
  if 0 ≤ address ∧ address < m.ram.size then .ok () m else .error (.outside line address) m

/-- The value of a cell. -/
def load (address : Int) : Action Int := fun m =>
  match cell m.ram address with
  | .ok value => .ok value m
  | .error e => .error (.missingCell e) m

/-- Give a cell a value. -/
def store (address value : Int) : Action Unit := fun m =>
  match cellIndex m.ram.size address with
  | .ok i => .ok () { m with ram := m.ram.setIfInBounds i value }
  | .error e => .error (.missingCell e) m

/-- The second operand of a computation. -/
def operand (memory : Bool) (a : Int) : Action Int := if memory then load a else pure a

/-- What was looked up, which may be missing. -/
def found {α : Type} (missing : Mishap) : Option α → Action α
  | some x => pure x
  | none => throw missing

/-- Do something on a condition. -/
def onlyIf (condition : Bool) (x : Action Unit) : Action Unit := if condition then x else pure ()

/-- Carry out an instruction, one thing after the other. -/
def carryOut (i : BareInstruction) : Action Unit :=
  match i.operation with
  | .address value => modify fun m => { m with a := value, pc := m.pc + 1 }
  | .compute dest comp memory jump => do
    let m ← get
    onlyIf (memory || dest.contains 'M') (checkAddress i.line m.a)
    let y ← operand memory m.a
    let c ← found (.missingComputation comp) (Computation.ofText? comp)
    let out : Int := Word.wrap (c.eval (Word.signed m.d) (Word.signed y))
    onlyIf (dest.contains 'M') (store m.a out)
    onlyIf (dest.contains 'D') (modify fun n => { n with d := out })
    onlyIf (dest.contains 'A') (modify fun n => { n with a := out })
    let j ← found (.missingJump jump) (Jump.ofText? jump)
    modify fun n => { n with pc := if j.holds (Word.signed out) then m.a else m.pc + 1 }

/-- How a run of the bare machine ends. -/
inductive Ending where
  | halted
  | stopped
  | mishap (e : Mishap)
  deriving DecidableEq, Repr

/-- A run of the bare machine. -/
structure Run where
  machine : Bare
  steps : Nat
  ending : Ending
  deriving DecidableEq, Repr

/-- The next instruction, if there is one. -/
def instruction? (program : Array BareInstruction) (m : Bare) : Option BareInstruction :=
  if 0 ≤ m.pc then program[m.pc.toNat]? else none

/-- Run a program for at most `limit` more steps, after `steps` of them. -/
def runFrom (program : Array BareInstruction) (steps : Nat) : Nat → Bare → Run
  | 0, m => ⟨m, steps, if (m.instruction? program).isSome then .stopped else .halted⟩
  | limit + 1, m =>
    match m.instruction? program with
    | none => ⟨m, steps, .halted⟩
    | some i =>
      match (carryOut i).run m with
      | .error e m => ⟨m, steps, .mishap e⟩
      | .ok () m => runFrom program (steps + 1) limit m

/-- Run a program on a memory. A negative limit allows no step. -/
def run (program : Array BareInstruction) (ram : Memory) (limit : Int) : Run :=
  runFrom program 0 limit.toNat ⟨0, 0, 0, ram⟩

end Bare

/-! ### The machine as a bare machine -/

/-- An operation in writing. -/
def Operation.bare : Operation → BareOperation
  | .address value => .address value
  | .compute dest comp memory jump =>
    .compute (dest.map Register.letter) comp.text memory jump.text

/-- An instruction in writing. -/
def Instruction.bare (i : Instruction) : BareInstruction := ⟨i.operation.bare, i.line⟩

/-- A machine as a bare machine. -/
def Machine.bare (m : Machine) : Bare := ⟨m.a, m.d, m.pc, m.ram⟩

/-- An ending as that of a bare machine. -/
def Ending.bare : Ending → Bare.Ending
  | .halted => .halted
  | .stopped => .stopped
  | .fault f => .mishap (.outside f.line f.address)

/-- A run as that of a bare machine. -/
def Run.bare (r : Run) : Bare.Run := ⟨r.machine.bare, r.steps, r.ending.bare⟩

section Bare

theorem contains_letter (dest : List Register) (r : Register) :
    (dest.map Register.letter).contains r.letter = dest.contains r := by
  induction dest with
  | nil => rfl
  | cons s more ih =>
    rw [List.map_cons, List.contains_cons, List.contains_cons, ih]
    cases r <;> cases s <;> rfl

/-- An address of the memory that is a word names its cell. -/
theorem cellIndex_of_lt {size a : Nat} (hword : a < 2 ^ 16) (h : a < size) :
    cellIndex size a = .ok a := by
  have hwidth : Word.signedAt addressWidth a = a := signedAt_addressWidth (by omega) (by omega)
  have hplace : ¬ (a : Int) < 0 := by omega
  simp [cellIndex, hwidth, hplace, h]

section Steps

variable {α : Type} {b b' : Bare}

theorem Bare.run_get (b : Bare) : (get : Bare.Action Bare).run b = .ok b b := rfl

theorem Bare.run_modify (g : Bare → Bare) (b : Bare) :
    (modify g : Bare.Action Unit).run b = .ok () (g b) := rfl

theorem Bare.run_found (missing : Mishap) (r : α) (b : Bare) :
    (found missing (some r)).run b = .ok r b := rfl

theorem Bare.run_load {address value : Int} (h : cell b.ram address = .ok value) :
    (load address).run b = .ok value b := by
  rw [EStateM.run, load, h]

theorem Bare.run_store {address : Int} {i : Nat} (h : cellIndex b.ram.size address = .ok i)
    (value : Int) :
    (store address value).run b = .ok () { b with ram := b.ram.setIfInBounds i value } := by
  rw [EStateM.run, store, h]

theorem Bare.run_onlyIf {condition : Bool} {x : Bare.Action Unit}
    (h : condition = true → x.run b = .ok () b') :
    (onlyIf condition x).run b = .ok () (if condition then b' else b) := by
  cases condition with
  | false => rfl
  | true => exact h rfl

end Steps

variable {m : Machine} {i : Instruction}

theorem run_checkAddress (line : Int) {touches : Bool} (h : touches = true → m.a < m.ram.size) :
    (Bare.onlyIf touches (Bare.checkAddress line m.bare.a)).run m.bare = .ok () m.bare := by
  cases touches with
  | false => rfl
  | true => exact if_pos ⟨Int.natCast_nonneg _, Int.ofNat_lt.mpr (h rfl)⟩

theorem run_operand (hwords : m.HoldsWords) {memory : Bool} (h : memory = true → m.a < m.ram.size) :
    (Bare.operand memory m.bare.a).run m.bare = .ok (m.operand memory) m.bare := by
  cases memory with
  | false => rfl
  | true =>
    have hcell : cell m.bare.ram m.bare.a = .ok (m.operand true) :=
      congrArg (Except.map fun i => m.ram.getD i 0) (cellIndex_of_lt hwords.a_lt (h rfl))
    rw [Bare.operand, if_pos rfl, Bare.run_load hcell]

theorem run_store (hwords : m.HoldsWords) {writes : Bool} (h : writes = true → m.a < m.ram.size)
    (out : Int) :
    (Bare.onlyIf writes (Bare.store m.bare.a out)).run m.bare =
      .ok () { m.bare with ram := if writes then m.ram.setIfInBounds m.a out else m.ram } := by
  cases writes with
  | false => rfl
  | true =>
    have hindex : cellIndex m.bare.ram.size m.bare.a = .ok m.a :=
      cellIndex_of_lt hwords.a_lt (h rfl)
    rw [Bare.onlyIf, if_pos rfl, if_pos rfl, Bare.run_store hindex]
    rfl

/-- **An instruction that is no fault** is carried out as the machine does it. -/
theorem carryOut_of_none (hwords : m.HoldsWords) (h : m.fault? i = none) :
    (Bare.carryOut i.bare).run m.bare = .ok () (m.execute i.operation).bare := by
  obtain ⟨op, line⟩ := i
  cases op with
  | address value => rfl
  | compute dest comp memory jump =>
    have hM : (dest.map Register.letter).contains 'M' = dest.contains .m := contains_letter dest .m
    have hD : (dest.map Register.letter).contains 'D' = dest.contains .d := contains_letter dest .d
    have hA : (dest.map Register.letter).contains 'A' = dest.contains .a := contains_letter dest .a
    have hinside : (memory || dest.contains .m) = true → m.a < m.ram.size := by
      simpa [Machine.fault?, Machine.touchesMemory] using h
    have hmemory : memory = true → m.a < m.ram.size := fun hmemory =>
      hinside (by rw [hmemory, Bool.true_or])
    have hdest : dest.contains .m = true → m.a < m.ram.size := fun hdest =>
      hinside (by rw [hdest, Bool.or_true])
    simp only [Instruction.bare, Operation.bare, Bare.carryOut, hM, hD, hA,
      Computation.ofText?_text, Jump.ofText?_text]
    rw [run_bind_ok (Bare.run_get _), run_bind_ok (run_checkAddress line hinside),
      run_bind_ok (run_operand hwords hmemory), run_bind_ok (Bare.run_found _ comp _),
      run_bind_ok (run_store hwords hdest _),
      run_bind_ok (Bare.run_onlyIf fun _ => Bare.run_modify _ _),
      run_bind_ok (Bare.run_onlyIf fun _ => Bare.run_modify _ _),
      run_bind_ok (Bare.run_found _ jump _), Bare.run_modify]
    have hresult : Word.wrap (comp.eval (Word.signed m.bare.d) (Word.signed (m.operand memory))) =
        m.result comp memory := rfl
    rw [hresult, Machine.execute]
    cases jump.holds (Word.signed (m.result comp memory)) <;>
      cases dest.contains .a <;> cases dest.contains .d <;> simp [Machine.bare]

/-- What a fault is. -/
theorem Machine.fault?_eq_some_iff {f : Fault} :
    m.fault? i = some f ↔
      touchesMemory i.operation = true ∧ m.ram.size ≤ m.a ∧ f = ⟨i.line, m.a⟩ := by
  unfold Machine.fault?
  split
  · rename_i h
    simp only [Bool.and_eq_true, decide_eq_true_eq] at h
    simp [h, eq_comm]
  · rename_i h
    simp only [Bool.and_eq_true, decide_eq_true_eq] at h
    exact ⟨nofun, fun ⟨htouches, houtside, _⟩ => absurd ⟨htouches, houtside⟩ h⟩

/-- **An instruction that is a fault** is found out before anything is done. -/
theorem carryOut_of_some {f : Fault} (h : m.fault? i = some f) :
    (Bare.carryOut i.bare).run m.bare = .error (.outside f.line f.address) m.bare := by
  obtain ⟨htouches, houtside, rfl⟩ := Machine.fault?_eq_some_iff.mp h
  obtain ⟨op, line⟩ := i
  cases op with
  | address value => cases htouches
  | compute dest comp memory jump =>
    have hM : (dest.map Register.letter).contains 'M' = dest.contains .m := contains_letter dest .m
    have htouches : (memory || dest.contains .m) = true := htouches
    have hcheck : (Bare.checkAddress line m.bare.a).run m.bare =
        .error (.outside line m.a) m.bare :=
      if_neg fun hinside => absurd (Int.ofNat_lt.mp hinside.2) (Nat.not_lt.mpr houtside)
    simp only [Instruction.bare, Operation.bare, Bare.carryOut, hM, htouches]
    rw [run_bind_ok (Bare.run_get _), Bare.onlyIf, if_pos rfl, run_bind_error hcheck]

theorem instruction?_bare (program : Array Instruction) (m : Machine) :
    m.bare.instruction? (program.map Instruction.bare) = program[m.pc]?.map Instruction.bare := by
  simp [Bare.instruction?, Machine.bare]

/-- **The bare machine does what the machine does**, when the program loads words only. -/
theorem bare_runFrom {program : Array Instruction} (hload : ∀ i ∈ program, i.operation.LoadsWord)
    (steps limit : Nat) {m : Machine} (hwords : m.HoldsWords) :
    Bare.runFrom (program.map Instruction.bare) steps limit m.bare =
      (runFrom program steps limit m).bare := by
  induction limit generalizing steps m with
  | zero =>
    rw [Bare.runFrom, runFrom, instruction?_bare]
    by_cases hpc : m.pc < program.size <;> simp [Run.bare, Ending.bare, hpc]
  | succ limit ih =>
    rw [Bare.runFrom, runFrom, instruction?_bare]
    cases hi : program[m.pc]? with
    | none => rfl
    | some i =>
      simp only [Option.map_some]
      cases hfault : m.fault? i with
      | some f =>
        rw [carryOut_of_some hfault]
        rfl
      | none =>
        rw [carryOut_of_none hwords hfault]
        exact ih (steps + 1) (hwords.execute (hload i (Array.mem_of_getElem? hi)))

end Bare

/-! ### Where faults arise -/

/-- The next instruction reads or writes memory, and `A` is not an address of it. -/
structure Machine.Oversteps (program : Array Instruction) (m : Machine) (i : Instruction) : Prop where
  next : program[m.pc]? = some i
  touches : touchesMemory i.operation = true
  outside : m.ram.size ≤ m.a

section Faults

variable {program : Array Instruction} {steps limit : Nat} {m : Machine} {i : Instruction}

theorem Machine.Oversteps.next?_eq_none (h : m.Oversteps program i) : m.next? program = none := by
  have hfault := fault?_eq_some_iff.mpr ⟨h.touches, h.outside, rfl⟩
  simp only [Machine.next?, h.next, hfault]

/-- A run that ends by itself stands behind the program. -/
theorem pc_of_halted (h : (runFrom program steps limit m).ending = .halted) :
    program.size ≤ (runFrom program steps limit m).machine.pc := by
  fun_induction runFrom program steps limit m with
  | case1 steps m =>
    simp only at h
    split at h
    · cases h
    · exact Nat.le_of_not_lt ‹_›
  | case2 steps m limit hi => exact Array.getElem?_eq_none_iff.mp hi
  | case3 => cases h
  | case4 steps m limit i hi hfault ih => exact ih h

/-- A run that ends by a fault stands before the instruction that is one, with a step to go. -/
theorem oversteps_of_fault {f : Fault} (h : (runFrom program steps limit m).ending = .fault f) :
    (runFrom program steps limit m).steps < steps + limit ∧
      ∃ i, (runFrom program steps limit m).machine.Oversteps program i ∧
        f = ⟨i.line, (runFrom program steps limit m).machine.a⟩ := by
  fun_induction runFrom program steps limit m with
  | case1 steps m =>
    simp only at h
    split at h <;> cases h
  | case2 => cases h
  | case3 steps m limit i hi f' hfault =>
    cases h
    obtain ⟨htouches, houtside, rfl⟩ := Machine.fault?_eq_some_iff.mp hfault
    exact ⟨Nat.lt_add_of_pos_right (Nat.succ_pos _), i, ⟨hi, htouches, houtside⟩, rfl⟩
  | case4 steps m limit i hi hfault ih =>
    obtain ⟨hsteps, hoversteps⟩ := ih h
    exact ⟨by omega, hoversteps⟩

/-- A state from which no step can be made is the last of a trace. -/
theorem length_trace_of_none {σ : Type} {next? : σ → Option σ} {s t : σ} {k limit : Nat}
    (h : (trace next? limit s)[k]? = some t) (hnone : next? t = none) :
    (trace next? limit s).length = k + 1 := by
  induction limit generalizing s k with
  | zero =>
    cases k with
    | zero => rfl
    | succ k => cases h
  | succ limit ih =>
    cases hs : next? s with
    | none =>
      rw [trace_of_none hs] at h ⊢
      cases k with
      | zero => rfl
      | succ k => cases h
    | some s' =>
      rw [trace_of_some hs] at h ⊢
      cases k with
      | zero =>
        cases h
        rw [hnone] at hs
        cases hs
      | succ k => rw [List.length_cons, ih h]

/-- **A fault arises exactly where** an instruction that is still allowed oversteps the memory. -/
theorem ending_eq_fault_iff {ram : Memory} {limit : Int} {f : Fault} :
    (run program ram limit).ending = .fault f ↔
      ∃ (k : Nat) (m : Machine) (i : Instruction), (k : Int) < limit ∧
        (states program ram limit)[k]? = some m ∧ m.Oversteps program i ∧ f = ⟨i.line, m.a⟩ := by
  have hlast := getElem?_states_steps program ram limit
  constructor
  · intro h
    obtain ⟨hsteps, i, hoversteps, rfl⟩ := oversteps_of_fault h
    exact ⟨_, _, i, by simp only [run]; omega, hlast, hoversteps, rfl⟩
  · rintro ⟨k, m, i, hk, hm, hoversteps, rfl⟩
    -- the run cannot go beyond this state, so that it is the last
    have hlength := length_trace_of_none hm hoversteps.next?_eq_none
    have hsteps : (run program ram limit).steps = k := by
      have := length_states program ram limit
      rw [states, hlength] at this
      omega
    rw [hsteps, hm] at hlast
    obtain rfl : m = (run program ram limit).machine := Option.some.inj hlast
    cases hending : (run program ram limit).ending with
    | halted =>
      have hpc := pc_of_halted hending
      have hlt := (Array.getElem?_eq_some_iff.mp hoversteps.next).1
      exact absurd hlt (Nat.not_lt.mpr hpc)
    | stopped =>
      have hall : (run program ram limit).steps = 0 + limit.toNat := steps_of_stopped hending
      omega
    | fault f =>
      obtain ⟨-, j, hj, rfl⟩ := oversteps_of_fault hending
      obtain rfl : i = j := Option.some.inj (hoversteps.next.symm.trans hj.next)
      rfl

end Faults

/-- **The line of an instruction**: the instruction with a number is what the source line with this
number among the instructions becomes, and it carries the place of that line, counted from one. -/
theorem exists_line_of_assemble {source : Text} {program : Array Instruction}
    (h : assemble source = .ok program) {k : Nat} {i : Instruction} (hi : program[k]? = some i) :
    ∃ n raw, i.line = (n + 1 : Nat) ∧ (Text.lines source)[n]? = some raw ∧
      (instructionLines (sourceLines source))[k]? =
        some ⟨n + 1, Line.ofCode (Text.code raw)⟩ ∧
      Assembles (sourceLines source) ⟨n + 1, Line.ofCode (Text.code raw)⟩ i := by
  obtain ⟨hlength, hget⟩ := List.forall₂_iff_get.mp (assemble_eq_ok_iff.mp h)
  obtain ⟨hk, rfl⟩ := Array.getElem?_eq_some_iff.mp hi
  have hk' : k < (instructionLines (sourceLines source)).length := by
    rw [hlength, Array.length_toList]
    exact hk
  have hline : (instructionLines (sourceLines source))[k] ∈ sourceLines source :=
    List.mem_of_mem_filter (List.getElem_mem hk')
  obtain ⟨n, raw, hraw, -, hl⟩ := mem_sourceLines_iff.mp hline
  have hassembles : Assembles (sourceLines source) (instructionLines (sourceLines source))[k]
      program[k] := hget k hk' (by simpa using hk)
  rw [hl] at hassembles
  exact ⟨n, raw, hassembles.line_eq, hraw, hl ▸ List.getElem?_eq_getElem hk', hassembles⟩

/-- **Faults are all that can go wrong.** An assembled program runs on the bare machine as it does on
the machine, on every memory and with every limit: so it returns, or an instruction is found to
overstep the memory, and nothing that is looked up is missing. There is a fault exactly if some state
before the limit oversteps the memory. It names the line on which the instruction stands in the
source, and `A`. The memory is then as the steps before have left it. -/
theorem run_goes_wrong_only_by_fault {source : Text} {program : Array Instruction}
    (h : assemble source = .ok program) (ram : Memory) (limit : Int) :
    let r := run program ram limit
    Bare.run (program.map Instruction.bare) ram limit = r.bare ∧
    ((∃ n, r.execution.result = .ok n) ∨
      ∃ f, r.ending = .fault f ∧ r.execution.result = .error (.fault f)) ∧
    (∀ f, r.ending = .fault f ↔
      ∃ (k : Nat) (m : Machine) (i : Instruction), (k : Int) < limit ∧
        (states program ram limit)[k]? = some m ∧ m.Oversteps program i ∧ f = ⟨i.line, m.a⟩) ∧
    ∀ f, r.ending = .fault f →
      (states program ram limit)[r.steps]? = some r.machine ∧
      r.execution.ram = r.machine.ram ∧
      ∃ i n raw, r.machine.Oversteps program i ∧
        (RunError.fault f).message = "line " ++ toString (n + 1) ++
          ": memory access out of range: " ++ toString r.machine.a ∧
        (Text.lines source)[n]? = some raw ∧
        (instructionLines (sourceLines source))[r.machine.pc]? =
          some ⟨n + 1, Line.ofCode (Text.code raw)⟩ ∧
        Assembles (sourceLines source) ⟨n + 1, Line.ofCode (Text.code raw)⟩ i := by
  intro r
  have hbare := bare_runFrom (loadsWord_of_assemble h) 0 limit.toNat (Machine.holdsWords_start ram)
  refine ⟨hbare, ?_, fun f => ending_eq_fault_iff, fun f hfault => ?_⟩
  · rcases r.execution_cases with ⟨-, hexec⟩ | ⟨-, hexec⟩ | ⟨f, hending, hexec⟩
    · exact .inl ⟨_, by rw [hexec]⟩
    · exact .inl ⟨_, by rw [hexec]⟩
    · exact .inr ⟨f, hending, by rw [hexec]⟩
  · obtain ⟨-, i, hoversteps, rfl⟩ := oversteps_of_fault hfault
    obtain ⟨n, raw, hline, hraw, hl, hassembles⟩ := exists_line_of_assemble h hoversteps.next
    have hram : r.execution.ram = r.machine.ram := by
      rcases r.execution_cases with ⟨-, hexec⟩ | ⟨-, hexec⟩ | ⟨f, -, hexec⟩ <;> rw [hexec]
    refine ⟨getElem?_states_steps program ram limit, hram, i, n, raw, hoversteps, ?_, hraw, hl,
      hassembles⟩
    rw [RunError.message, Fault.message, hline]
    rfl

/-- The second instruction stands on the fourth line, and finds no third cell to count down. -/
theorem run_goes_wrong_on_fourth_line :
    let source := "// top\n@2\n\n  AMD=M-1".toList
    ∃ program, assemble source = .ok program ∧
      Bare.run (program.map Instruction.bare) #[70000, -3] 9 =
        ⟨⟨2, 0, 1, #[70000, -3]⟩, 1, .mishap (.outside 4 2)⟩ ∧
      (run program #[70000, -3] 9).execution.ram = #[70000, -3] ∧
      ∃ n raw, (RunError.fault ⟨4, 2⟩).message =
          "line " ++ toString (n + 1) ++ ": memory access out of range: " ++ toString 2 ∧
        (Text.lines source)[n]? = some raw ∧
        (instructionLines (sourceLines source))[1]? =
          some ⟨n + 1, Line.ofCode (Text.code raw)⟩ := by
  intro source
  have hprogram : assemble source =
      .ok #[⟨.address 2, 2⟩, ⟨.compute [.a, .m, .d] .predA true .never, 4⟩] := rfl
  obtain ⟨hbare, -, -, hfault⟩ := run_goes_wrong_only_by_fault hprogram #[70000, -3] 9
  obtain ⟨-, hram, i, n, raw, -, hmessage, hraw, hline, -⟩ := hfault ⟨4, 2⟩ rfl
  exact ⟨_, hprogram, hbare, hram, n, raw, hmessage, hraw, hline⟩

end HackStack.Hack
