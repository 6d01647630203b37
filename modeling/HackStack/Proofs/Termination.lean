import HackStack.Proofs.Correctness
import HackStack.Proofs.Lockstep

/-!
# Compiled programs halt

The machine jumps to whatever `A` holds, so that a program says little about where it
goes. Compiled code is of a kind that does: before each jump stands the loading of a
place further on, and no jump leads to a jump (`JumpsForward`). Whatever the memory
holds, a machine that stands before a jump has then just loaded where to go
(`Machine.IsAimed`), and it has no other way but forward. It halts at the end of the
program, unless it faults before, after at most as many steps as there are instructions
(`halts_or_faults`).

The property is one of pieces of code: the code of each command has it, and so have
pieces one behind the other (`JumpsForward.append`).
-/

namespace HackStack.Hack

/-! ### Forward jumps -/

/-- Code that jumps forward only, when its first operation is number `p`. It does not start with a
jump. In front of each jump the place to go to is loaded, which comes later, at the end of the code
at the latest, and is no jump itself. -/
structure JumpsForward (p : Nat) (ops : List Operation) : Prop where
  head : ∀ op, ops[0]? = some op → op.isStraight = true
  jump : ∀ k op, ops[k + 1]? = some op → op.isStraight = false →
    ∃ t, ops[k]? = some (.address (p + t)) ∧ k + 1 < t ∧ t ≤ ops.length ∧
      ∀ op', ops[t]? = some op' → op'.isStraight = true

theorem jumpsForward_of_straight {ops : List Operation} (h : ∀ op ∈ ops, op.isStraight = true)
    (p : Nat) : JumpsForward p ops where
  head op hop := h op (List.mem_of_getElem? hop)
  jump k op hop hjump := by
    rw [h op (List.mem_of_getElem? hop)] at hjump
    cases hjump

/-- **Pieces one behind the other**: a jump to the end of the first leads to the start of the
second, which is no jump. -/
theorem JumpsForward.append {p : Nat} {ops more : List Operation} (h : JumpsForward p ops)
    (h' : JumpsForward (p + ops.length) more) : JumpsForward p (ops ++ more) where
  head op hop := by
    cases ops with
    | nil => exact h'.head op hop
    | cons first rest => exact h.head op hop
  jump k op hop hjump := by
    rcases Nat.lt_trichotomy (k + 1) ops.length with hk | hk | hk
    · -- the jump is in the first piece, and so is its place or that is where the second starts
      rw [List.getElem?_append_left hk] at hop
      obtain ⟨t, hload, hlt, hle, hstraight⟩ := h.jump k op hop hjump
      refine ⟨t, ?_, hlt, ?_, fun op' hop' => ?_⟩
      · rwa [List.getElem?_append_left (by omega)]
      · rw [List.length_append]
        omega
      · rcases Nat.lt_or_eq_of_le hle with ht | ht
        · rw [List.getElem?_append_left ht] at hop'
          exact hstraight op' hop'
        · rw [List.getElem?_append_right (Nat.le_of_eq ht.symm), ht, Nat.sub_self] at hop'
          exact h'.head op' hop'
    · -- the second piece does not start with a jump
      rw [List.getElem?_append_right (Nat.le_of_eq hk.symm), hk, Nat.sub_self] at hop
      rw [h'.head op hop] at hjump
      cases hjump
    · obtain ⟨j, rfl⟩ := Nat.exists_eq_add_of_le (Nat.le_of_lt_succ hk)
      rw [List.getElem?_append_right (by omega),
        show ops.length + j + 1 - ops.length = j + 1 by omega] at hop
      obtain ⟨t, hload, hlt, hle, hstraight⟩ := h'.jump j op hop hjump
      refine ⟨ops.length + t, ?_, by omega, ?_, fun op' hop' => ?_⟩
      · rw [List.getElem?_append_right (by omega), Nat.add_sub_cancel_left, hload, Nat.add_assoc]
      · rw [List.length_append]
        omega
      · rw [List.getElem?_append_right (by omega), Nat.add_sub_cancel_left] at hop'
        exact hstraight op' hop'

/-! ### Machines that go forward -/

/-- A machine before a jump has in `A` the place to go to: one that comes later, at the end of the
program at the latest, and is no jump itself. -/
def Machine.IsAimed (program : Array Instruction) (m : Machine) : Prop :=
  ∀ i, program[m.pc]? = some i → i.operation.isStraight = false →
    m.pc < m.a ∧ m.a ≤ program.size ∧
      ∀ j, program[m.a]? = some j → j.operation.isStraight = true

theorem getElem?_operationsOf {program : Array Instruction} {k : Nat} {i : Instruction}
    (h : program[k]? = some i) : (operationsOf program)[k]? = some i.operation := by
  rw [operationsOf, List.getElem?_map, Array.getElem?_toList, h]
  rfl

theorem length_operationsOf (program : Array Instruction) :
    (operationsOf program).length = program.size := by
  rw [operationsOf, List.length_map, Array.length_toList]

section Forward

variable {program : Array Instruction} (hforward : JumpsForward 0 (operationsOf program))
  {m m' : Machine}

include hforward

theorem Machine.isAimed_start (ram : Memory) : (start ram).IsAimed program := by
  intro i hi hjump
  rw [hforward.head _ (getElem?_operationsOf hi)] at hjump
  cases hjump

/-- A machine that comes to a jump from the instruction before has loaded its place there. -/
theorem Machine.isAimed_execute {i : Instruction} (hi : program[m.pc]? = some i)
    (hpc : (m.execute i.operation).pc = m.pc + 1) : (m.execute i.operation).IsAimed program := by
  intro j hj hjump
  rw [hpc] at hj ⊢
  obtain ⟨t, hload, hlt, hle, hstraight⟩ :=
    hforward.jump m.pc _ (getElem?_operationsOf hj) hjump
  rw [getElem?_operationsOf hi, Nat.zero_add] at hload
  rw [length_operationsOf] at hle
  rw [Option.some.inj hload]
  exact ⟨hlt, hle, fun k hk => hstraight _ (getElem?_operationsOf hk)⟩

/-- **One step** goes forward, not beyond the end, and leaves the machine aimed. -/
theorem Machine.IsAimed.next? (h : m.IsAimed program) (hstep : m.next? program = some m') :
    m'.IsAimed program ∧ m.pc < m'.pc ∧ m'.pc ≤ program.size := by
  obtain ⟨i, hi, -, rfl⟩ := Machine.next?_eq_some_iff.mp hstep
  have hlt : m.pc < program.size := (Array.getElem?_eq_some_iff.mp hi).1
  have hnext (hpc : (m.execute i.operation).pc = m.pc + 1) :
      (m.execute i.operation).IsAimed program ∧ m.pc < (m.execute i.operation).pc ∧
        (m.execute i.operation).pc ≤ program.size :=
    ⟨isAimed_execute hforward hi hpc, by omega, by omega⟩
  cases hop : i.operation with
  | address value =>
    rw [hop] at hnext
    exact hnext rfl
  | compute dest comp memory jump =>
    rw [hop] at hnext
    cases hholds : jump.holds (Word.signed (m.result comp memory)) with
    | false => exact hnext (by simp [Machine.execute, hholds])
    | true =>
      have hjump : i.operation.isStraight = false := by
        rw [hop]
        cases jump with
        | never => cases hholds
        | _ => rfl
      obtain ⟨hlater, hle, hstraight⟩ := h i hi hjump
      have hpc : (m.execute (.compute dest comp memory jump)).pc = m.a := by
        simp [Machine.execute, hholds]
      refine ⟨fun j hj hjump' => ?_, hpc ▸ hlater, hpc ▸ hle⟩
      rw [hpc] at hj
      rw [hstraight j hj] at hjump'
      cases hjump'

/-- **Every step** goes forward. -/
theorem isChain_pc (limit : Nat) (h : m.IsAimed program) :
    (trace (Machine.next? program) limit m).IsChain fun m m' => m.pc < m'.pc :=
  isChain_trace (P := Machine.IsAimed program)
    (fun _ _ haimed hstep => ⟨(haimed.next? hforward hstep).1, (haimed.next? hforward hstep).2.1⟩)
    limit h

/-- **A run to the end**: with a step for each instruction that is left, the machine faults, or it
halts at the end of the program. -/
theorem halts_or_faults (steps : Nat) {limit : Nat} (h : m.IsAimed program)
    (hpc : m.pc ≤ program.size) (hlimit : program.size ≤ m.pc + limit) :
    (∃ f, (runFrom program steps limit m).ending = .fault f) ∨
      (runFrom program steps limit m).ending = .halted ∧
      (runFrom program steps limit m).machine.pc = program.size ∧
      (runFrom program steps limit m).steps + m.pc ≤ steps + program.size := by
  induction limit generalizing steps m with
  | zero =>
    have hend : m.pc = program.size := by omega
    refine .inr ⟨?_, hend, by rw [runFrom, hend]⟩
    rw [runFrom, if_neg (by omega)]
  | succ limit ih =>
    cases hi : program[m.pc]? with
    | none =>
      have hend : m.pc = program.size := by
        have := Array.getElem?_eq_none_iff.mp hi
        omega
      have hrun : runFrom program steps (limit + 1) m = ⟨m, steps, .halted⟩ := by
        rw [runFrom]
        simp only [hi]
      rw [hrun]
      exact .inr ⟨rfl, hend, Nat.add_le_add_left hpc steps⟩
    | some i =>
      cases hfault : m.fault? i with
      | some f =>
        have hrun : runFrom program steps (limit + 1) m = ⟨m, steps, .fault f⟩ := by
          rw [runFrom]
          simp only [hi, hfault]
        exact .inl ⟨f, congrArg Run.ending hrun⟩
      | none =>
        have hstep := Machine.next?_eq_some_iff.mpr ⟨i, hi, hfault, rfl⟩
        obtain ⟨haimed, hlt, hle⟩ := h.next? hforward hstep
        rw [runFrom_of_next? hstep]
        rcases ih (steps + 1) haimed hle (by omega) with hfaults | ⟨hended, hpc', hsteps⟩
        · exact .inl hfaults
        · exact .inr ⟨hended, hpc', by omega⟩

end Forward

end HackStack.Hack

namespace HackStack.Stack

open Hack

/-! ### Compiled code -/

/-- Which of the instructions of a comparison go on with the next. -/
def comparisonShape : List Bool :=
  [true, true, true, true, true, true, false, true, true, true, true, false, true, true, true]

section Code

variable {value : Text → Nat} (hvalue : Grounded value) {labels p : Nat}

include hvalue

/-- A comparison jumps from its seventh instruction to the thirteenth, and from the twelfth to its
end. -/
theorem jumpsForward_comparison {op : Arithmetic} (h : op.isComparison = true)
    (hfalse : value (falseLabel labels) = p + 12)
    (hcontinue : value (continueLabel labels) = p + 15) :
    JumpsForward p (machineCode value (op.lines labels)) := by
  have hcode := machineCode_comparison hvalue h labels
  rw [hfalse, hcontinue] at hcode
  have hshape : (machineCode value (op.lines labels)).map Hack.Operation.isStraight =
      comparisonShape := by
    rw [hcode]
    cases op with
    | eq | gt | lt => rfl
    | add | sub | and | or | not | neg => cases h
  have hlength : (machineCode value (op.lines labels)).length = 15 := by
    rw [← List.length_map Hack.Operation.isStraight, hshape]
    rfl
  have hat {k : Nat} {i : Hack.Operation}
      (hi : (machineCode value (op.lines labels))[k]? = some i) :
      comparisonShape[k]? = some i.isStraight := by
    rw [← hshape, List.getElem?_map, hi]
    rfl
  constructor
  · intro i hi
    exact (Option.some.inj (hat hi)).symm
  · intro k i hi hjump
    have hk : k < 14 := by
      have := (List.getElem?_eq_some_iff.mp hi).1
      omega
    have hplaces : ∀ k < 14, comparisonShape[k + 1]? = some false → k = 5 ∨ k = 10 := by decide
    rcases hplaces k hk (hjump ▸ hat hi) with rfl | rfl
    · refine ⟨12, by rw [hcode]; rfl, by decide, by omega, fun i' hi' => ?_⟩
      exact (Option.some.inj (hat hi')).symm
    · refine ⟨15, by rw [hcode]; rfl, by decide, by omega, fun i' hi' => ?_⟩
      have := (List.getElem?_eq_some_iff.mp hi').1
      omega

/-- **The code of a command** jumps forward only: that of a comparison to the labels placed behind
it, that of the others not at all. -/
theorem jumpsForward_of_codes {op : Operation} {code : List Line} (h : Codes labels op code)
    (hplaced : op.labelCount = 1 →
      value (falseLabel labels) = p + 12 ∧ value (continueLabel labels) = p + 15) :
    JumpsForward p (machineCode value code) := by
  cases h with
  | arithmetic op =>
    cases hop : op.isComparison with
    | false => exact jumpsForward_of_straight (isStraight_arithmetic value hop labels) p
    | true =>
      obtain ⟨hfalse, hcontinue⟩ := hplaced (by simp [Operation.labelCount, hop])
      exact jumpsForward_comparison hvalue hop hfalse hcontinue
  | @push s index _ => exact jumpsForward_of_straight (isStraight_push value s index) p
  | pop _ haddress => exact jumpsForward_of_straight (isStraight_pop value haddress) p
  | skip _ => exact jumpsForward_of_straight (by simp [machineCode]) p

/-- **The code of commands** one behind the other jumps forward only. -/
theorem jumpsForward_of_lowers {ops : List Operation} {code : List Line}
    (h : Lowers labels ops code) (hplaced : Placed value labels p ops) :
    JumpsForward p (machineCode value code) := by
  induction h generalizing p with
  | nil labels => exact jumpsForward_of_straight (by simp [machineCode]) p
  | @cons labels op more code rest hcodes _ ih =>
    rw [machineCode_append]
    refine (jumpsForward_of_codes hvalue hcodes hplaced.1).append ?_
    rw [length_machineCode_of_codes hcodes]
    exact ih hplaced.2

end Code

/-- **Compiled programs halt** at their end, whatever the memory holds. Every step goes forward, and
with a step for each instruction the machine either faults, or it halts behind the last instruction
after at most as many steps, so that nothing is reported. -/
theorem run_compile_halts_at_end {test : Bool} {source : Text} {n : Nat}
    (h : (compile test source).result = .ok n) {program : Array Instruction}
    (hprogram : assemble (compile test source).text = .ok program) (ram : Memory) {limit : Int}
    (hlimit : (n : Int) ≤ limit) :
    let r := run program ram limit
    ((states program ram limit).IsChain fun m m' => m.pc < m'.pc) ∧
    ((∃ f, r.ending = .fault f) ∨
      r.ending = .halted ∧ r.steps ≤ n ∧ r.machine.pc = program.size) ∧
    r.notices = [] := by
  intro r
  obtain ⟨code, hlowers, htext, -⟩ := lowers_of_compile h
  rw [htext] at hprogram
  have hsize : program.size = n :=
    (size_of_assemble_lowers hlowers hprogram).trans (codeSize_of_compile h)
  have hreadable := readable_of_lowers hlowers
  have hforward : JumpsForward 0 (operationsOf program) := by
    rw [operationsOf_assemble hreadable.clear hreadable.plain hprogram]
    exact jumpsForward_of_lowers (grounded_of_lowers hlowers) hlowers (placed_tableOf hlowers)
  have haimed := Machine.isAimed_start hforward ram
  have hends : (∃ f, r.ending = .fault f) ∨
      r.ending = .halted ∧ r.machine.pc = program.size ∧ r.steps + 0 ≤ 0 + program.size :=
    halts_or_faults hforward 0 haimed (Nat.zero_le _) (by
      simp only [Machine.start]
      omega)
  refine ⟨isChain_pc hforward limit.toNat haimed, ?_, ?_⟩
  · rcases hends with hfault | ⟨hended, hpc, hsteps⟩
    · exact .inl hfault
    · exact .inr ⟨hended, by omega, hpc⟩
  · rcases hends with ⟨f, hended⟩ | ⟨hended, -⟩ <;> simp [Run.notices, hended]

/-- A comparison of two integers with the same low bits does not take its first jump, and takes its
second. -/
theorem run_compile_eq_halts_at_end :
    ∃ program, assemble (compile false "eq".toList).text = .ok program ∧
      ((states program #[3, 5, 65541] 15).IsChain fun m m' => m.pc < m'.pc) ∧
      (run program #[3, 5, 65541] 15).ending = .halted ∧
      (run program #[3, 5, 65541] 15).steps ≤ 15 ∧
      (run program #[3, 5, 65541] 15).machine.pc = program.size := by
  have hcompile : (compile false "eq".toList).result = .ok 15 := rfl
  have hops : operations "eq".toList = [.arithmetic .eq] := rfl
  have hended : (assemble (compile false "eq".toList).text).map
      (fun program => (run program #[3, 5, 65541] 15).ending) = .ok .halted := rfl
  obtain ⟨program, hprogram, -⟩ :=
    exists_program_of_compile hcompile (by rw [hops]; decide) (by decide)
  rw [hprogram] at hended
  have hhalted : (run program #[3, 5, 65541] 15).ending = .halted := Except.ok.inj hended
  obtain ⟨hchain, hends, -⟩ :=
    run_compile_halts_at_end hcompile hprogram #[3, 5, 65541] (Int.le_refl 15)
  rcases hends with ⟨f, hfault⟩ | ⟨-, hsteps, hpc⟩
  · rw [hhalted] at hfault
    cases hfault
  · exact ⟨program, hprogram, hchain, hhalted, hsteps, hpc⟩

end HackStack.Stack
