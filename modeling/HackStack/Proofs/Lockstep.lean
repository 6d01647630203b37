import HackStack.Proofs.Assembling
import HackStack.Proofs.Trace

/-!
# The machine and the processor in step

The machine works on integers of any size and the processor on words of sixteen bits.
They go in step: before every instruction the registers of the machine are those of the
processor, and each cell of its memory has the low bits of the processor's
(`forall₂_mirrors`). They carry out as many instructions and end in the same way.

What is more in the memory of the machine is what was put there from outside. A cell that
an instruction stores to holds a word from then on (`isWordAt_runFrom`), and a cell that
none stores to keeps its integer (`getElem?_runFrom`).
-/

namespace HackStack.Hack

/-! ### The same steps -/

namespace Cpu

/-- The state after the next instruction: none at the end of the program, and none where the
instruction is a fault. -/
def next? (program : Array Instruction) (c : Cpu) : Option Cpu :=
  match program[c.pc]? with
  | none => none
  | some i =>
    match c.fault? i with
    | some _ => none
    | none => some (c.execute i.operation)

/-- Run a program on a memory of words. A negative limit allows no step. -/
def run (program : Array Instruction) (ram : Ram) (limit : Int) : Run :=
  runFrom program 0 limit.toNat (.start ram)

end Cpu

/-- The registers of a machine are those of a processor, and its cells have the low bits of the
processor's cells. -/
structure Machine.Mirrors (m : Machine) (c : Cpu) : Prop where
  a : m.a = c.a.toNat
  d : m.d = c.d.toNat
  pc : m.pc = c.pc
  ram : wordsOf m.ram = c.ram

section Mirrors

variable {program : Array Instruction} {m : Machine} {c : Cpu}

/-- A machine whose registers hold words mirrors its own reading in words, and no other
processor. -/
theorem Machine.mirrors_iff : m.Mirrors c ↔ m.HoldsWords ∧ m.words = c := by
  constructor
  · intro h
    refine ⟨⟨h.a ▸ c.a.isLt, h.d ▸ c.d.isLt⟩, ?_⟩
    obtain ⟨a, d, pc, ram⟩ := c
    simp only [Machine.words, Cpu.mk.injEq]
    refine ⟨?_, ?_, h.pc, h.ram⟩
    · rw [h.a, BitVec.ofNat_toNat, BitVec.setWidth_eq]
    · rw [h.d, BitVec.ofNat_toNat, BitVec.setWidth_eq]
  · rintro ⟨h, rfl⟩
    refine ⟨(Machine.toNat_words_a h).symm, ?_, rfl, rfl⟩
    rw [Machine.words, BitVec.toNat_ofNat, Nat.mod_eq_of_lt h.d_lt]

theorem Machine.mirrors_start (ram : Memory) : (start ram).Mirrors (.start (wordsOf ram)) :=
  ⟨rfl, rfl, rfl, rfl⟩

/-- **One step**: both make it, to states that mirror each other again, or neither does. -/
theorem Machine.Mirrors.next? (hload : ∀ i ∈ program, i.operation.LoadsWord) (h : m.Mirrors c) :
    Option.Rel Machine.Mirrors (m.next? program) (c.next? program) := by
  obtain ⟨hwords, rfl⟩ := Machine.mirrors_iff.mp h
  have hpc : m.words.pc = m.pc := rfl
  unfold Machine.next? Cpu.next?
  rw [hpc]
  cases hi : program[m.pc]? with
  | none => exact .none
  | some i =>
    simp only [Machine.fault?_words hwords]
    cases m.fault? i with
    | some f => exact .none
    | none =>
      have hop : i.operation.LoadsWord := hload i (Array.mem_of_getElem? hi)
      exact .some (Machine.mirrors_iff.mpr
        ⟨hwords.execute hop, Machine.words_execute hwords i.operation⟩)

/-- **Every step**: the machine and the processor mirror each other all the way. -/
theorem forall₂_mirrors (hload : ∀ i ∈ program, i.operation.LoadsWord) (limit : Nat)
    (h : m.Mirrors c) :
    List.Forall₂ Machine.Mirrors (trace (Machine.next? program) limit m)
      (trace (Cpu.next? program) limit c) :=
  forall₂_trace (fun _ _ hmirrors => hmirrors.next? hload) limit h

end Mirrors

/-! ### Stored cells -/

/-- The cell that the next instruction stores its result in, if it stores it. -/
def Machine.target? (program : Array Instruction) (m : Machine) : Option Nat :=
  match program[m.pc]? with
  | some ⟨.compute dest _ _ _, _⟩ => if dest.contains .m then some m.a else none
  | _ => none

/-- The cells that are stored to on the way through states. In the last of them no instruction is
carried out. -/
def storedCells (program : Array Instruction) (states : List Machine) : List Nat :=
  states.dropLast.filterMap (·.target? program)

/-- A cell, if it is there, holds a word. -/
def IsWordAt (cells : Memory) (i : Nat) : Prop := ∀ x ∈ cells[i]?, ∃ w : BitVec 16, x = w.toNat

section Stored

variable {program : Array Instruction} {m m' : Machine} {i : Nat}

/-- What a step does to a cell: where it stores, there is a word, and elsewhere all stays. -/
theorem ram_of_next? (h : m.next? program = some m') :
    (m.target? program = some i → IsWordAt m'.ram i) ∧
      (m.target? program ≠ some i → m'.ram[i]? = m.ram[i]?) := by
  obtain ⟨⟨op, line⟩, hi, -, rfl⟩ := Machine.next?_eq_some_iff.mp h
  cases op with
  | address value =>
    simp only [Machine.target?, hi]
    exact ⟨(fun hnone => by cases hnone), fun _ => rfl⟩
  | compute dest comp memory jump =>
    simp only [Machine.target?, hi, Machine.execute]
    cases hdest : dest.contains .m with
    | false => exact ⟨(fun hnone => by cases hnone), fun _ => rfl⟩
    | true =>
      simp only [if_true, Option.some.injEq, ne_eq]
      refine ⟨?_, fun hne => Array.getElem?_setIfInBounds_ne hne⟩
      rintro rfl x hx
      have hsize : m.a < m.ram.size := by
        have := (Array.getElem?_eq_some_iff.mp hx).1
        simpa using this
      rw [Array.getElem?_setIfInBounds_self_of_lt hsize, Option.mem_some_iff] at hx
      have hlt := m.result_lt comp memory
      exact ⟨BitVec.ofNat 16 (m.result comp memory), by
        rw [← hx, BitVec.toNat_ofNat, Nat.mod_eq_of_lt hlt]⟩

theorem storedCells_of_none (h : m.next? program = none) (limit : Nat) :
    storedCells program (trace (Machine.next? program) limit m) = [] := by
  rw [trace_of_none h]
  rfl

theorem mem_storedCells_of_some (h : m.next? program = some m') (limit : Nat) :
    i ∈ storedCells program (trace (Machine.next? program) (limit + 1) m) ↔
      m.target? program = some i ∨
        i ∈ storedCells program (trace (Machine.next? program) limit m') := by
  obtain ⟨more, hmore⟩ := exists_trace_eq_cons (Machine.next? program) limit m'
  rw [trace_of_some h, hmore, storedCells, List.dropLast_cons_cons, List.filterMap_cons]
  cases m.target? program with
  | none => simp [storedCells]
  | some j => simp [storedCells, eq_comm]

/-- **A cell that is stored to** holds a word at the end, and so does one that held a word
before. -/
theorem isWordAt_runFrom (steps limit : Nat)
    (h : i ∈ storedCells program (trace (Machine.next? program) limit m) ∨ IsWordAt m.ram i) :
    IsWordAt (runFrom program steps limit m).machine.ram i := by
  induction limit generalizing steps m with
  | zero =>
    rcases h with h | h
    · cases h
    · exact h
  | succ limit ih =>
    cases hm : m.next? program with
    | none =>
      obtain ⟨ending, hrun⟩ := exists_runFrom_of_next?_none hm steps (limit + 1)
      rw [storedCells_of_none hm] at h
      rw [hrun]
      exact h.resolve_left List.not_mem_nil
    | some m' =>
      obtain ⟨hstored, hkept⟩ := ram_of_next? (i := i) hm
      rw [runFrom_of_next? hm]
      rw [mem_storedCells_of_some hm, or_assoc] at h
      refine ih (steps + 1) ?_
      by_cases htarget : m.target? program = some i
      · exact .inr (hstored htarget)
      · rcases h with h | h | h
        · exact absurd h htarget
        · exact .inl h
        · refine .inr ?_
          rw [IsWordAt, hkept htarget]
          exact h

/-- **A cell that is never stored to** keeps what was put there, be it a word or not. -/
theorem getElem?_runFrom (steps limit : Nat)
    (h : i ∉ storedCells program (trace (Machine.next? program) limit m)) :
    (runFrom program steps limit m).machine.ram[i]? = m.ram[i]? := by
  induction limit generalizing steps m with
  | zero => rfl
  | succ limit ih =>
    cases hm : m.next? program with
    | none =>
      obtain ⟨ending, hrun⟩ := exists_runFrom_of_next?_none hm steps (limit + 1)
      rw [hrun]
    | some m' =>
      rw [mem_storedCells_of_some hm, not_or] at h
      rw [runFrom_of_next? hm, ih (steps + 1) h.2]
      exact (ram_of_next? hm).2 h.1

end Stored

/-- The registers hold words at the end of a run. -/
theorem holdsWords_runFrom {program : Array Instruction}
    (hload : ∀ i ∈ program, i.operation.LoadsWord) (steps limit : Nat) {m : Machine}
    (h : m.HoldsWords) : (runFrom program steps limit m).machine.HoldsWords := by
  fun_induction runFrom program steps limit m with
  | case1 => exact h
  | case2 => exact h
  | case3 => exact h
  | case4 steps m limit i hi hfault ih => exact ih (h.execute (hload i (Array.mem_of_getElem? hi)))

/-- A run does not change the number of cells. -/
theorem size_runFrom (program : Array Instruction) (steps limit : Nat) (m : Machine) :
    (runFrom program steps limit m).machine.ram.size = m.ram.size := by
  fun_induction runFrom program steps limit m with
  | case1 => rfl
  | case2 => rfl
  | case3 => rfl
  | case4 steps m limit i hi hfault ih => rw [ih, Machine.size_execute]

/-! ### Whole runs -/

/-- The states of a run on a memory, from the first to the last. -/
def states (program : Array Instruction) (ram : Memory) (limit : Int) : List Machine :=
  trace (Machine.next? program) limit.toNat (.start ram)

/-- The states of a run of the processor on a memory of words, from the first to the last. -/
def Cpu.states (program : Array Instruction) (ram : Ram) (limit : Int) : List Cpu :=
  trace (Cpu.next? program) limit.toNat (.start ram)

/-- **The machine refines a processor of sixteen bits.** On a memory of any integers, an assembled
program makes the machine and the processor, which starts on the low bits of the cells, go in step:
at every step the registers are the same words and the cells have the same low bits. They carry out
as many instructions, and end before the same one in the same way, be it a fault. At the end a cell
that was stored to is the processor's, and one that was not is what it was. -/
theorem run_refines_processor {source : Text} {program : Array Instruction}
    (h : assemble source = .ok program) (ram : Memory) (limit : Int) :
    let r := run program ram limit
    let s := Cpu.run program (wordsOf ram) limit
    (states program ram limit).length = r.steps + 1 ∧
    (states program ram limit).getLast? = some r.machine ∧
    List.Forall₂ Machine.Mirrors (states program ram limit)
      (Cpu.states program (wordsOf ram) limit) ∧
    r.steps = s.steps ∧ r.ending = s.ending ∧ r.machine.Mirrors s.cpu ∧
    r.machine.ram.size = ram.size ∧
    ∀ i < ram.size, ∃ x w, r.machine.ram[i]? = some x ∧ s.cpu.ram[i]? = some w ∧
      x % 2 ^ 16 = w.toNat ∧
      (i ∈ storedCells program (states program ram limit) → x = w.toNat) ∧
      (i ∉ storedCells program (states program ram limit) → ram[i]? = some x) := by
  intro r s
  have hload := loadsWord_of_assemble h
  have hstart := Machine.mirrors_start ram
  obtain ⟨hholds, hwords⟩ := Machine.mirrors_iff.mp hstart
  have hrun : r.words = s := by
    have := words_runFrom hload 0 limit.toNat hholds
    rwa [hwords] at this
  have hmirrors : r.machine.Mirrors s.cpu :=
    Machine.mirrors_iff.mpr ⟨holdsWords_runFrom hload 0 limit.toNat hholds, hrun ▸ rfl⟩
  have hsize : r.machine.ram.size = ram.size := size_runFrom program 0 limit.toNat (.start ram)
  have hlength : (states program ram limit).length = r.steps + 1 := by
    have := length_trace program 0 limit.toNat (.start ram)
    rwa [Nat.zero_add] at this
  refine ⟨hlength, getLast?_trace program 0 limit.toNat (.start ram),
    forall₂_mirrors hload limit.toNat hstart, hrun ▸ rfl, hrun ▸ rfl, hmirrors, hsize, ?_⟩
  intro i hi
  rw [← hsize] at hi
  have hx : r.machine.ram[i]? = some r.machine.ram[i] := Array.getElem?_eq_getElem hi
  refine ⟨r.machine.ram[i], BitVec.ofInt 16 r.machine.ram[i], hx, ?_, ?_, ?_, ?_⟩
  · rw [← hmirrors.ram, wordsOf, Array.getElem?_map, hx]
    rfl
  · rw [BitVec.toNat_ofInt, Int.toNat_of_nonneg (Int.emod_nonneg _ (by decide))]
    rfl
  · intro hstored
    obtain ⟨w, hw⟩ := isWordAt_runFrom 0 limit.toNat (.inl hstored) _ hx
    rw [hw, BitVec.ofInt_natCast, BitVec.ofNat_toNat, BitVec.setWidth_eq]
  · intro hstored
    rw [← hx]
    exact (getElem?_runFrom 0 limit.toNat hstored).symm

/-- A cell with an integer that is no word is counted down as its low bits are, and the cell beside
it keeps an integer of its own. -/
theorem run_refines_processor_on_integers :
    ∃ program, assemble "@1\nAMD=M-1".toList = .ok program ∧
      (run program #[70000, 65536] 9).steps = (Cpu.run program #[4464, 0] 9).steps ∧
      (run program #[70000, 65536] 9).machine.Mirrors (Cpu.run program #[4464, 0] 9).cpu ∧
      (Cpu.run program #[4464, 0] 9).cpu = ⟨-1, -1, 2, #[4464, -1]⟩ ∧
      (run program #[70000, 65536] 9).machine.ram[0]? = some 70000 ∧
      (run program #[70000, 65536] 9).machine.ram[1]? = some 65535 := by
  have hprogram : assemble "@1\nAMD=M-1".toList =
      .ok #[⟨.address 1, 1⟩, ⟨.compute [.a, .m, .d] .predA true .never, 2⟩] := rfl
  have hwords : wordsOf #[70000, 65536] = #[4464, 0] := by simp [wordsOf]
  have hrefines := run_refines_processor hprogram #[70000, 65536] 9
  rw [hwords] at hrefines
  obtain ⟨-, -, -, hsteps, -, hmirrors, -, hcells⟩ := hrefines
  obtain ⟨x₀, -, hx₀, -, -, -, hkept⟩ := hcells 0 (by decide)
  obtain ⟨x₁, w₁, hx₁, hw₁, -, hstored, -⟩ := hcells 1 (by decide)
  refine ⟨_, hprogram, hsteps, hmirrors, rfl, ?_, ?_⟩
  · rw [hx₀, ← hkept (by decide)]
    rfl
  · have hw : w₁ = -1 := (Option.some.inj hw₁).symm
    rw [hx₁, hstored (by decide), hw]
    rfl

end HackStack.Hack
