import HackStack.Hack.Machine
import Mathlib.Data.BitVec

/-!
# The processor over words

The machine computes with integers and keeps the low bits of each result. Seen from
outside it is a processor whose registers and cells hold words of sixteen bits and
whose arithmetic unit works on bit vectors. `Cpu` is that processor. `Machine.words`
reads the state of a machine as a state of the processor, each cell by its low bits,
and a run of the machine is step by step a run of the processor (`words_runFrom`).

A memory in which every cell holds a word stays so (`isExact_runFrom`): on such a
memory the processor says all that the machine does.
-/

namespace HackStack.Hack

/-! ### Words as bit vectors -/

/-- The word of the low bits of an integer. -/
theorem ofNat_wrap (x : Int) : BitVec.ofNat 16 (Word.wrap x) = BitVec.ofInt 16 x := by
  apply BitVec.eq_of_toNat_eq
  have hlt : Word.wrap x < 2 ^ 16 := Word.wrap_lt x
  rw [BitVec.toNat_ofNat, Nat.mod_eq_of_lt hlt, BitVec.toNat_ofInt]
  rfl

/-- The signed reading of an integer is that of its word. -/
theorem toInt_ofInt_eq_signed (x : Int) : (BitVec.ofInt 16 x).toInt = Word.signed x := by
  rw [BitVec.toInt_ofInt]
  rfl

theorem ofInt_signed (x : Int) : BitVec.ofInt 16 (Word.signed x) = BitVec.ofInt 16 x := by
  rw [← toInt_ofInt_eq_signed, BitVec.ofInt_toInt]

theorem ofInt_sub (x y : Int) :
    BitVec.ofInt 16 (x - y) = BitVec.ofInt 16 x - BitVec.ofInt 16 y := by
  rw [Int.sub_eq_add_neg, BitVec.ofInt_add, BitVec.ofInt_neg, BitVec.sub_eq_add_neg]

theorem ofInt_not (x : Int) : BitVec.ofInt 16 (~~~x) = ~~~BitVec.ofInt 16 x := by
  cases x with
  | ofNat n => exact BitVec.ofInt_negSucc_eq_not_ofNat
  | negSucc n =>
    rw [BitVec.ofInt_negSucc_eq_not_ofNat, BitVec.not_not]
    exact BitVec.ofInt_natCast 16 n

/-- What a word has beyond the bits it shares with another. -/
theorem sub_and_eq (x y : BitVec 16) : x - (x &&& y) = x &&& ~~~y := by
  have hdisjoint : (x &&& y) &&& (x &&& ~~~y) = 0 := by
    ext i hi
    simp only [BitVec.getElem_and, BitVec.getElem_not]
    cases x[i] <;> cases y[i] <;> simp
  have hsplit : (x &&& y) + (x &&& ~~~y) = x := by
    rw [BitVec.add_eq_or_of_and_eq_zero _ _ hdisjoint]
    ext i hi
    simp only [BitVec.getElem_and, BitVec.getElem_or, BitVec.getElem_not]
    cases x[i] <;> cases y[i] <;> rfl
  calc x - (x &&& y) = (x &&& y) + (x &&& ~~~y) - (x &&& y) := by rw [hsplit]
    _ = x &&& ~~~y := by rw [BitVec.add_comm, BitVec.add_sub_cancel]

theorem ofNat_sub_and (m n : Nat) :
    BitVec.ofNat 16 (m - (m &&& n)) = BitVec.ofNat 16 m &&& ~~~BitVec.ofNat 16 n := by
  have hadd : BitVec.ofNat 16 (m - (m &&& n)) + BitVec.ofNat 16 (m &&& n) = BitVec.ofNat 16 m := by
    rw [← BitVec.ofNat_add, Nat.sub_add_cancel Nat.and_le_left]
  rw [← sub_and_eq, ← BitVec.ofNat_and, ← hadd, BitVec.add_sub_cancel]

theorem ofInt_land (x y : Int) :
    BitVec.ofInt 16 (Word.land x y) = BitVec.ofInt 16 x &&& BitVec.ofInt 16 y := by
  cases x with
  | ofNat m =>
    cases y with
    | ofNat n => exact BitVec.ofNat_and
    | negSucc n =>
      rw [BitVec.ofInt_negSucc_eq_not_ofNat]
      exact ofNat_sub_and m n
  | negSucc m =>
    cases y with
    | ofNat n =>
      rw [BitVec.ofInt_negSucc_eq_not_ofNat, BitVec.and_comm]
      exact ofNat_sub_and n m
    | negSucc n =>
      simp only [Word.land, BitVec.ofInt_negSucc_eq_not_ofNat, BitVec.ofNat_or, BitVec.not_or]

theorem ofInt_lor (x y : Int) :
    BitVec.ofInt 16 (Word.lor x y) = BitVec.ofInt 16 x ||| BitVec.ofInt 16 y := by
  rw [Word.lor, ofInt_not, ofInt_land, ofInt_not, ofInt_not, BitVec.not_and, BitVec.not_not,
    BitVec.not_not]

/-! ### The arithmetic unit -/

/-- The result of an operation on words. -/
def Computation.onWords (d y : BitVec 16) : Computation → BitVec 16
  | .zero => 0
  | .one => 1
  | .minusOne => -1
  | .d => d
  | .a => y
  | .notD => ~~~d
  | .notA => ~~~y
  | .negD => -d
  | .negA => -y
  | .succD => d + 1
  | .succA => y + 1
  | .predD => d - 1
  | .predA => y - 1
  | .add => d + y
  | .subA => d - y
  | .subD => y - d
  | .and => d &&& y
  | .or => d ||| y

/-- Whether the sign of a word satisfies the condition of a jump. -/
def Jump.onWord (x : BitVec 16) : Jump → Bool
  | .never => false
  | .gt => 0 < x.toInt
  | .eq => x == 0
  | .ge => 0 ≤ x.toInt
  | .lt => x.toInt < 0
  | .ne => x != 0
  | .le => x.toInt ≤ 0
  | .always => true

/-- The low bits of a result depend on the low bits of the operands only. -/
theorem Computation.ofInt_eval (c : Computation) (d y : Int) :
    BitVec.ofInt 16 (c.eval d y) = c.onWords (BitVec.ofInt 16 d) (BitVec.ofInt 16 y) := by
  cases c <;>
    simp only [Computation.eval, Computation.onWords, BitVec.ofInt_add, BitVec.ofInt_neg, ofInt_sub,
      ofInt_not, ofInt_land, ofInt_lor] <;> rfl

/-- The condition of a jump holds of an integer's signed reading as it does of its word. -/
theorem Jump.holds_signed (j : Jump) (x : Int) :
    j.holds (Word.signed x) = j.onWord (BitVec.ofInt 16 x) := by
  have hzero : (BitVec.ofInt 16 x == 0) = (Word.signed x == 0) := by
    rw [← toInt_ofInt_eq_signed, Bool.eq_iff_iff, beq_iff_eq, beq_iff_eq, ← BitVec.toInt_inj]
    rfl
  cases j <;>
    simp only [Jump.holds, Jump.onWord, toInt_ofInt_eq_signed, bne, hzero]

/-! ### The processor -/

/-- A memory of words. -/
abbrev Ram := Array (BitVec 16)

/-- The state of the processor. -/
structure Cpu where
  a : BitVec 16
  d : BitVec 16
  pc : Nat
  ram : Ram
  deriving DecidableEq, Repr

namespace Cpu

/-- The processor before the first instruction. -/
def start (ram : Ram) : Cpu := ⟨0, 0, 0, ram⟩

/-- The fault that an instruction would be. -/
def fault? (c : Cpu) (i : Instruction) : Option Fault :=
  if Machine.touchesMemory i.operation && c.ram.size ≤ c.a.toNat then some ⟨i.line, c.a.toNat⟩
  else none

/-- The second operand of a computation. -/
def operand (c : Cpu) (memory : Bool) : BitVec 16 := if memory then c.ram.getD c.a.toNat 0 else c.a

/-- Carry out an operation that is no fault: the result goes to the memory through the `A` from
before, and a jump goes there too. -/
def execute (c : Cpu) : Operation → Cpu
  | .address value => { c with a := BitVec.ofNat 16 value, pc := c.pc + 1 }
  | .compute dest comp memory jump =>
    let out := comp.onWords c.d (c.operand memory)
    { a := if dest.contains .a then out else c.a
      d := if dest.contains .d then out else c.d
      pc := if jump.onWord out then c.a.toNat else c.pc + 1
      ram := if dest.contains .m then c.ram.setIfInBounds c.a.toNat out else c.ram }

/-- A run of the processor: its state at the end, the number of instructions carried out, and
how it ended. -/
structure Run where
  cpu : Cpu
  steps : Nat
  ending : Ending
  deriving DecidableEq, Repr

/-- Run a program for at most `limit` more steps, after `steps` of them. -/
def runFrom (program : Array Instruction) (steps : Nat) : Nat → Cpu → Run
  | 0, c => ⟨c, steps, if c.pc < program.size then .stopped else .halted⟩
  | limit + 1, c =>
    match program[c.pc]? with
    | none => ⟨c, steps, .halted⟩
    | some i =>
      match c.fault? i with
      | some f => ⟨c, steps, .fault f⟩
      | none => runFrom program (steps + 1) limit (c.execute i.operation)

end Cpu

/-! ### A machine read as a processor -/

/-- The words of a memory: the low bits of its cells. -/
def wordsOf (cells : Memory) : Ram := cells.map (BitVec.ofInt 16)

/-- A memory of words, as the machine holds it. -/
def cellsOf (ram : Ram) : Memory := ram.map fun w => (w.toNat : Int)

@[simp]
theorem wordsOf_cellsOf (ram : Ram) : wordsOf (cellsOf ram) = ram := by
  rw [wordsOf, cellsOf, Array.map_map]
  have hid : (BitVec.ofInt 16 ∘ fun w : BitVec 16 => (w.toNat : Int)) = id := by
    funext w
    simp
  rw [hid, Array.map_id]

@[simp]
theorem size_wordsOf (cells : Memory) : (wordsOf cells).size = cells.size := by
  simp [wordsOf]

theorem getD_wordsOf (cells : Memory) (i : Nat) :
    (wordsOf cells).getD i 0 = BitVec.ofInt 16 (cells.getD i 0) := by
  simp only [wordsOf, Array.getD_eq_getD_getElem?, Array.getElem?_map]
  cases cells[i]? <;> rfl

theorem wordsOf_setIfInBounds (cells : Memory) (i : Nat) (x : Int) :
    wordsOf (cells.setIfInBounds i x) = (wordsOf cells).setIfInBounds i (BitVec.ofInt 16 x) := by
  simp [wordsOf]

theorem cellsOf_setIfInBounds (ram : Ram) (i : Nat) (w : BitVec 16) :
    cellsOf (ram.setIfInBounds i w) = (cellsOf ram).setIfInBounds i w.toNat := by
  simp [cellsOf]

/-- The state of a machine in words. -/
def Machine.words (m : Machine) : Cpu :=
  ⟨BitVec.ofNat 16 m.a, BitVec.ofNat 16 m.d, m.pc, wordsOf m.ram⟩

/-- The registers of a machine hold words. -/
structure Machine.HoldsWords (m : Machine) : Prop where
  a_lt : m.a < 2 ^ 16
  d_lt : m.d < 2 ^ 16

/-- An operation that loads nothing wider than a word. -/
def Operation.LoadsWord : Operation → Prop
  | .address value => value < 2 ^ 16
  | .compute _ _ _ _ => True

namespace Machine

theorem holdsWords_start (cells : Memory) : (start cells).HoldsWords :=
  ⟨Nat.two_pow_pos 16, Nat.two_pow_pos 16⟩

theorem words_start (ram : Ram) : (start (cellsOf ram)).words = Cpu.start ram := by
  simp [words, start, Cpu.start]

variable {m : Machine}

theorem toNat_words_a (h : m.HoldsWords) : m.words.a.toNat = m.a := by
  rw [words, BitVec.toNat_ofNat, Nat.mod_eq_of_lt h.a_lt]

/-- The machine and the processor find the same fault in an instruction. -/
theorem fault?_words (h : m.HoldsWords) (i : Instruction) : m.words.fault? i = m.fault? i := by
  have hsize : m.words.ram.size = m.ram.size := size_wordsOf m.ram
  simp only [Cpu.fault?, fault?, toNat_words_a h, hsize]

theorem ofInt_operand (h : m.HoldsWords) (memory : Bool) :
    BitVec.ofInt 16 (m.operand memory) = m.words.operand memory := by
  cases memory with
  | false => exact BitVec.ofInt_natCast 16 m.a
  | true =>
    simp only [operand, Cpu.operand, if_true, toNat_words_a h]
    exact (getD_wordsOf m.ram m.a).symm

theorem result_lt (m : Machine) (comp : Computation) (memory : Bool) :
    m.result comp memory < 2 ^ 16 :=
  Word.wrap_lt _

/-- A result of the machine, as the processor computes it. -/
theorem ofInt_result (h : m.HoldsWords) (comp : Computation) (memory : Bool) :
    BitVec.ofInt 16 (m.result comp memory) = comp.onWords m.words.d (m.words.operand memory) := by
  rw [result, BitVec.ofInt_natCast, ofNat_wrap, comp.ofInt_eval, ofInt_signed, ofInt_signed,
    ofInt_operand h, BitVec.ofInt_natCast]
  rfl

/-- **One step**: the machine does what the processor does. -/
theorem words_execute (h : m.HoldsWords) (op : Operation) :
    (m.execute op).words = m.words.execute op := by
  cases op with
  | address value => rfl
  | compute dest comp memory jump =>
    have hout := ofInt_result h comp memory
    have hnat := hout
    rw [BitVec.ofInt_natCast] at hnat
    simp only [execute, words, Cpu.execute, Cpu.mk.injEq]
    refine ⟨?_, ?_, ?_, ?_⟩
    · rw [apply_ite (BitVec.ofNat 16), hnat]; rfl
    · rw [apply_ite (BitVec.ofNat 16), hnat]; rfl
    · rw [jump.holds_signed, hout]
      congr 1
      exact (toNat_words_a h).symm
    · rw [apply_ite wordsOf, wordsOf_setIfInBounds, hout]
      conv_lhs => rw [← toNat_words_a h]
      rfl

/-- The registers go on holding words. -/
theorem HoldsWords.execute (h : m.HoldsWords) {op : Operation} (hop : op.LoadsWord) :
    (m.execute op).HoldsWords := by
  cases op with
  | address value => exact ⟨hop, h.d_lt⟩
  | compute dest comp memory jump =>
    have hlt := m.result_lt comp memory
    constructor
    · simp only [Machine.execute]; split
      · exact hlt
      · exact h.a_lt
    · simp only [Machine.execute]; split
      · exact hlt
      · exact h.d_lt

end Machine

/-- A run of the machine in words. -/
def Run.words (r : Run) : Cpu.Run := ⟨r.machine.words, r.steps, r.ending⟩

/-- **Lock step**: a run of the machine is step by step a run of the processor. -/
theorem words_runFrom {program : Array Instruction} (hload : ∀ i ∈ program, i.operation.LoadsWord)
    (steps limit : Nat) {m : Machine} (h : m.HoldsWords) :
    (runFrom program steps limit m).words = Cpu.runFrom program steps limit m.words := by
  induction limit generalizing steps m with
  | zero => rfl
  | succ limit ih =>
    have hpc : m.words.pc = m.pc := rfl
    rw [runFrom, Cpu.runFrom, hpc]
    cases hi : program[m.pc]? with
    | none => rfl
    | some i =>
      simp only [Machine.fault?_words h]
      cases m.fault? i with
      | some f => rfl
      | none =>
        have hop : i.operation.LoadsWord := hload i (Array.mem_of_getElem? hi)
        simp only [ih (steps + 1) (h.execute hop), Machine.words_execute h]

/-! ### Memories of words -/

/-- Every cell of a memory holds a word. -/
def IsExact (cells : Memory) : Prop := cells = cellsOf (wordsOf cells)

theorem isExact_cellsOf (ram : Ram) : IsExact (cellsOf ram) := by
  rw [IsExact, wordsOf_cellsOf]

/-- Words are written, so that a memory of words stays one. -/
theorem isExact_execute {m : Machine} (h : IsExact m.ram) (op : Operation) :
    IsExact (m.execute op).ram := by
  cases op with
  | address value => exact h
  | compute dest comp memory jump =>
    simp only [Machine.execute]
    split
    · have hout : (m.result comp memory : Int) =
          ((BitVec.ofInt 16 (m.result comp memory)).toNat : Int) := by
        rw [BitVec.ofInt_natCast, BitVec.toNat_ofNat, Nat.mod_eq_of_lt (m.result_lt comp memory)]
      have hset (x : BitVec 16) : cellsOf ((wordsOf m.ram).setIfInBounds m.a x) =
          m.ram.setIfInBounds m.a (x.toNat : Int) := by
        nth_rewrite 2 [h]
        simp [cellsOf]
      rw [IsExact, wordsOf_setIfInBounds, hset, ← hout]
    · exact h

theorem isExact_runFrom (program : Array Instruction) (steps limit : Nat) {m : Machine}
    (h : IsExact m.ram) : IsExact (runFrom program steps limit m).machine.ram := by
  fun_induction runFrom program steps limit m with
  | case1 => exact h
  | case2 => exact h
  | case3 => exact h
  | case4 steps m limit i hi hfault ih => exact ih (isExact_execute h i.operation)

/-- On a memory of words the machine does just what the processor does. -/
theorem run_cellsOf {program : Array Instruction} (hload : ∀ i ∈ program, i.operation.LoadsWord)
    (ram : Ram) (limit : Int) :
    ∃ r, Cpu.runFrom program 0 limit.toNat (.start ram) = r ∧
      (run program (cellsOf ram) limit).steps = r.steps ∧
      (run program (cellsOf ram) limit).ending = r.ending ∧
      (run program (cellsOf ram) limit).machine.ram = cellsOf r.cpu.ram := by
  have hwords := words_runFrom hload 0 limit.toNat (Machine.holdsWords_start (cellsOf ram))
  rw [Machine.words_start] at hwords
  refine ⟨_, hwords.symm, rfl, rfl, ?_⟩
  exact isExact_runFrom program 0 limit.toNat (m := .start (cellsOf ram)) (isExact_cellsOf ram)

end HackStack.Hack
