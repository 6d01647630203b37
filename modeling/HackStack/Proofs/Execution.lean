import HackStack.Proofs.Assembling
import HackStack.Proofs.Semantics

/-!
# Carrying out pieces of code

A piece of code without jumps is itself a sequence of accesses to the memory, by which
the registers change: `block`. Where it sits in a program, the processor carries it out
and goes on behind it, or faults where an access fails (`leads_block`, `fails_block`).

`Carries` says of any piece of code, jumps or not, that the processor does from its
start what a sequence of accesses says, in as many steps as that one counts. Pieces
that sit one behind the other carry out the one and then the other (`Carries.seq`).
-/

namespace HackStack.Hack

open Stack (Access)
open Stack.Access

/-! ### Code in a program -/

/-- The operations `ops` sit in a program from place `p` on. -/
def SitsAt (program : Array Instruction) (p : Nat) (ops : List Operation) : Prop :=
  ops <+: (operationsOf program).drop p

theorem sitsAt_zero {program : Array Instruction} {ops : List Operation}
    (h : operationsOf program = ops) : SitsAt program 0 ops := by
  rw [SitsAt, h, List.drop_zero]

section SitsAt

variable {program : Array Instruction} {p : Nat} {op : Operation} {ops more : List Operation}

theorem SitsAt.left (h : SitsAt program p (ops ++ more)) : SitsAt program p ops :=
  (List.prefix_append ops more).trans h

theorem SitsAt.right (h : SitsAt program p (ops ++ more)) :
    SitsAt program (p + ops.length) more := by
  have hdrop := List.IsPrefix.drop h ops.length
  rwa [List.drop_left, List.drop_drop] at hdrop

theorem SitsAt.head (h : SitsAt program p (op :: more)) :
    ∃ i, program[p]? = some i ∧ i.operation = op := by
  obtain ⟨rest, hrest⟩ := h
  have hop : (operationsOf program)[p]? = some op := by
    rw [← List.head?_drop, ← hrest]
    rfl
  rw [operationsOf, List.getElem?_map, Array.getElem?_toList] at hop
  exact Option.map_eq_some_iff.mp hop

theorem SitsAt.tail (h : SitsAt program p (op :: more)) : SitsAt program (p + 1) more := by
  rw [← List.singleton_append] at h
  exact h.right

end SitsAt

/-! ### Steps of the processor -/

/-- The processor gets from one state to another in so many steps. -/
def Leads (program : Array Instruction) (n : Nat) (c c' : Cpu) : Prop :=
  ∀ steps limit, Cpu.runFrom program steps (n + limit) c = Cpu.runFrom program (steps + n) limit c'

/-- The processor faults at an address before `n` steps are done, and leaves the memory `ram`. -/
def Fails (program : Array Instruction) (n : Nat) (c : Cpu) (address : BitVec 16) (ram : Ram) :
    Prop :=
  ∀ steps limit, n ≤ limit → ∃ line cpu done,
    Cpu.runFrom program steps limit c = ⟨cpu, done, .fault ⟨line, address.toNat⟩⟩ ∧ cpu.ram = ram

theorem Leads.refl (program : Array Instruction) (c : Cpu) : Leads program 0 c c := by
  intro steps limit
  rw [Nat.zero_add, Nat.add_zero]

theorem Leads.trans {program : Array Instruction} {m n : Nat} {c₁ c₂ c₃ : Cpu}
    (h₁ : Leads program m c₁ c₂) (h₂ : Leads program n c₂ c₃) : Leads program (m + n) c₁ c₃ := by
  intro steps limit
  rw [Nat.add_assoc, h₁, h₂, Nat.add_assoc]

theorem Leads.fails {program : Array Instruction} {m n : Nat} {c₁ c₂ : Cpu}
    {address : BitVec 16} {ram : Ram} (h₁ : Leads program m c₁ c₂)
    (h₂ : Fails program n c₂ address ram) : Fails program (m + n) c₁ address ram := by
  intro steps limit hlimit
  obtain ⟨left, rfl⟩ := Nat.exists_eq_add_of_le (Nat.le_of_add_right_le hlimit)
  rw [h₁]
  exact h₂ (steps + m) left (by omega)

theorem Fails.mono {program : Array Instruction} {m n : Nat} {c : Cpu} {address : BitVec 16}
    {ram : Ram} (h : Fails program m c address ram) (hle : m ≤ n) :
    Fails program n c address ram :=
  fun steps limit hlimit => h steps limit (hle.trans hlimit)

/-- One step, when the instruction is no fault. -/
theorem leads_execute {program : Array Instruction} {c : Cpu} {i : Instruction}
    (hi : program[c.pc]? = some i) (hfault : c.fault? i = none) :
    Leads program 1 c (c.execute i.operation) := by
  intro steps limit
  rw [Nat.add_comm, Cpu.runFrom]
  simp only [hi, hfault]

theorem fails_fault {program : Array Instruction} {c : Cpu} {i : Instruction} {f : Fault}
    (hi : program[c.pc]? = some i) (hfault : c.fault? i = some f) :
    Fails program 1 c c.a c.ram := by
  intro steps limit hlimit
  obtain ⟨limit, rfl⟩ := Nat.exists_eq_add_of_le' hlimit
  have hf : f = ⟨i.line, c.a.toNat⟩ := by
    unfold Cpu.fault? at hfault
    split at hfault
    · exact (Option.some.inj hfault).symm
    · cases hfault
  refine ⟨i.line, c, steps, ?_, rfl⟩
  rw [Cpu.runFrom]
  simp only [hi, hfault, hf]

/-! ### Blocks -/

/-- Find the second operand of a computation. -/
@[simp]
def loadOperand (a : BitVec 16) (memory : Bool) : Access (BitVec 16) :=
  if memory then read a else pure a

/-- Store the result of a computation in the memory, if it goes there. -/
@[simp]
def storeResult (a out : BitVec 16) (dest : List Register) : Access Unit :=
  if dest.contains .m then write a out else pure ()

/-- What an operation does to the registers `a` and `d` and to the memory. -/
@[simp]
def Operation.act (a d : BitVec 16) : Operation → Access (BitVec 16 × BitVec 16)
  | .address value => pure (BitVec.ofNat 16 value, d)
  | .compute dest comp memory _ => do
    let y ← loadOperand a memory
    let out := comp.onWords d y
    storeResult a out dest
    return (if dest.contains .a then out else a, if dest.contains .d then out else d)

/-- What operations do one after the other, when none of them jumps. -/
@[simp]
def block (a d : BitVec 16) : List Operation → Access (BitVec 16 × BitVec 16)
  | [] => pure (a, d)
  | op :: more => do
    let r ← op.act a d
    block r.1 r.2 more

/-- An operation that never jumps. -/
def Operation.isStraight : Operation → Bool
  | .address _ => true
  | .compute _ _ _ jump => jump == .never

/-- An operation that is no fault does to a processor what its accesses do. -/
theorem run_act_of_none {c : Cpu} {i : Instruction} (h : c.fault? i = none) :
    (i.operation.act c.a c.d).run c.ram =
      .ok ((c.execute i.operation).a, (c.execute i.operation).d) (c.execute i.operation).ram := by
  obtain ⟨op, line⟩ := i
  cases op with
  | address value => rfl
  | compute dest comp memory jump =>
    have hcell : memory = true ∨ dest.contains .m = true → c.a.toNat < c.ram.size := by
      simpa [Cpu.fault?, Machine.touchesMemory] using h
    have hload : (loadOperand c.a memory).run c.ram = .ok (c.operand memory) c.ram := by
      cases memory with
      | false => rfl
      | true => exact run_read_of_lt (hcell (.inl rfl))
    have hstore (out : BitVec 16) : (storeResult c.a out dest).run c.ram =
        .ok () (if dest.contains .m then c.ram.setIfInBounds c.a.toNat out else c.ram) := by
      unfold storeResult
      split
      · exact run_write_of_lt (hcell (.inr ‹_›)) out
      · rfl
    rw [Operation.act, run_bind_ok hload, run_bind_ok (hstore _)]
    rfl

/-- An operation that is a fault fails at its first access. -/
theorem run_act_of_some {c : Cpu} {i : Instruction} {f : Fault} (h : c.fault? i = some f) :
    (i.operation.act c.a c.d).run c.ram = .error c.a c.ram := by
  obtain ⟨op, line⟩ := i
  cases op with
  | address value => simp [Cpu.fault?, Machine.touchesMemory] at h
  | compute dest comp memory jump =>
    have hout : (memory = true ∨ dest.contains .m = true) ∧ c.ram.size ≤ c.a.toNat := by
      have := Option.isSome_of_eq_some h
      simpa [Cpu.fault?, Machine.touchesMemory] using this
    rw [Operation.act]
    cases memory with
    | true => exact run_bind_error (run_read_of_le hout.2)
    | false =>
      have hm : dest.contains .m = true := by simpa using hout.1
      have hload : (loadOperand c.a false).run c.ram = .ok c.a c.ram := rfl
      have hstore (out : BitVec 16) : (storeResult c.a out dest).run c.ram = .error c.a c.ram := by
        rw [storeResult, if_pos hm]
        exact run_write_of_le hout.2 out
      rw [run_bind_ok hload]
      exact run_bind_error (hstore _)

/-- An operation that never jumps goes on with the next. -/
theorem pc_execute {op : Operation} (h : op.isStraight = true) (c : Cpu) :
    (c.execute op).pc = c.pc + 1 := by
  cases op with
  | address value => rfl
  | compute dest comp memory jump =>
    have hnever : jump = .never := by simpa [Operation.isStraight] using h
    simp [Cpu.execute, hnever, Jump.onWord]

section Block

variable {program : Array Instruction} {ops : List Operation} {c : Cpu} {ram : Ram}

/-- The processor carries out a block whose accesses succeed. -/
theorem leads_block (hcode : SitsAt program c.pc ops) (hstraight : ∀ op ∈ ops, op.isStraight = true)
    {r : BitVec 16 × BitVec 16} (h : (block c.a c.d ops).run c.ram = .ok r ram) :
    Leads program ops.length c ⟨r.1, r.2, c.pc + ops.length, ram⟩ := by
  induction ops generalizing c with
  | nil =>
    cases h
    exact Leads.refl program c
  | cons op more ih =>
    obtain ⟨i, hi, rfl⟩ := hcode.head
    have hpc := pc_execute (hstraight i.operation (List.mem_cons_self ..)) c
    rw [block] at h
    cases hfault : c.fault? i with
    | some f =>
      rw [run_bind_error (run_act_of_some hfault)] at h
      cases h
    | none =>
      rw [run_bind_ok (run_act_of_none hfault)] at h
      have hmore := ih (hpc ▸ hcode.tail) (fun op hop => hstraight op (List.mem_cons_of_mem _ hop)) h
      have := (leads_execute hi hfault).trans hmore
      rw [hpc] at this
      rwa [List.length_cons, Nat.add_comm more.length, ← Nat.add_assoc]

/-- The processor faults in a block where an access fails. -/
theorem fails_block (hcode : SitsAt program c.pc ops) (hstraight : ∀ op ∈ ops, op.isStraight = true)
    {address : BitVec 16} (h : (block c.a c.d ops).run c.ram = .error address ram) :
    Fails program ops.length c address ram := by
  induction ops generalizing c with
  | nil => cases h
  | cons op more ih =>
    obtain ⟨i, hi, rfl⟩ := hcode.head
    have hpc := pc_execute (hstraight i.operation (List.mem_cons_self ..)) c
    rw [block] at h
    cases hfault : c.fault? i with
    | some f =>
      rw [run_bind_error (run_act_of_some hfault)] at h
      cases h
      exact (fails_fault hi hfault).mono (by simp)
    | none =>
      rw [run_bind_ok (run_act_of_none hfault)] at h
      have hmore := ih (hpc ▸ hcode.tail) (fun op hop => hstraight op (List.mem_cons_of_mem _ hop)) h
      rw [List.length_cons, Nat.add_comm]
      exact (leads_execute hi hfault).fails hmore

end Block

theorem block_append (a d : BitVec 16) (ops more : List Operation) :
    block a d (ops ++ more) = block a d ops >>= fun r => block r.1 r.2 more := by
  induction ops generalizing a d with
  | nil => simp only [List.nil_append, block, pure_bind]
  | cons op ops ih => simp only [List.cons_append, block, bind_assoc, ih]

/-! ### Code that carries out accesses -/

/-- From the state `c` the processor carries out accesses: it gets to the instruction `q` in as
many steps as they count, which are no more than `bound`, or it faults as they fail. What is in
the registers then is left open. -/
def Carries (program : Array Instruction) (bound : Nat) (c : Cpu) (q : Nat) (x : Access Nat) : Prop :=
  match x.run c.ram with
  | .ok n ram => n ≤ bound ∧ ∃ a d, Leads program n c ⟨a, d, q, ram⟩
  | .error address ram => Fails program bound c address ram

section Carries

variable {program : Array Instruction} {bound bound' q q' : Nat} {c : Cpu} {x y : Access Nat}

theorem carries_of_ok {n : Nat} {ram : Ram} (h : x.run c.ram = .ok n ram) :
    Carries program bound c q x ↔ n ≤ bound ∧ ∃ a d, Leads program n c ⟨a, d, q, ram⟩ := by
  rw [Carries, h]

theorem carries_of_error {address : BitVec 16} {ram : Ram} (h : x.run c.ram = .error address ram) :
    Carries program bound c q x ↔ Fails program bound c address ram := by
  rw [Carries, h]

theorem Carries.mono (h : Carries program bound c q x) (hle : bound ≤ bound') :
    Carries program bound' c q x := by
  cases hx : x.run c.ram with
  | ok n ram =>
    rw [carries_of_ok hx] at h ⊢
    exact ⟨h.1.trans hle, h.2⟩
  | error address ram =>
    rw [carries_of_error hx] at h ⊢
    exact h.mono hle

/-- Steps before accesses. -/
theorem Leads.carries {n : Nat} {c' : Cpu} (hleads : Leads program n c c')
    (hram : c'.ram = c.ram) (h : Carries program bound c' q x) :
    Carries program (n + bound) c q (do return n + (← x)) := by
  cases hx : x.run c.ram with
  | ok m ram =>
    rw [carries_of_ok (hram ▸ hx)] at h
    obtain ⟨hle, a, d, hm⟩ := h
    have hrun : (do return n + (← x) : Access Nat).run c.ram = .ok (n + m) ram := run_bind_ok hx
    rw [carries_of_ok hrun]
    exact ⟨Nat.add_le_add_left hle n, a, d, hleads.trans hm⟩
  | error address ram =>
    rw [carries_of_error (hram ▸ hx)] at h
    rw [carries_of_error (run_bind_error hx)]
    exact hleads.fails h

/-- **A block and what follows it.** -/
theorem carries_block {ops : List Operation} {f : BitVec 16 × BitVec 16 → Access Nat}
    (hcode : SitsAt program c.pc ops) (hstraight : ∀ op ∈ ops, op.isStraight = true)
    (hrest : ∀ r ram, Carries program bound ⟨r.1, r.2, c.pc + ops.length, ram⟩ q (f r)) :
    Carries program (ops.length + bound) c q (do
      let r ← block c.a c.d ops
      return ops.length + (← f r)) := by
  cases hblock : (block c.a c.d ops).run c.ram with
  | error address ram =>
    rw [carries_of_error (run_bind_error hblock)]
    exact (fails_block hcode hstraight hblock).mono (Nat.le_add_right ..)
  | ok r ram =>
    have hleads := leads_block hcode hstraight hblock
    have hr := hrest r ram
    cases hf : (f r).run ram with
    | ok n ram' =>
      rw [carries_of_ok hf] at hr
      obtain ⟨hle, a, d, hn⟩ := hr
      rw [carries_of_ok ((run_bind_ok hblock).trans (run_bind_ok hf))]
      exact ⟨Nat.add_le_add_left hle _, a, d, hleads.trans hn⟩
    | error address ram' =>
      rw [carries_of_error hf] at hr
      rw [carries_of_error ((run_bind_ok hblock).trans (run_bind_error hf))]
      exact hleads.fails hr

/-- The end of a piece of code. -/
theorem carries_done (program : Array Instruction) (c : Cpu) :
    Carries program 0 c c.pc (pure 0) :=
  ⟨Nat.le_refl 0, c.a, c.d, Leads.refl program c⟩

/-- A block that nothing follows. -/
theorem carries_straight {ops : List Operation} (hcode : SitsAt program c.pc ops)
    (hstraight : ∀ op ∈ ops, op.isStraight = true)
    (hx : (do let _ ← block c.a c.d ops; return ops.length) = x) :
    Carries program ops.length c (c.pc + ops.length) x := by
  have := carries_block hcode hstraight fun r ram =>
    carries_done program ⟨r.1, r.2, c.pc + ops.length, ram⟩
  simpa [← hx] using this

/-- **One piece of code and the next.** -/
theorem Carries.seq (hx : Carries program bound c q x)
    (hy : ∀ c', c'.pc = q → Carries program bound' c' q' y) :
    Carries program (bound + bound') c q' (do
      let m ← x
      let n ← y
      return m + n) := by
  cases hrun : x.run c.ram with
  | error address ram =>
    rw [carries_of_error hrun] at hx
    rw [carries_of_error (run_bind_error hrun)]
    exact hx.mono (Nat.le_add_right ..)
  | ok m ram =>
    rw [carries_of_ok hrun] at hx
    obtain ⟨hm, a, d, hleads⟩ := hx
    have hnext := hy ⟨a, d, q, ram⟩ rfl
    cases hrun' : y.run ram with
    | ok n ram' =>
      rw [carries_of_ok hrun'] at hnext
      obtain ⟨hn, a', d', hleads'⟩ := hnext
      rw [carries_of_ok ((run_bind_ok hrun).trans (run_bind_ok hrun'))]
      exact ⟨Nat.add_le_add hm hn, a', d', hleads.trans hleads'⟩
    | error address ram' =>
      rw [carries_of_error hrun'] at hnext
      rw [carries_of_error ((run_bind_ok hrun).trans (run_bind_error hrun'))]
      exact (hleads.fails hnext).mono (Nat.add_le_add_right hm _)

end Carries

/-- A jump to a place that is loaded before. -/
theorem leads_jump {program : Array Instruction} {c : Cpu} {comp : Computation} {jump : Jump}
    {t : Nat} (ht : t < 2 ^ 16)
    (hcode : SitsAt program c.pc [.address t, .compute [] comp false jump]) :
    Leads program 2 c
      { c with
        a := BitVec.ofNat 16 t
        pc := if jump.onWord (comp.onWords c.d (BitVec.ofNat 16 t)) then t else c.pc + 2 } := by
  obtain ⟨i, hi, hop⟩ := hcode.head
  obtain ⟨j, hj, hjump⟩ := hcode.tail.head
  have hload := leads_execute hi (by simp [Cpu.fault?, hop, Machine.touchesMemory])
  rw [hop] at hload
  have hgo := leads_execute (c := c.execute (.address t)) hj
    (by simp [Cpu.fault?, hjump, Machine.touchesMemory])
  rw [hjump] at hgo
  have htarget : (BitVec.ofNat 16 t).toNat = t := by
    rw [BitVec.toNat_ofNat, Nat.mod_eq_of_lt ht]
  have := hload.trans hgo
  simpa [Cpu.execute, Cpu.operand, htarget] using this

/-! ### Whole programs -/

/-- A run does what accesses do to a memory: it halts after as many steps as they count, or it
faults at the address at which they fail, and the memory is left as they leave it. -/
inductive Run.Realizes (r : Run) : EStateM.Result (BitVec 16) Ram Nat → Prop
  | halted {ram : Ram} : r.ending = .halted → r.machine.ram = cellsOf ram →
      r.Realizes (.ok r.steps ram)
  | fault {line : Int} {address : BitVec 16} {ram : Ram} :
      r.ending = .fault ⟨line, address.toNat⟩ → r.machine.ram = cellsOf ram →
      r.Realizes (.error address ram)

theorem Run.Realizes.of_ok {r : Run} {n : Nat} {ram : Ram} (h : r.Realizes (.ok n ram)) :
    r.ending = .halted ∧ r.steps = n ∧ r.machine.ram = cellsOf ram := by
  cases h with
  | halted hending hram => exact ⟨hending, rfl, hram⟩

theorem Run.Realizes.of_error {r : Run} {address : BitVec 16} {ram : Ram}
    (h : r.Realizes (.error address ram)) :
    ∃ line, r.ending = .fault ⟨line, address.toNat⟩ ∧ r.machine.ram = cellsOf ram := by
  cases h with
  | fault hending hram => exact ⟨_, hending, hram⟩

/-- At the end of a program the processor halts. -/
theorem runFrom_of_size {program : Array Instruction} (steps limit : Nat) {c : Cpu}
    (h : c.pc = program.size) : Cpu.runFrom program steps limit c = ⟨c, steps, .halted⟩ := by
  cases limit with
  | zero => simp [Cpu.runFrom, h]
  | succ limit => simp [Cpu.runFrom, h]

/-- **A program that carries out accesses from its start to its end** realizes them. -/
theorem realizes_of_carries {program : Array Instruction}
    (hload : ∀ i ∈ program, i.operation.LoadsWord) {ram : Ram} {x : Access Nat} {bound : Nat}
    (h : Carries program bound (.start ram) program.size x) {limit : Int}
    (hlimit : (bound : Int) ≤ limit) :
    (run program (cellsOf ram) limit).Realizes (x.run ram) := by
  obtain ⟨r, hr, hsteps, hending, hram⟩ := run_cellsOf hload ram limit
  have hbound : bound ≤ limit.toNat := by omega
  cases hx : x.run ram with
  | ok n ram' =>
    rw [carries_of_ok hx] at h
    obtain ⟨hn, a, d, hleads⟩ := h
    obtain ⟨left, hleft⟩ := Nat.exists_eq_add_of_le (hn.trans hbound)
    rw [hleft, hleads, runFrom_of_size _ _ rfl, Nat.zero_add] at hr
    subst hr
    simp only at hsteps
    exact hsteps ▸ .halted hending hram
  | error address ram' =>
    rw [carries_of_error hx] at h
    obtain ⟨line, cpu, done, hrun, hcpu⟩ := h 0 limit.toNat hbound
    rw [hrun] at hr
    subst hr
    exact .fault hending (hram.trans (congrArg cellsOf hcpu))

end HackStack.Hack
