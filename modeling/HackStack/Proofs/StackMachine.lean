import HackStack.Proofs.Correctness
import Mathlib.Logic.Function.Basic

/-!
# The stack machine

Seen from a source, the commands work on a stack and on segments that have nothing to do
with each other. `Vm` is that machine: its stack is a list, and its cells are those of
`static` and `temp`, the two pointers, and a heap in which the four segments with a base
lie. A step is not possible when an operand is missing, when the stack is full, or when a
segment with a base is used outside of the heap.

All of it lies in one memory (`Represents`), where no two parts meet: the limits of the
indexes keep `temp` and `static` in their places, the scratch cell belongs to no part, and
the stack ends where the heap starts. As long as the machine can take its steps, the
commands do on the memory what they do on the machine (`exec_of_step?`), and so does
the compiled code.
-/

namespace HackStack.Stack

open Hack Access

/-! ### The machine -/

/-- The address of the first cell of the stack. -/
def stackBase : Nat := 256

/-- The address of the first cell of the heap. -/
def heapBase : Nat := 2048

/-- How many values the stack can hold. -/
def stackLimit : Nat := heapBase - stackBase

/-- A cell of a segment. -/
inductive Cell where
  | this
  | that
  | temp (index : Fin 8)
  | static (index : Fin 240)
  | heap (index : Fin (memorySize - heapBase))
  deriving DecidableEq, Repr

/-- The stack machine. Its bases of `local` and `argument` are fixed; those of `this` and `that`
are cells. -/
structure Vm where
  /-- The values on the stack, the top first. -/
  stack : List (BitVec 16)
  lcl : BitVec 16
  arg : BitVec 16
  cells : Cell → BitVec 16

/-- What an arithmetic command makes of the stack. -/
def Arithmetic.onStack? : Arithmetic → List (BitVec 16) → Option (List (BitVec 16))
  | .not, y :: rest => some (~~~y :: rest)
  | .neg, y :: rest => some (-y :: rest)
  | .add, y :: x :: rest => some ((x + y) :: rest)
  | .sub, y :: x :: rest => some ((x - y) :: rest)
  | .and, y :: x :: rest => some ((x &&& y) :: rest)
  | .or, y :: x :: rest => some ((x ||| y) :: rest)
  | .eq, y :: x :: rest => some (truth (x - y == 0) :: rest)
  | .gt, y :: x :: rest => some (truth (0 < (x - y).toInt) :: rest)
  | .lt, y :: x :: rest => some (truth ((x - y).toInt < 0) :: rest)
  | _, _ => none

/-- How many values an arithmetic command needs. -/
def Arithmetic.operandCount : Arithmetic → Nat
  | .not | .neg => 1
  | _ => 2

/-- The cell of the heap at an address. -/
def heapCell? (a : BitVec 16) : Option Cell :=
  if h : heapBase ≤ a.toNat ∧ a.toNat < memorySize then
    some (.heap ⟨a.toNat - heapBase, by unfold heapBase memorySize at *; omega⟩)
  else none

namespace Vm

/-- Where a segment with a base starts. -/
def base (vm : Vm) : Base → BitVec 16
  | .lcl => vm.lcl
  | .arg => vm.arg
  | .this => vm.cells .this
  | .that => vm.cells .that

/-- The cell that an index of a segment stands for. -/
def cell? (vm : Vm) (index : Nat) : Segment → Option Cell
  | .constant => none
  | .based base => heapCell? (vm.base base + BitVec.ofNat 16 index)
  | .temp => if h : index < 8 then some (.temp ⟨index, h⟩) else none
  | .pointer => some (if index = 0 then .this else .that)
  | .static => if h : index < 240 then some (.static ⟨index, h⟩) else none

/-- The value that an index of a segment stands for. -/
def value? (vm : Vm) (index : Nat) : Segment → Option (BitVec 16)
  | .constant => some (BitVec.ofNat 16 index)
  | s => (vm.cell? index s).map vm.cells

/-- Put a value onto the stack, if there is room. -/
def push? (vm : Vm) (v : BitVec 16) : Option Vm :=
  if vm.stack.length < stackLimit then some { vm with stack := v :: vm.stack } else none

/-- Take a value off the stack and into a cell. -/
def pop? (vm : Vm) (c : Cell) : Option Vm :=
  match vm.stack with
  | [] => none
  | v :: rest => some { vm with stack := rest, cells := Function.update vm.cells c v }

/-- One command. -/
def step? (vm : Vm) : Operation → Option Vm
  | .arithmetic op => (op.onStack? vm.stack).map fun stack => { vm with stack }
  | .push name index => (Segment.ofText? name).bind fun s => (vm.value? index s).bind vm.push?
  | .pop name index => (Segment.ofText? name).bind fun s => (vm.cell? index s).bind vm.pop?
  | _ => some vm

/-- Commands one after the other. -/
def run? (vm : Vm) (ops : List Operation) : Option Vm := ops.foldlM step? vm

/-- A segment with a base is used within the heap. -/
def InReach (vm : Vm) (index : Nat) : Segment → Prop
  | .based base =>
    heapBase ≤ (vm.base base + BitVec.ofNat 16 index).toNat ∧
      (vm.base base + BitVec.ofNat 16 index).toNat < memorySize
  | _ => True

instance (vm : Vm) (index : Nat) : DecidablePred (vm.InReach index)
  | .based _ => inferInstanceAs (Decidable (_ ∧ _))
  | .constant | .temp | .pointer | .static => inferInstanceAs (Decidable True)

/-- What a command needs: its operands, room on the stack, and a cell of the heap where it uses a
segment with a base. -/
def Ready (vm : Vm) : Operation → Prop
  | .arithmetic op => op.operandCount ≤ vm.stack.length
  | .push name index =>
    vm.stack.length < stackLimit ∧ ∀ s ∈ Segment.ofText? name, vm.InReach index s
  | .pop name index => 0 < vm.stack.length ∧ ∀ s ∈ Segment.ofText? name, vm.InReach index s
  | _ => True

instance (vm : Vm) : DecidablePred vm.Ready
  | .arithmetic _ => inferInstanceAs (Decidable (_ ≤ _))
  | .push _ _ | .pop _ _ => inferInstanceAs (Decidable (_ ∧ _))
  | .label _ | .goto _ | .ifGoto _ | .function _ _ | .call _ _ | .ret =>
    inferInstanceAs (Decidable True)

/-- Each of the commands has what it needs when its turn comes. -/
def Safe : Vm → List Operation → Prop
  | _, [] => True
  | vm, op :: more => vm.Ready op ∧ ∀ vm' ∈ vm.step? op, vm'.Safe more

instance decidableSafe : (vm : Vm) → (ops : List Operation) → Decidable (vm.Safe ops)
  | _, [] => inferInstanceAs (Decidable True)
  | vm, op :: more =>
    have (vm' : Vm) : Decidable (vm'.Safe more) := decidableSafe vm' more
    inferInstanceAs (Decidable (vm.Ready op ∧ ∀ vm' ∈ vm.step? op, vm'.Safe more))

end Vm

/-! ### The machine in memory -/

/-- The address of a cell. -/
def Cell.address : Cell → Nat
  | .this => 3
  | .that => 4
  | .temp i => 5 + i
  | .static i => 16 + i
  | .heap i => heapBase + i

/-- Where the cells are: behind the first three, before the stack and behind it, and none of them
is the scratch cell. -/
theorem Cell.address_range (c : Cell) :
    2 < c.address ∧ c.address ≠ 13 ∧ c.address < memorySize ∧
      (c.address < stackBase ∨ heapBase ≤ c.address) := by
  unfold memorySize stackBase heapBase
  cases c with
  | this | that => decide
  | temp i => simp only [address]; omega
  | static i => simp only [address]; omega
  | heap i =>
    have := i.isLt
    unfold memorySize heapBase at this
    simp only [address, heapBase]
    omega

/-- No two cells have the same address. -/
theorem Cell.address_inj {c d : Cell} (h : c.address = d.address) : c = d := by
  have hbase : heapBase = 2048 := rfl
  cases c <;> cases d <;> simp only [address, hbase, reduceCtorEq, Cell.temp.injEq,
    Cell.static.injEq, Cell.heap.injEq, Fin.ext_iff] at h ⊢ <;> omega

/-- A memory holds a stack: its pointer, and its values from the lowest on. -/
structure HoldsStack (ram : Ram) (stack : List (BitVec 16)) : Prop where
  depth : stack.length ≤ stackLimit
  pointer : ram[0]? = some (BitVec.ofNat 16 (stackBase + stack.length))
  values : ∀ i v, stack.reverse[i]? = some v → ram[stackBase + i]? = some v

/-- A memory holds the bases and the cells of the segments. -/
structure HoldsSegments (ram : Ram) (lcl arg : BitVec 16) (cells : Cell → BitVec 16) : Prop where
  lcl : ram[1]? = some lcl
  arg : ram[2]? = some arg
  cell : ∀ c : Cell, ram[c.address]? = some (cells c)

/-- A memory holds the state of a machine. -/
structure Represents (ram : Ram) (vm : Vm) : Prop where
  size : ram.size = memorySize
  stack : HoldsStack ram vm.stack
  segments : HoldsSegments ram vm.lcl vm.arg vm.cells

/-! ### Words and places -/

theorem toNat_ofNat_of_lt {n : Nat} (h : n < memorySize) : (BitVec.ofNat 16 n).toNat = n := by
  rw [BitVec.toNat_ofNat, Nat.mod_eq_of_lt]
  unfold memorySize at h
  omega

theorem ofNat_succ_sub_one (n : Nat) : BitVec.ofNat 16 (n + 1) - 1 = BitVec.ofNat 16 n := by
  rw [BitVec.ofNat_add]
  exact BitVec.add_sub_cancel _ _

theorem ofNat_add_one (n : Nat) : BitVec.ofNat 16 n + 1 = BitVec.ofNat 16 (n + 1) := by
  rw [BitVec.ofNat_add]
  rfl

/-- A cell of the stack lies before the heap. -/
theorem lt_heapBase {n : Nat} (h : n < stackLimit) : stackBase + n < heapBase :=
  Nat.add_lt_of_lt_sub' h

theorem lt_memorySize {n : Nat} (h : n < heapBase) : n < memorySize := Nat.lt_trans h (by decide)

theorem lt_length_of_reverse {stack : List (BitVec 16)} {i : Nat} {v : BitVec 16}
    (h : stack.reverse[i]? = some v) : i < stack.length := by
  have hlt := (List.getElem?_eq_some_iff.mp h).1
  rwa [List.length_reverse] at hlt

/-- The values of a stack from the lowest on, and the top behind them. -/
theorem getElem?_reverse_cons (v : BitVec 16) (rest : List (BitVec 16)) (i : Nat) (w : BitVec 16) :
    (v :: rest).reverse[i]? = some w ↔
      rest.reverse[i]? = some w ∨ (i = rest.length ∧ w = v) := by
  rw [List.reverse_cons, List.getElem?_append]
  split
  · rename_i hlt
    rw [List.length_reverse] at hlt
    exact ⟨.inl, fun h => h.resolve_right fun h => hlt.ne h.1⟩
  · rename_i hge
    have hnone : rest.reverse[i]? = none := List.getElem?_eq_none (Nat.le_of_not_lt hge)
    rw [hnone, List.length_reverse]
    rw [List.length_reverse] at hge
    have hsingle : [v][i - rest.length]? = some w ↔ i - rest.length = 0 ∧ v = w := by
      cases i - rest.length <;> simp
    rw [hsingle]
    constructor
    · rintro ⟨hi, rfl⟩
      exact .inr ⟨by omega, rfl⟩
    · rintro (h | ⟨rfl, rfl⟩)
      · cases h
      · exact ⟨Nat.sub_self _, rfl⟩

/-! ### Changes of the memory -/

/-- A change of a cell leaves the other cells. -/
theorem getElem?_set (ram : Ram) {a b : Nat} (v : BitVec 16) (h : b ≠ a) :
    (ram.setIfInBounds a v)[b]? = ram[b]? :=
  Array.getElem?_setIfInBounds_ne h.symm

section HoldsSegments

variable {ram : Ram} {lcl arg : BitVec 16} {cells : Cell → BitVec 16}

/-- The pointer of the stack, the scratch cell and the stack belong to no segment. -/
theorem HoldsSegments.set (h : HoldsSegments ram lcl arg cells) {a : Nat}
    (ha : a = 0 ∨ a = 13 ∨ stackBase ≤ a ∧ a < heapBase) (v : BitVec 16) :
    HoldsSegments (ram.setIfInBounds a v) lcl arg cells := by
  have hbase : stackBase = 256 := rfl
  refine ⟨?_, ?_, fun c => ?_⟩
  · rw [getElem?_set ram v (by omega)]
    exact h.lcl
  · rw [getElem?_set ram v (by omega)]
    exact h.arg
  · have hrange := c.address_range
    rw [getElem?_set ram v (by omega)]
    exact h.cell c

/-- A cell takes a value, and the others keep theirs. -/
theorem HoldsSegments.update (h : HoldsSegments ram lcl arg cells) (c : Cell)
    (hlt : c.address < ram.size) (v : BitVec 16) :
    HoldsSegments (ram.setIfInBounds c.address v) lcl arg (Function.update cells c v) := by
  have hrange := c.address_range
  refine ⟨?_, ?_, fun d => ?_⟩
  · rw [getElem?_set ram v (by omega)]
    exact h.lcl
  · rw [getElem?_set ram v (by omega)]
    exact h.arg
  · by_cases hd : d = c
    · subst hd
      rw [Array.getElem?_setIfInBounds_self_of_lt hlt, Function.update_self]
    · rw [getElem?_set ram v fun heq => hd (Cell.address_inj heq), h.cell d,
        Function.update_of_ne hd]

end HoldsSegments

section HoldsStack

variable {ram : Ram} {v : BitVec 16} {stack : List (BitVec 16)}

theorem HoldsStack.top (h : HoldsStack ram (v :: stack)) :
    ram[stackBase + stack.length]? = some v :=
  h.values _ _ ((getElem?_reverse_cons ..).mpr (.inr ⟨rfl, rfl⟩))

theorem HoldsStack.top_lt (h : HoldsStack ram (v :: stack)) : stackBase + stack.length < heapBase :=
  lt_heapBase h.depth

/-- A change outside of the stack leaves it. -/
theorem HoldsStack.set (h : HoldsStack ram stack) {a : Nat}
    (ha : 0 < a ∧ (a < stackBase ∨ stackBase + stack.length ≤ a)) (v : BitVec 16) :
    HoldsStack (ram.setIfInBounds a v) stack := by
  refine ⟨h.depth, ?_, fun i w hw => ?_⟩
  · rw [getElem?_set ram v (by omega)]
    exact h.pointer
  · have hi := lt_length_of_reverse hw
    rw [getElem?_set ram v (by omega)]
    exact h.values i w hw

/-- The pointer goes down over the top, which stays where it is. -/
theorem HoldsStack.drop (h : HoldsStack ram (v :: stack)) (hsize : 0 < ram.size) :
    HoldsStack (ram.setIfInBounds 0 (BitVec.ofNat 16 (stackBase + stack.length))) stack := by
  have hbase : stackBase = 256 := rfl
  refine ⟨Nat.le_of_succ_le h.depth, Array.getElem?_setIfInBounds_self_of_lt hsize, fun i w hw => ?_⟩
  rw [getElem?_set ram _ (by omega)]
  exact h.values i w ((getElem?_reverse_cons ..).mpr (.inl hw))

/-- The pointer goes up over a value that is behind the stack. -/
theorem HoldsStack.push (h : HoldsStack ram stack) (hroom : stack.length < stackLimit)
    (hsize : 0 < ram.size) (hv : ram[stackBase + stack.length]? = some v) :
    HoldsStack (ram.setIfInBounds 0 (BitVec.ofNat 16 (stackBase + stack.length + 1)))
      (v :: stack) := by
  have hbase : stackBase = 256 := rfl
  refine ⟨hroom, Array.getElem?_setIfInBounds_self_of_lt hsize, fun i w hw => ?_⟩
  rw [getElem?_set ram _ (by omega)]
  rcases (getElem?_reverse_cons ..).mp hw with hw | ⟨rfl, rfl⟩
  · exact h.values i w hw
  · exact hv

/-- The top takes a value. -/
theorem HoldsStack.set_top (h : HoldsStack ram (v :: stack))
    (hsize : stackBase + stack.length < ram.size) (w : BitVec 16) :
    HoldsStack (ram.setIfInBounds (stackBase + stack.length) w) (w :: stack) := by
  have hbase : stackBase = 256 := rfl
  refine ⟨h.depth, ?_, fun i u hu => ?_⟩
  · rw [getElem?_set ram w (by omega)]
    exact h.pointer
  · rcases (getElem?_reverse_cons ..).mp hu with hu | ⟨rfl, rfl⟩
    · have hi := lt_length_of_reverse hu
      rw [getElem?_set ram w (by omega)]
      exact h.values i u ((getElem?_reverse_cons ..).mpr (.inl hu))
    · exact Array.getElem?_setIfInBounds_self_of_lt hsize

end HoldsStack

/-! ### Commands on the memory -/

section Accesses

variable {ram : Ram} {n : Nat} {v : BitVec 16}

theorem run_read_ofNat (hn : n < memorySize) (h : ram[n]? = some v) :
    (read (BitVec.ofNat 16 n)).run ram = .ok v ram :=
  run_read_of_some (by rwa [toNat_ofNat_of_lt hn])

theorem run_write_ofNat (hn : n < memorySize) (h : ram.size = memorySize) (v : BitVec 16) :
    (write (BitVec.ofNat 16 n) v).run ram = .ok () (ram.setIfInBounds n v) := by
  have hlt : (BitVec.ofNat 16 n).toNat < ram.size := by rwa [toNat_ofNat_of_lt hn, h]
  rw [run_write_of_lt hlt, toNat_ofNat_of_lt hn]

end Accesses

section Simulation

variable {ram : Ram} {vm vm' : Vm}

/-- A value that can be found is put onto the stack. -/
theorem Represents.pushValue (h : Represents ram vm) {value : Access (BitVec 16)} {v : BitVec 16}
    (hvalue : value.run ram = .ok v ram) (hpush : vm.push? v = some vm') :
    ∃ ram', (pushValue value).run ram = .ok () ram' ∧ Represents ram' vm' := by
  unfold Vm.push? at hpush
  split at hpush
  · rename_i hroom
    cases hpush
    have hbelow := lt_heapBase hroom
    have hlt := lt_memorySize hbelow
    have hpointer : (BitVec.ofNat 16 (stackBase + vm.stack.length)).toNat =
        stackBase + vm.stack.length := toNat_ofNat_of_lt hlt
    have hrun := run_pushValue hvalue h.stack.pointer (by rw [hpointer]; unfold stackBase; omega)
      (by rwa [hpointer, h.size])
    rw [hpointer, ofNat_add_one] at hrun
    -- the value is written behind the stack
    have hfree : HoldsStack (ram.setIfInBounds (stackBase + vm.stack.length) v) vm.stack :=
      h.stack.set ⟨by unfold stackBase; omega, .inr (Nat.le_refl _)⟩ v
    refine ⟨_, hrun, by simp [h.size], hfree.push hroom (by simp [h.size, memorySize]) ?_, ?_⟩
    · exact Array.getElem?_setIfInBounds_self_of_lt (by rwa [h.size])
    · exact (h.segments.set (.inr (.inr ⟨Nat.le_add_right .., hbelow⟩)) v).set (.inl rfl) _
  · cases hpush

/-- The top of the stack goes to a cell whose address can be found. -/
theorem Represents.popValue (h : Represents ram vm) {address : Access (BitVec 16)} {c : Cell}
    (haddress : address.run ram = .ok (BitVec.ofNat 16 c.address) ram)
    (hpop : vm.pop? c = some vm') :
    ∃ ram', (popValue address).run ram = .ok () ram' ∧ Represents ram' vm' := by
  unfold Vm.pop? at hpop
  split at hpop
  · cases hpop
  · rename_i v rest hstack
    cases hpop
    have hholds := h.stack
    rw [hstack] at hholds
    have hbelow := hholds.top_lt
    obtain ⟨hlow, -, hcell, hplace⟩ := c.address_range
    have hpointer : (BitVec.ofNat 16 (stackBase + rest.length + 1)).toNat =
        stackBase + rest.length + 1 := toNat_ofNat_of_lt (Nat.lt_of_le_of_lt hbelow (by decide))
    have hp : ram[0]? = some (BitVec.ofNat 16 (stackBase + rest.length + 1)) := hholds.pointer
    have hrun := run_popValue haddress hp (by rw [hpointer]; unfold stackBase; omega)
      (by rw [hpointer]; exact hholds.top) (by rwa [toNat_ofNat_of_lt hcell, h.size])
    rw [ofNat_succ_sub_one, toNat_ofNat_of_lt hcell] at hrun
    -- neither the note in the scratch cell nor the pointer is on the stack or in a segment
    have hholds₁ : HoldsStack ((ram.setIfInBounds 13 (BitVec.ofNat 16 c.address)).setIfInBounds 0
        (BitVec.ofNat 16 (stackBase + rest.length))) rest :=
      (hholds.set ⟨by decide, .inl (by decide)⟩ _).drop (by simp [h.size, memorySize])
    have hsegments₁ := (h.segments.set (.inr (.inl rfl)) (BitVec.ofNat 16 c.address)).set (.inl rfl)
      (BitVec.ofNat 16 (stackBase + rest.length))
    refine ⟨_, hrun, by simp [h.size], ?_, hsegments₁.update c (by simpa [h.size] using hcell) v⟩
    exact hholds₁.set ⟨by omega, by omega⟩ v

/-- The value on top is replaced. -/
theorem Represents.replaceTop (h : Represents ram vm) {y : BitVec 16} {rest : List (BitVec 16)}
    (hstack : vm.stack = y :: rest) (f : BitVec 16 → BitVec 16) :
    ∃ ram', (replaceTop f).run ram = .ok () ram' ∧
      Represents ram' { vm with stack := f y :: rest } := by
  have hholds := h.stack
  rw [hstack] at hholds
  have hlt := hholds.top_lt
  have hin := lt_memorySize hlt
  have hpointer : (read 0).run ram = .ok (BitVec.ofNat 16 (stackBase + rest.length + 1)) ram :=
    run_read_of_some hholds.pointer
  have htop := run_read_ofNat hin hholds.top
  have hwrite := run_write_ofNat hin h.size (f y)
  refine ⟨ram.setIfInBounds (stackBase + rest.length) (f y), ?_, ?_⟩
  · rw [Stack.replaceTop, run_bind_ok hpointer]
    simp only [ofNat_succ_sub_one]
    rw [run_bind_ok htop, hwrite]
  · exact ⟨by simp [h.size], hholds.set_top (by rwa [h.size]) (f y),
      h.segments.set (.inr (.inr ⟨by omega, hlt⟩)) _⟩

/-- The two values on top are combined. -/
theorem Represents.combineTop (h : Represents ram vm) {x y : BitVec 16} {rest : List (BitVec 16)}
    (hstack : vm.stack = y :: x :: rest) (f : BitVec 16 → BitVec 16 → BitVec 16) :
    ∃ ram', (combineTop f).run ram = .ok (f x y) ram' ∧
      Represents ram' { vm with stack := f x y :: rest } := by
  have hholds := h.stack
  rw [hstack] at hholds
  have hlt : stackBase + rest.length + 1 < heapBase := hholds.top_lt
  have hbase : stackBase = 256 := rfl
  have hheap : heapBase < memorySize := by decide
  let ram₁ := ram.setIfInBounds 0 (BitVec.ofNat 16 (stackBase + rest.length + 1))
  have hsize₁ : ram₁.size = memorySize := by simp [ram₁, h.size]
  have hholds₁ : HoldsStack ram₁ (x :: rest) := hholds.drop (by rw [h.size]; decide)
  have hpointer : ram[0]? = some (BitVec.ofNat 16 (stackBase + rest.length + 1 + 1)) :=
    hholds.pointer
  have htop : ram[stackBase + rest.length + 1]? = some y := hholds.top
  have hbelow : ram[stackBase + rest.length]? = some x :=
    (getElem?_set ram _ (by omega)).symm.trans hholds₁.top
  have hrun := run_combineTop (x := x) (y := y) hpointer
  rw [toNat_ofNat_of_lt (by omega), ofNat_succ_sub_one] at hrun
  refine ⟨ram₁.setIfInBounds (stackBase + rest.length) (f x y),
    hrun (by omega) hbelow htop f, ?_⟩
  exact ⟨by simp [hsize₁], hholds₁.set_top (by rw [hsize₁]; omega) (f x y),
    (h.segments.set (.inl rfl) _).set (.inr (.inr ⟨by omega, by omega⟩)) _⟩

theorem address_of_heapCell? {a : BitVec 16} {c : Cell} (h : heapCell? a = some c) :
    BitVec.ofNat 16 c.address = a := by
  unfold heapCell? at h
  split at h
  · rename_i hrange
    cases h
    rw [Cell.address, Nat.add_sub_cancel' hrange.1, BitVec.ofNat_toNat, BitVec.setWidth_eq]
  · cases h

/-- The address of a cell can be found. -/
theorem Represents.address (h : Represents ram vm) {s : Segment} {index : Nat} {c : Cell}
    (hcell : vm.cell? index s = some c) :
    ∃ address, s.address? index = some address ∧
      address.run ram = .ok (BitVec.ofNat 16 c.address) ram := by
  cases s with
  | constant => cases hcell
  | based base =>
    refine ⟨_, rfl, ?_⟩
    have hbase : (read base.register).run ram = .ok (vm.base base) ram := by
      refine run_read_of_some ?_
      cases base with
      | lcl => exact h.segments.lcl
      | arg => exact h.segments.arg
      | this => exact h.segments.cell .this
      | that => exact h.segments.cell .that
    rw [run_bind_ok hbase, address_of_heapCell? hcell]
    rfl
  | temp =>
    simp only [Vm.cell?] at hcell
    split at hcell
    · cases hcell
      refine ⟨_, rfl, ?_⟩
      rw [Cell.address, BitVec.ofNat_add]
      rfl
    · cases hcell
  | pointer =>
    cases hcell
    refine ⟨_, rfl, ?_⟩
    by_cases hzero : index = 0
    · simp only [hzero, if_true, Cell.address]
      rfl
    · simp only [hzero, if_false, Cell.address]
      rfl
  | static =>
    simp only [Vm.cell?] at hcell
    split at hcell
    · cases hcell
      refine ⟨_, rfl, ?_⟩
      rw [Cell.address, BitVec.ofNat_add]
      rfl
    · cases hcell

/-- The value of a cell can be found. -/
theorem Represents.value (h : Represents ram vm) {s : Segment} {index : Nat} {v : BitVec 16}
    (hvalue : vm.value? index s = some v) : (s.value index).run ram = .ok v ram := by
  by_cases hconstant : s = .constant
  · subst hconstant
    cases hvalue
    rfl
  · have hcell : (vm.cell? index s).map vm.cells = some v := by
      cases s with
      | constant => exact absurd rfl hconstant
      | _ => exact hvalue
    obtain ⟨c, hc, rfl⟩ := Option.map_eq_some_iff.mp hcell
    obtain ⟨address, haddress, hrun⟩ := h.address hc
    simp only [Segment.value, haddress]
    rw [run_bind_ok hrun]
    exact run_read_ofNat c.address_range.2.2.1 (h.segments.cell c)

/-- **An arithmetic command** does to the memory what it does to the stack. -/
theorem Represents.arithmetic (h : Represents ram vm) {op : Arithmetic}
    {stack : List (BitVec 16)} (hop : op.onStack? vm.stack = some stack) :
    ∃ n ram', op.exec.run ram = .ok n ram' ∧ Represents ram' { vm with stack } := by
  -- what is left after the access is to count the instructions
  have count {α : Type} {access : Access α} {r : α} {n : α → Nat} {stack : List (BitVec 16)}
      (hrun : ∃ ram', access.run ram = .ok r ram' ∧ Represents ram' { vm with stack }) :
      ∃ k ram', (do let a ← access; return n a).run ram = .ok k ram' ∧
        Represents ram' { vm with stack } := by
    obtain ⟨ram', haccess, hrepresents⟩ := hrun
    exact ⟨n r, ram', run_bind_ok haccess, hrepresents⟩
  cases hstack : vm.stack with
  | nil => rw [hstack] at hop; cases op <;> cases hop
  | cons y more =>
    rw [hstack] at hop
    cases op with
    | not | neg =>
      cases hop
      exact count (h.replaceTop hstack _)
    | add | sub | and | or | eq | gt | lt =>
      cases more with
      | nil => cases hop
      | cons x rest =>
        cases hop
        exact count (h.combineTop hstack _)

/-- **One step**: what the machine does, the command does on the memory. -/
theorem exec_of_step? (h : Represents ram vm) {op : Operation} (hstep : vm.step? op = some vm') :
    ∃ n ram', op.exec.run ram = .ok n ram' ∧ Represents ram' vm' := by
  cases op with
  | arithmetic op =>
    obtain ⟨stack, hop, rfl⟩ := Option.map_eq_some_iff.mp hstep
    exact h.arithmetic hop
  | push name index =>
    obtain ⟨s, hname, hs⟩ := Option.bind_eq_some_iff.mp hstep
    obtain ⟨v, hv, hpush⟩ := Option.bind_eq_some_iff.mp hs
    obtain ⟨ram', hrun, hrepresents⟩ := h.pushValue (h.value hv) hpush
    refine ⟨s.pushSize, ram', ?_, hrepresents⟩
    simp only [Operation.exec, hname]
    rw [run_bind_ok hrun]
    rfl
  | pop name index =>
    obtain ⟨s, hname, hs⟩ := Option.bind_eq_some_iff.mp hstep
    obtain ⟨c, hc, hpop⟩ := Option.bind_eq_some_iff.mp hs
    obtain ⟨address, haddress, hfound⟩ := h.address hc
    obtain ⟨ram', hrun, hrepresents⟩ := h.popValue hfound hpop
    refine ⟨s.popSize, ram', ?_, hrepresents⟩
    simp only [Operation.exec, hname, haddress]
    rw [run_bind_ok hrun]
    rfl
  | label _ | goto _ | ifGoto _ | function _ _ | call _ _ | ret =>
    cases hstep
    exact ⟨0, ram, rfl, h⟩

/-- **All steps.** -/
theorem execAll_of_run? (h : Represents ram vm) {ops : List Operation}
    (hrun : vm.run? ops = some vm') :
    ∃ n ram', (execAll ops).run ram = .ok n ram' ∧ Represents ram' vm' := by
  induction ops generalizing ram vm with
  | nil =>
    cases hrun
    exact ⟨0, ram, rfl, h⟩
  | cons op more ih =>
    rw [Vm.run?, List.foldlM_cons] at hrun
    obtain ⟨vm₁, hstep, hmore⟩ := Option.bind_eq_some_iff.mp hrun
    obtain ⟨m, ram₁, hfirst, h₁⟩ := exec_of_step? h hstep
    obtain ⟨n, ram', hrest, h'⟩ := ih h₁ hmore
    refine ⟨m + n, ram', ?_, h'⟩
    rw [execAll, run_bind_ok hfirst, run_bind_ok hrest]
    rfl

end Simulation

/-! ### Safe commands -/

section Safe

variable {vm : Vm}

/-- A command that has its operands can be carried out on the stack. -/
theorem exists_onStack? {op : Arithmetic} {stack : List (BitVec 16)}
    (h : op.operandCount ≤ stack.length) : ∃ stack', op.onStack? stack = some stack' := by
  cases stack with
  | nil => cases op <;> cases h
  | cons y more =>
    cases op with
    | not | neg => exact ⟨_, rfl⟩
    | add | sub | and | or | eq | gt | lt =>
      cases more with
      | nil => exact absurd (show 2 ≤ 1 from h) (by decide)
      | cons x rest => exact ⟨_, rfl⟩

/-- An index that a segment admits stands for a cell. -/
theorem exists_cell? {s : Segment} {index : Nat} (hadmits : s.Admits index)
    (hreach : vm.InReach index s) (hconstant : s ≠ .constant) :
    ∃ c, vm.cell? index s = some c := by
  cases s with
  | constant => exact absurd rfl hconstant
  | based base => exact ⟨_, dif_pos hreach⟩
  | temp =>
    have hle := hadmits _ rfl
    exact ⟨_, dif_pos (show index < 8 by omega)⟩
  | pointer => exact ⟨_, rfl⟩
  | static =>
    have hle := hadmits _ rfl
    exact ⟨_, dif_pos (show index < 240 by omega)⟩

theorem exists_value? {s : Segment} {index : Nat} (hadmits : s.Admits index)
    (hreach : vm.InReach index s) : ∃ v, vm.value? index s = some v := by
  by_cases hconstant : s = .constant
  · subst hconstant
    exact ⟨_, rfl⟩
  · obtain ⟨c, hc⟩ := exists_cell? hadmits hreach hconstant
    refine ⟨vm.cells c, ?_⟩
    cases s with
    | constant => exact absurd rfl hconstant
    | _ => simp only [Vm.value?, hc, Option.map_some]

/-- A command with code can be carried out when it has what it needs. -/
theorem exists_step? {labels : Nat} {op : Operation} {code : List Line} (h : Codes labels op code)
    (hready : vm.Ready op) : ∃ vm', vm.step? op = some vm' := by
  cases h with
  | arithmetic op =>
    obtain ⟨stack, hstack⟩ := exists_onStack? hready
    exact ⟨_, by rw [Vm.step?, hstack]; rfl⟩
  | @push s index hadmits =>
    obtain ⟨hroom, hreach⟩ := hready
    obtain ⟨v, hv⟩ := exists_value? hadmits (hreach s (Segment.ofText?_name s))
    refine ⟨{ vm with stack := v :: vm.stack }, ?_⟩
    rw [Vm.step?, Segment.ofText?_name, Option.bind_some, hv, Option.bind_some, Vm.push?,
      if_pos hroom]
  | @pop s index code hadmits hlines =>
    obtain ⟨hsome, hreach⟩ := hready
    obtain ⟨c, hc⟩ := exists_cell? hadmits (hreach s (Segment.ofText?_name s))
      (by rintro rfl; cases hlines)
    obtain ⟨v, rest, hstack⟩ := List.exists_cons_of_length_pos hsome
    refine ⟨{ vm with stack := rest, cells := Function.update vm.cells c v }, ?_⟩
    rw [Vm.step?, Segment.ofText?_name, Option.bind_some, hc, Option.bind_some, Vm.pop?]
    simp only [hstack]
  | @skip op hskip =>
    cases op with
    | arithmetic _ | push _ _ | pop _ _ => cases hskip
    | _ => exact ⟨vm, rfl⟩

/-- The machine can carry out safe commands to the end. -/
theorem exists_run? {labels : Nat} {ops : List Operation} {code : List Line}
    (h : Lowers labels ops code) (hsafe : vm.Safe ops) : ∃ vm', vm.run? ops = some vm' := by
  induction h generalizing vm with
  | nil labels => exact ⟨vm, rfl⟩
  | cons hcodes _ ih =>
    obtain ⟨vm₁, hstep⟩ := exists_step? hcodes hsafe.1
    obtain ⟨vm', hrun⟩ := ih (hsafe.2 vm₁ hstep)
    refine ⟨vm', ?_⟩
    rw [Vm.run?, List.foldlM_cons, hstep]
    exact hrun

end Safe

/-- **Compiled code refines the stack machine.** When a memory represents a machine on which the
commands of a source are safe, the compiled program halts without a fault, and the memory then
represents the machine after these commands: its stack, its segments and its heap. -/
theorem run_compile_represents {test : Bool} {source : Text} {n : Nat}
    (h : (compile test source).result = .ok n)
    (hindex : ∀ op ∈ operations source, op.IndexFits) (hn : n ≤ largestValue) {ram : Ram} {vm : Vm}
    (hrepresents : Represents ram vm) (hsafe : vm.Safe (operations source)) {limit : Int}
    (hlimit : (n : Int) ≤ limit) :
    ∃ program vm' ram', assemble (compile test source).text = .ok program ∧
      vm.run? (operations source) = some vm' ∧
      (run program (cellsOf ram) limit).ending = .halted ∧
      (run program (cellsOf ram) limit).machine.ram = cellsOf ram' ∧ Represents ram' vm' := by
  obtain ⟨program, hprogram, hsize⟩ := exists_program_of_compile h hindex hn
  obtain ⟨code, hlowers, -, -⟩ := lowers_of_compile h
  obtain ⟨vm', hrun⟩ := exists_run? hlowers hsafe
  obtain ⟨steps, ram', hexec, hrepresents'⟩ := execAll_of_run? hrepresents hrun
  have hsteps : (program.size : Int) ≤ limit := by rwa [hsize]
  have hrealizes := realizes_of_compile h hprogram ram hsteps
  rw [hexec] at hrealizes
  obtain ⟨hended, -, hram⟩ := hrealizes.of_ok
  exact ⟨program, vm', ram', hprogram, hrun, hended, hram, hrepresents'⟩

/-- An empty machine whose segment `local` starts at an address. -/
def Vm.blank (lcl : BitVec 16) : Vm := ⟨[], lcl, 0, fun _ => 0⟩

/-- The memory of an empty machine. -/
def blankRam (lcl : BitVec 16) : Ram :=
  ((Array.replicate memorySize 0).setIfInBounds 0 (BitVec.ofNat 16 stackBase)).setIfInBounds 1 lcl

theorem represents_blank (lcl : BitVec 16) : Represents (blankRam lcl) (Vm.blank lcl) := by
  have hsize : (blankRam lcl).size = memorySize := by simp [blankRam]
  have hzero {a : Nat} (ha : 2 ≤ a ∧ a < memorySize) : (blankRam lcl)[a]? = some 0 := by
    rw [blankRam, getElem?_set _ _ (by omega), getElem?_set _ _ (by omega),
      Array.getElem?_replicate, if_pos ha.2]
  refine ⟨hsize, ⟨Nat.zero_le _, ?_, fun i v hv => ?_⟩, ⟨?_, hzero (by decide), fun c => ?_⟩⟩
  · rw [blankRam, getElem?_set _ _ (by decide), Array.getElem?_setIfInBounds_self_of_lt (by simp; decide)]
    rfl
  · simp [Vm.blank] at hv
  · rw [blankRam, Array.getElem?_setIfInBounds_self_of_lt (by simp; decide)]
    rfl
  · exact hzero ⟨c.address_range.1.le, c.address_range.2.2.1⟩

/-- A value goes through the third cell of `local`, which starts at 3000, and is negated. -/
theorem run_compile_blank_local :
    ∃ program ram', assemble (compile false
        "push constant 7\npop local 2\npush local 2\nneg".toList).text = .ok program ∧
      (run program (cellsOf (blankRam 3000)) 33).ending = .halted ∧
      (run program (cellsOf (blankRam 3000)) 33).machine.ram = cellsOf ram' ∧
      ram'[0]? = some (257 : BitVec 16) ∧ ram'[256]? = some (-7 : BitVec 16) ∧
      ram'[3002]? = some (7 : BitVec 16) := by
  have hcompile : (compile false "push constant 7\npop local 2\npush local 2\nneg".toList).result =
      .ok 33 := rfl
  have hops : operations "push constant 7\npop local 2\npush local 2\nneg".toList =
      [.push "constant".toList 7, .pop "local".toList 2, .push "local".toList 2,
        .arithmetic .neg] := rfl
  have hindex : ∀ op ∈ operations "push constant 7\npop local 2\npush local 2\nneg".toList,
      op.IndexFits := by
    rw [hops]
    decide
  have hsafe : (Vm.blank 3000).Safe
      (operations "push constant 7\npop local 2\npush local 2\nneg".toList) := by
    rw [hops]
    decide
  obtain ⟨program, vm', ram', hprogram, hrun, hended, hram, hrepresents⟩ :=
    run_compile_represents hcompile hindex (by decide) (represents_blank 3000) hsafe (Int.le_refl 33)
  have hstack : ((Vm.blank 3000).run?
      (operations "push constant 7\npop local 2\npush local 2\nneg".toList)).map (·.stack) =
        some [-7] := by
    rw [hops]
    decide
  have hcell : ((Vm.blank 3000).run?
      (operations "push constant 7\npop local 2\npush local 2\nneg".toList)).map
        (·.cells (.heap ⟨954, by decide⟩)) = some 7 := by
    rw [hops]
    decide
  rw [hrun] at hstack hcell
  have hfinal : vm'.stack = [-7] := Option.some.inj hstack
  have hholds := hrepresents.stack
  rw [hfinal] at hholds
  exact ⟨program, ram', hprogram, hended, hram, hholds.pointer, hholds.top,
    (hrepresents.segments.cell (.heap ⟨954, by decide⟩)).trans hcell⟩

end HackStack.Stack
