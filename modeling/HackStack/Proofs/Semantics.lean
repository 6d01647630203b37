import HackStack.Proofs.Output
import HackStack.Proofs.Processor

/-!
# What commands do

The meaning of the stack commands on a memory of words, said without any code. Cell 0
holds the address of the first free cell of the stack, the cells 1 to 4 hold the bases
of four segments, cell 13 is a scratch cell, and all of them are cells like any other:
a command may well overwrite them. Addresses and values are words, and arithmetic is
modulo 2¹⁶.

A command is a sequence of accesses to the memory. An access to an address without a
cell fails with that address, and the memory stays as the accesses before left it.
The answer of a command is the number of instructions that its code takes.
-/

namespace HackStack.Stack

open Hack (Ram)

/-! ### Accesses -/

/-- Something done to a memory, which may fail with the address of a missing cell. -/
abbrev Access := EStateM (BitVec 16) Ram

namespace Access

/-- The value of the cell at an address. -/
def read (a : BitVec 16) : Access (BitVec 16) := fun ram =>
  match ram[a.toNat]? with
  | some v => .ok v ram
  | none => .error a ram

/-- Give the cell at an address a value. -/
def write (a v : BitVec 16) : Access Unit := fun ram =>
  if a.toNat < ram.size then .ok () (ram.setIfInBounds a.toNat v) else .error a ram

section Cell

variable {a v : BitVec 16} {ram : Ram}

theorem run_read_of_some (h : ram[a.toNat]? = some v) : (read a).run ram = .ok v ram := by
  simp [read, EStateM.run, h]

theorem run_read_of_lt (h : a.toNat < ram.size) :
    (read a).run ram = .ok (ram.getD a.toNat 0) ram := by
  simp [read, EStateM.run, h]

theorem run_read_of_le (h : ram.size ≤ a.toNat) : (read a).run ram = .error a ram := by
  simp [read, EStateM.run, h]

theorem run_write_of_lt (h : a.toNat < ram.size) (v : BitVec 16) :
    (write a v).run ram = .ok () (ram.setIfInBounds a.toNat v) := by
  simp [write, EStateM.run, h]

theorem run_write_of_le (h : ram.size ≤ a.toNat) (v : BitVec 16) :
    (write a v).run ram = .error a ram := by
  simp [write, EStateM.run, h]

end Cell

variable {α β : Type}

/-- Accesses are equal when they do the same to every memory. -/
theorem ext {x y : Access α} (h : ∀ ram, x.run ram = y.run ram) : x = y := funext h

section Bind

-- these hold for everything that changes a state and may fail
variable {ε σ : Type} {x : EStateM ε σ α} {f : α → EStateM ε σ β} {s s' : σ}

theorem run_bind_ok {r : α} (h : x.run s = .ok r s') : (x >>= f).run s = (f r).run s' := by
  rw [EStateM.run_bind, h]

theorem run_bind_error {e : ε} (h : x.run s = .error e s') : (x >>= f).run s = .error e s' := by
  rw [EStateM.run_bind, h]

end Bind

/-- An access that succeeds leaves a cell with the value it has. -/
def Keeps (a v : BitVec 16) (x : Access α) : Prop :=
  ∀ ram ram' r, ram[a.toNat]? = some v → x.run ram = .ok r ram' → ram'[a.toNat]? = some v

variable {a b v w : BitVec 16}

theorem keeps_read : Keeps a v (read b) := by
  intro ram ram' r hcell h
  by_cases hlt : b.toNat < ram.size
  · rw [run_read_of_lt hlt] at h
    cases h
    exact hcell
  · rw [run_read_of_le (Nat.le_of_not_lt hlt)] at h
    cases h

theorem keeps_write (hne : b ≠ a) : Keeps a v (write b w) := by
  intro ram ram' r hcell h
  by_cases hlt : b.toNat < ram.size
  · rw [run_write_of_lt hlt] at h
    cases h
    rwa [Array.getElem?_setIfInBounds_ne (fun heq => hne (BitVec.eq_of_toNat_eq heq))]
  · rw [run_write_of_le (Nat.le_of_not_lt hlt)] at h
    cases h

theorem Keeps.bind {x : Access α} {f : α → Access β} (hx : Keeps a v x)
    (hf : ∀ r, Keeps a v (f r)) : Keeps a v (x >>= f) := by
  intro ram ram₂ r₂ hcell h
  cases hrun : x.run ram with
  | ok r₁ ram₁ =>
    rw [run_bind_ok hrun] at h
    exact hf r₁ ram₁ ram₂ r₂ (hx ram ram₁ r₁ hcell hrun) h
  | error e ram₁ =>
    rw [run_bind_error hrun] at h
    cases h

/-- A value that was written is read, as long as it is kept. -/
theorem write_bind_read {x : Access α} (hx : Keeps a v x) (f : α → BitVec 16 → Access β) :
    (do write a v; let r ← x; let u ← read a; f r u) = (do write a v; let r ← x; f r v) := by
  refine Access.ext fun ram => ?_
  by_cases hlt : a.toNat < ram.size
  · have hwrite := run_write_of_lt hlt v
    rw [run_bind_ok hwrite, run_bind_ok hwrite]
    cases hrun : x.run (ram.setIfInBounds a.toNat v) with
    | ok r ram₁ =>
      have hcell := hx _ _ r (Array.getElem?_setIfInBounds_self_of_lt hlt) hrun
      rw [run_bind_ok hrun, run_bind_ok hrun, run_bind_ok (run_read_of_some hcell)]
    | error e ram₁ => rw [run_bind_error hrun, run_bind_error hrun]
  · have hwrite := run_write_of_le (Nat.le_of_not_lt hlt) v
    rw [run_bind_error hwrite, run_bind_error hwrite]

theorem write_bind_read_self (a v : BitVec 16) (f : BitVec 16 → Access β) :
    (do write a v; let u ← read a; f u) = (do write a v; f v) := by
  have hkeeps : Keeps a v (pure () : Access Unit) := by
    intro ram ram' r hcell h
    cases h
    exact hcell
  simpa using write_bind_read hkeeps fun _ u => f u

end Access

/-! ### The commands -/

open Access

/-- The cell that holds the base of a segment. -/
def Base.register : Base → BitVec 16
  | .lcl => 1
  | .arg => 2
  | .this => 3
  | .that => 4

/-- The address of a cell of a segment. Constants have none. -/
def Segment.address? (index : Nat) : Segment → Option (Access (BitVec 16))
  | .constant => none
  | .based base => some do return (← read base.register) + BitVec.ofNat 16 index
  | .temp => some (pure (5 + BitVec.ofNat 16 index))
  | .pointer => some (pure (if index = 0 then 3 else 4))
  | .static => some (pure (16 + BitVec.ofNat 16 index))

/-- The value of a cell of a segment. -/
def Segment.value (index : Nat) (s : Segment) : Access (BitVec 16) :=
  match s.address? index with
  | some address => address >>= read
  | none => pure (BitVec.ofNat 16 index)

/-- Put a value onto the stack. -/
def pushValue (value : Access (BitVec 16)) : Access Unit := do
  let v ← value
  write (← read 0) v
  write 0 ((← read 0) + 1)

/-- Take a value off the stack and store it at an address, which is found first and noted in the
scratch cell. -/
def popValue (address : Access (BitVec 16)) : Access Unit := do
  let t ← address
  write 13 t
  write 0 ((← read 0) - 1)
  let v ← read (← read 0)
  write t v

/-- The address is the same when it is read from the scratch cell. -/
theorem popValue_eq (address : Access (BitVec 16)) :
    popValue address = (do
      let t ← address
      write 13 t
      let p ← read 0
      write 0 (p - 1)
      let v ← read (p - 1)
      let u ← read 13
      write u v) := by
  unfold popValue
  refine bind_congr fun t => ?_
  have hkeeps : Keeps 13 t (do
      let p ← read 0
      write 0 (p - 1)
      read (p - 1)) :=
    keeps_read.bind fun p => (keeps_write (by decide)).bind fun _ => keeps_read
  have hscratch := write_bind_read hkeeps fun v u => write u v
  simp only [bind_assoc] at hscratch
  rw [hscratch]
  refine bind_congr fun _ => bind_congr fun p => ?_
  exact write_bind_read_self 0 (p - 1) fun u => do
    let v ← read u
    write t v

section Moves

variable {ram : Ram} {p v : BitVec 16}

/-- A value goes to the first free cell. -/
theorem run_pushValue {value : Access (BitVec 16)} (hvalue : value.run ram = .ok v ram)
    (hp : ram[0]? = some p) (hlow : 0 < p.toNat) (hlt : p.toNat < ram.size) :
    (pushValue value).run ram =
      .ok () ((ram.setIfInBounds p.toNat v).setIfInBounds 0 (p + 1)) := by
  have hpointer : (read 0).run ram = .ok p ram := run_read_of_some hp
  have hwrite := run_write_of_lt hlt v
  have hagain : (read 0).run (ram.setIfInBounds p.toNat v) =
      .ok p (ram.setIfInBounds p.toNat v) := by
    refine run_read_of_some ?_
    show (ram.setIfInBounds p.toNat v)[0]? = some p
    rw [Array.getElem?_setIfInBounds_ne (by omega), hp]
  have hraise : (write 0 (p + 1)).run (ram.setIfInBounds p.toNat v) =
      .ok () ((ram.setIfInBounds p.toNat v).setIfInBounds 0 (p + 1)) := by
    refine run_write_of_lt ?_ _
    rw [Array.size_setIfInBounds]
    exact hlow.trans hlt
  rw [pushValue, run_bind_ok hvalue, run_bind_ok hpointer, run_bind_ok hwrite,
    run_bind_ok hagain, hraise]

/-- The value on top of the stack goes to its address, and the address to the scratch cell. -/
theorem run_popValue {address : Access (BitVec 16)} {t : BitVec 16}
    (haddress : address.run ram = .ok t ram) (hp : ram[0]? = some p) (hlow : 14 < p.toNat)
    (hv : ram[p.toNat - 1]? = some v) (ht : t.toNat < ram.size) :
    (popValue address).run ram =
      .ok () (((ram.setIfInBounds 13 t).setIfInBounds 0 (p - 1)).setIfInBounds t.toNat v) := by
  have hone : (p - 1).toNat = p.toNat - 1 := by bv_omega
  have hsize : p.toNat - 1 < ram.size := (Array.getElem?_eq_some_iff.mp hv).1
  have hnote : (write 13 t).run ram = .ok () (ram.setIfInBounds 13 t) :=
    run_write_of_lt (by simp; omega) t
  have hpointer : (read 0).run (ram.setIfInBounds 13 t) = .ok p (ram.setIfInBounds 13 t) := by
    refine run_read_of_some ?_
    show (ram.setIfInBounds 13 t)[0]? = some p
    rw [Array.getElem?_setIfInBounds_ne (by decide), hp]
  have hlower : (write 0 (p - 1)).run (ram.setIfInBounds 13 t) =
      .ok () ((ram.setIfInBounds 13 t).setIfInBounds 0 (p - 1)) :=
    run_write_of_lt (by simp; omega) _
  have htop : (read (p - 1)).run ((ram.setIfInBounds 13 t).setIfInBounds 0 (p - 1)) =
      .ok v ((ram.setIfInBounds 13 t).setIfInBounds 0 (p - 1)) := by
    refine run_read_of_some ?_
    rw [hone, Array.getElem?_setIfInBounds_ne (by omega),
      Array.getElem?_setIfInBounds_ne (by omega), hv]
  have hstore : (write t v).run ((ram.setIfInBounds 13 t).setIfInBounds 0 (p - 1)) =
      .ok () (((ram.setIfInBounds 13 t).setIfInBounds 0 (p - 1)).setIfInBounds t.toNat v) :=
    run_write_of_lt (by simpa using ht) v
  rw [popValue, run_bind_ok haddress, run_bind_ok hnote, run_bind_ok hpointer,
    write_bind_read_self, run_bind_ok hlower, run_bind_ok htop, hstore]

end Moves

/-- Replace the value on top of the stack. -/
def replaceTop (f : BitVec 16 → BitVec 16) : Access Unit := do
  let top := (← read 0) - 1
  let x ← read top
  write top (f x)

/-- Take the value `y` off the stack and combine the value `x` below with it. The answer is the
value that is then on top. -/
def combineTop (f : BitVec 16 → BitVec 16 → BitVec 16) : Access (BitVec 16) := do
  write 0 ((← read 0) - 1)
  let y ← read (← read 0)
  let top := (← read 0) - 1
  let x ← read top
  write top (f x y)
  return f x y

/-- The pointer to the stack need not be read again. -/
theorem combineTop_eq (f : BitVec 16 → BitVec 16 → BitVec 16) :
    combineTop f = do
      let p ← read 0
      write 0 (p - 1)
      let y ← read (p - 1)
      let x ← read (p - 1 - 1)
      write (p - 1 - 1) (f x y)
      return f x y := by
  unfold combineTop
  refine bind_congr fun p => ?_
  rw [write_bind_read_self]
  exact write_bind_read keeps_read fun y u => do
    let x ← read (u - 1)
    write (u - 1) (f x y)
    return f x y

/-- The two values on top of the stack are combined in place of the lower one. -/
theorem run_combineTop {ram : Ram} {p x y : BitVec 16} (hp : ram[0]? = some p)
    (hlow : 3 ≤ p.toNat) (hx : ram[p.toNat - 2]? = some x)
    (hy : ram[p.toNat - 1]? = some y) (f : BitVec 16 → BitVec 16 → BitVec 16) :
    (combineTop f).run ram =
      .ok (f x y) ((ram.setIfInBounds 0 (p - 1)).setIfInBounds (p.toNat - 2) (f x y)) := by
  have hone : (p - 1).toNat = p.toNat - 1 := by bv_omega
  have htwo : (p - 1 - 1).toNat = p.toNat - 2 := by bv_omega
  have hpointer : (read 0).run ram = .ok p ram := run_read_of_some hp
  have hzero : (0 : BitVec 16).toNat < ram.size := (Array.getElem?_eq_some_iff.mp hp).1
  have hlower : (write 0 (p - 1)).run ram = .ok () (ram.setIfInBounds 0 (p - 1)) :=
    run_write_of_lt hzero _
  have hupper : (read (p - 1)).run (ram.setIfInBounds 0 (p - 1)) =
      .ok y (ram.setIfInBounds 0 (p - 1)) := by
    refine run_read_of_some ?_
    rw [hone, Array.getElem?_setIfInBounds_ne (by omega), hy]
  have hbelow : (read (p - 1 - 1)).run (ram.setIfInBounds 0 (p - 1)) =
      .ok x (ram.setIfInBounds 0 (p - 1)) := by
    refine run_read_of_some ?_
    rw [htwo, Array.getElem?_setIfInBounds_ne (by omega), hx]
  have hwrite : (write (p - 1 - 1) (f x y)).run (ram.setIfInBounds 0 (p - 1)) =
      .ok () ((ram.setIfInBounds 0 (p - 1)).setIfInBounds (p.toNat - 2) (f x y)) := by
    rw [run_write_of_lt, htwo]
    rw [htwo, Array.size_setIfInBounds]
    exact (Array.getElem?_eq_some_iff.mp hx).1
  rw [combineTop_eq, run_bind_ok hpointer, run_bind_ok hlower, run_bind_ok hupper,
    run_bind_ok hbelow, run_bind_ok hwrite]
  rfl

/-- The word for a truth value: all ones, or zero. -/
def truth (b : Bool) : BitVec 16 := if b then -1 else 0

/-- Whether a comparison succeeds when `x - y` is the given word, which counts as signed. -/
def Arithmetic.succeeds (difference : BitVec 16) : Arithmetic → Bool
  | .eq => difference == 0
  | .gt => 0 < difference.toInt
  | .lt => difference.toInt < 0
  | _ => false

/-- Carry out a comparison, which takes two instructions more when it succeeds. -/
def Arithmetic.compare (op : Arithmetic) : Access Nat := do
  let result ← combineTop fun x y => truth (op.succeeds (x - y))
  return if result = truth true then 12 else 10

/-- Carry out an arithmetic command. -/
def Arithmetic.exec : Arithmetic → Access Nat
  | .add => do let _ ← combineTop (· + ·); return size .add
  | .sub => do let _ ← combineTop (· - ·); return size .sub
  | .and => do let _ ← combineTop (· &&& ·); return size .and
  | .or => do let _ ← combineTop (· ||| ·); return size .or
  | .not => do replaceTop (~~~ ·); return size .not
  | .neg => do replaceTop (- ·); return size .neg
  | .eq => compare .eq
  | .gt => compare .gt
  | .lt => compare .lt

/-- Carry out a command. A command without code does nothing, and so does a move that no code is
made for. -/
def Operation.exec : Operation → Access Nat
  | .arithmetic op => op.exec
  | .push name index =>
    match Segment.ofText? name with
    | some s => do pushValue (s.value index); return s.pushSize
    | none => return 0
  | .pop name index =>
    match Segment.ofText? name with
    | some s =>
      match s.address? index with
      | some address => do popValue address; return s.popSize
      | none => return 0
    | none => return 0
  | _ => return 0

/-- Carry out commands one after the other. The answer is the number of instructions in all. -/
def execAll : List Operation → Access Nat
  | [] => return 0
  | op :: more => do
    let first ← op.exec
    let rest ← execAll more
    return first + rest

theorem execAll_append (ops more : List Operation) :
    execAll (ops ++ more) = do
      let first ← execAll ops
      let rest ← execAll more
      return first + rest := by
  induction ops with
  | nil => simp only [List.nil_append, execAll, pure_bind, Nat.zero_add, bind_pure]
  | cons op ops ih =>
    simp only [List.cons_append, execAll, ih, bind_assoc, pure_bind, Nat.add_assoc]

end HackStack.Stack
