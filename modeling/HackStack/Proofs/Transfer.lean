import HackStack.Proofs.StackMachine

/-!
# Moving a value

A push and the pop behind it move a value from one segment to another. What they leave is
the memory with three cells assigned: the free cell on top of the stack, the scratch cell and
the target, in this order (`Movable.run_execAll`). Both the value and the address are those of
the memory before, although the address is found only after the push: the push writes on the
stack and into its pointer, and no base of a segment is kept there.

That is so for the indexes that commands have, which are natural numbers. A negative index is
not refused, but in the code it is no numeral, and it is loaded as the address of a variable
(`run_push_pop_of_negative`).

Nothing else is asked of the target. It may be the source, a base, the scratch cell, the free
cell of the stack or the pointer itself, which is the one case in which the stack is not as
high after as it was before.
-/

namespace HackStack.Stack

open Hack
open Stack.Access

/-! ### Cells of segments -/

/-- The address of a cell of a segment in a memory. -/
def Segment.addressIn (ram : Ram) (index : Int) : Segment → Option (BitVec 16)
  | .constant => none
  | .based base => some (ram.getD base.register.toNat 0 + BitVec.ofInt 16 index)
  | .temp => some (5 + BitVec.ofInt 16 index)
  | .pointer => some (if index = 0 then 3 else 4)
  | .static => some (16 + BitVec.ofInt 16 index)

/-- The value of a cell of a segment in a memory. A constant is its own index. -/
def Segment.valueIn (ram : Ram) (index : Int) (s : Segment) : BitVec 16 :=
  match s.addressIn ram index with
  | some a => ram.getD a.toNat 0
  | none => BitVec.ofInt 16 index

theorem Base.register_range (base : Base) :
    1 ≤ base.register.toNat ∧ base.register.toNat ≤ 4 := by
  cases base <;> decide

section Segment

variable {s : Segment} {ram : Ram} {a : BitVec 16}

theorem run_address {index : Nat} (hsize : 4 < ram.size) (h : s.addressIn ram index = some a) :
    ∃ address, s.address? index = some address ∧ address.run ram = .ok a ram := by
  cases s with
  | constant => cases h
  | based base =>
    obtain rfl := Option.some.inj h
    have hbase := run_read_of_lt (Nat.lt_of_le_of_lt base.register_range.2 hsize)
    refine ⟨_, rfl, ?_⟩
    rw [run_bind_ok hbase, BitVec.ofInt_natCast]
    rfl
  | temp | static =>
    obtain rfl := Option.some.inj h
    refine ⟨_, rfl, ?_⟩
    rw [BitVec.ofInt_natCast]
    rfl
  | pointer =>
    obtain rfl := Option.some.inj h
    refine ⟨_, rfl, ?_⟩
    simp only [Int.natCast_eq_zero]
    rfl

theorem run_value {index : Nat} (hsize : 4 < ram.size)
    (h : ∀ a, s.addressIn ram index = some a → a.toNat < ram.size) :
    (s.value index).run ram = .ok (s.valueIn ram index) ram := by
  cases ha : s.addressIn ram index with
  | none =>
    cases s with
    | constant =>
      rw [Segment.valueIn, ha]
      simp only
      rw [BitVec.ofInt_natCast]
      rfl
    | based | temp | pointer | static => cases ha
  | some a =>
    obtain ⟨address, haddress, hrun⟩ := run_address hsize ha
    rw [Segment.value, haddress, Segment.valueIn, ha]
    simp only
    rw [run_bind_ok hrun, run_read_of_lt (h a ha)]

/-- An address depends on the bases only. -/
theorem addressIn_congr {index : Int} {ram' : Ram} (h : ∀ k, 1 ≤ k → k ≤ 4 → ram'[k]? = ram[k]?) :
    s.addressIn ram' index = s.addressIn ram index := by
  cases s with
  | based base =>
    obtain ⟨hlow, hhigh⟩ := base.register_range
    simp only [Segment.addressIn, Array.getD_eq_getD_getElem?, h _ hlow hhigh]
  | constant | temp | pointer | static => rfl

end Segment

/-! ### The assignment -/

/-- A memory in which a value can be moved: it has all its cells, the stack has a free cell at
`p`, the source is in the memory, and the target is at `t`. -/
structure Movable (ram : Ram) (source : Segment) (i : Int) (target : Segment) (j : Int)
    (p t : BitVec 16) : Prop where
  size : ram.size = memorySize
  pointer : ram[0]? = some p
  low : stackBase ≤ p.toNat
  high : p.toNat < memorySize
  source : ∀ a, source.addressIn ram i = some a → a.toNat < memorySize
  target : target.addressIn ram j = some t
  target_lt : t.toNat < memorySize

/-- The memory with the value on the stack, the address in the scratch cell, and the value at its
address. -/
def assigned (ram : Ram) (p t v : BitVec 16) : Ram :=
  ((ram.setIfInBounds p.toNat v).setIfInBounds 13 t).setIfInBounds t.toNat v

theorem setIfInBounds_eq_self {ram : Ram} {a : Nat} {v : BitVec 16} (h : ram[a]? = some v) :
    ram.setIfInBounds a v = ram := by
  apply Array.ext_getElem?
  intro b
  by_cases hb : b = a
  · subst hb
    rw [Array.getElem?_setIfInBounds_self_of_lt (Array.getElem?_eq_some_iff.mp h).1, h]
  · exact getElem?_set ram v hb

section Assigned

variable {ram : Ram} {X Y : Segment} {i j : Nat} {p t v : BitVec 16}

/-- The pointer goes up and down again around the note in the scratch cell. -/
theorem set_pointer_twice (h : ram[0]? = some p) :
    ((ram.setIfInBounds 0 (p + 1)).setIfInBounds 13 t).setIfInBounds 0 p =
      ram.setIfInBounds 13 t := by
  rw [Array.setIfInBounds_comm _ _ (by decide), Array.setIfInBounds_setIfInBounds,
    setIfInBounds_eq_self h]

theorem Movable.run_execAll (h : Movable ram X i Y j p t) :
    ∃ n, (execAll [.push X.name i, .pop Y.name j]).run ram =
      .ok n (assigned ram p t (X.valueIn ram i)) := by
  obtain ⟨hsize, hpointer, hlow, hhigh, hsource, htarget, htarget_lt⟩ := h
  have hbase : stackBase = 256 := rfl
  have hall : memorySize = 32768 := rfl
  have hone : (p + 1).toNat = p.toNat + 1 := by bv_omega
  let ram₁ := ram.setIfInBounds p.toNat (X.valueIn ram i)
  let ram₂ := ram₁.setIfInBounds 0 (p + 1)
  have hsize₂ : ram₂.size = memorySize := by simp [ram₂, ram₁, hsize]
  have hpush := run_pushValue (run_value (by omega) (hsize ▸ hsource)) hpointer (by omega)
    (by omega)
  -- the push changes no base, so the address is that of the memory before
  have hbases : ∀ k, 1 ≤ k → k ≤ 4 → ram₂[k]? = ram[k]? := by
    intro k hone hfour
    rw [getElem?_set ram₁ _ (by omega), getElem?_set ram _ (by omega)]
  have htarget₂ : Y.addressIn ram₂ j = some t := (addressIn_congr hbases).trans htarget
  obtain ⟨address, haddress, hrun⟩ := run_address (by omega) htarget₂
  have hpointer₁ : ram₁[0]? = some p := by rw [getElem?_set ram _ (by omega), hpointer]
  have hpointer₂ : ram₂[0]? = some (p + 1) :=
    Array.getElem?_setIfInBounds_self_of_lt (by simp [ram₁]; omega)
  have htop : ram₂[(p + 1).toNat - 1]? = some (X.valueIn ram i) := by
    rw [hone, Nat.add_sub_cancel, getElem?_set ram₁ _ (by omega)]
    exact Array.getElem?_setIfInBounds_self_of_lt (by omega)
  have hpop := run_popValue hrun hpointer₂ (by omega) htop (by omega)
  rw [BitVec.add_sub_cancel, set_pointer_twice hpointer₁] at hpop
  refine ⟨X.pushSize + Y.popSize, ?_⟩
  simp only [execAll, Operation.exec, Segment.ofText?_name, haddress, bind_assoc, pure_bind]
  rw [run_bind_ok hpush, run_bind_ok hpop]
  rfl

/-- The pointer is as before unless it is the target itself. -/
theorem getElem?_assigned_zero (hp : ram[0]? = some p) (hlow : stackBase ≤ p.toNat) (ht : t ≠ 0) :
    (assigned ram p t v)[0]? = some p := by
  have hbase : stackBase = 256 := rfl
  have ht : t.toNat ≠ 0 := fun heq => ht (BitVec.eq_of_toNat_eq heq)
  rw [assigned, getElem?_set _ _ ht.symm, getElem?_set _ _ (by decide), getElem?_set _ _ (by omega),
    hp]

/-- A cell that is assigned its own value keeps it. -/
theorem getElem?_assigned_self (ht : t.toNat < ram.size) {a : Nat} (hscratch : a ≠ 13)
    (htop : a ≠ p.toNat) : (assigned ram p t (ram.getD t.toNat 0))[a]? = ram[a]? := by
  by_cases ha : a = t.toNat
  · subst ha
    rw [assigned, Array.getElem?_setIfInBounds_self_of_lt (by simpa using ht)]
    simp [ht]
  · rw [assigned, getElem?_set _ _ ha, getElem?_set _ _ hscratch, getElem?_set _ _ htop]

end Assigned

/-! ### The program -/

theorem Segment.pushSize_le (s : Segment) : s.pushSize ≤ 10 := by
  cases s <;> simp [pushSize]

theorem Segment.popSize_le (s : Segment) : s.popSize ≤ 12 := by
  cases s <;> simp [popSize]

theorem Segment.indexFits_of_le (s : Segment) {index : Nat} (h : index ≤ largestValue) :
    s.IndexFits index := by
  cases s with
  | based base => exact h
  | constant | temp | pointer | static => trivial

section Program

variable {X Y : Segment} {i j : Nat} {code code' : List Line} (hpush : pushCode X.name i = .ok code)
  (hpop : popCode Y.name j = .ok code') (hi : i ≤ largestValue) (hj : j ≤ largestValue)

include hpush hpop hi hj

/-- **The code of a push and a pop is a program** of at most twenty-two instructions that carries
them out on every memory. -/
theorem exists_program_push_pop :
    ∃ program, assemble (['\n'].intercalate ((code ++ code').map Line.render)) = .ok program ∧
      ∀ (ram : Ram) (limit : Int), 22 ≤ limit → (run program (cellsOf ram) limit).Realizes
        ((execAll [.push X.name i, .pop Y.name j]).run ram) := by
  have hcodes : Codes 0 (.push X.name i) code := lower_eq_ok_iff.mp hpush
  have hcodes' : Codes 0 (.pop Y.name j) code' := lower_eq_ok_iff.mp hpop
  have hlowers : Lowers 0 [.push X.name i, .pop Y.name j] (code ++ code') := by
    rw [← List.append_nil code']
    exact .cons hcodes (.cons hcodes' (.nil _))
  have hsize : codeSize [.push X.name i, .pop Y.name j] ≤ 22 := by
    simp only [codeSize, Operation.size, Segment.ofText?_name, Option.map_some, Option.getD_some]
    have := X.pushSize_le
    have := Y.popSize_le
    omega
  have hfits : FitAt 0 [.push X.name i, .pop Y.name j] := by
    refine fitAt_of_le ?_ (by rw [Nat.zero_add]; exact hsize.trans (by decide))
    simp only [List.forall_mem_cons, Operation.IndexFits, Segment.ofText?_name, Option.mem_def,
      Option.some.injEq, forall_eq', List.not_mem_nil, false_imp_iff, implies_true, and_true]
    exact ⟨X.indexFits_of_le hi, Y.indexFits_of_le hj⟩
  obtain ⟨program, hprogram⟩ := (exists_assemble_lowers_iff hlowers).mpr hfits
  refine ⟨program, (assemble_intercalate (readable_of_lowers hlowers).clear).trans hprogram,
    fun ram limit hlimit => realizes_of_lowers hlowers hprogram ram ?_⟩
  rw [size_of_assemble_lowers hlowers hprogram]
  omega

/-- **Running it** leaves the memory with the value assigned. -/
theorem Movable.run_program {ram : Ram} {p t : BitVec 16} (h : Movable ram X i Y j p t)
    {limit : Int} (hlimit : 22 ≤ limit) :
    ∃ program, assemble (['\n'].intercalate ((code ++ code').map Line.render)) = .ok program ∧
      (run program (cellsOf ram) limit).ending = .halted ∧
      (run program (cellsOf ram) limit).machine.ram =
        cellsOf (assigned ram p t (X.valueIn ram i)) := by
  obtain ⟨program, hprogram, hrealizes⟩ := exists_program_push_pop hpush hpop hi hj
  obtain ⟨n, hrun⟩ := h.run_execAll
  obtain ⟨hending, -, hram⟩ := (hrun ▸ hrealizes ram limit hlimit).of_ok
  exact ⟨program, hprogram, hending, hram⟩

end Program

/-- **A push and a pop are an assignment**, for indexes that are natural numbers. Where both have
code, the code of the one followed by that of the other is a program. It halts, and it leaves the
memory as it was but for the value of the source in the free cell of the stack, the address of the
target in the scratch cell, and then the value at that address. So the pointer is as before unless
it is the target, and if the source is the target, nothing changes outside of the scratch cell and
the free cell. -/
theorem run_push_pop {X Y : Segment} {i j : Int} {code code' : List Line}
    (hpush : pushLines X.name i = .ok code) (hpop : popLines Y.name j = .ok code')
    (hi : 0 ≤ i ∧ i ≤ 32767) (hj : 0 ≤ j ∧ j ≤ 32767) {ram : Ram} {p t : BitVec 16}
    (h : Movable ram X i Y j p t) {limit : Int} (hlimit : 22 ≤ limit) :
    ∃ program, assemble (['\n'].intercalate ((code ++ code').map Line.render)) = .ok program ∧
      (run program (cellsOf ram) limit).ending = .halted ∧
      (run program (cellsOf ram) limit).machine.ram =
        (((cellsOf ram).setIfInBounds p.toNat (X.valueIn ram i).toNat).setIfInBounds 13
          t.toNat).setIfInBounds t.toNat (X.valueIn ram i).toNat ∧
      (t ≠ 0 → (run program (cellsOf ram) limit).machine.ram[0]? = some (p.toNat : Int)) ∧
      (X.addressIn ram i = some t → ∀ a, a ≠ 13 → a ≠ p.toNat →
        (run program (cellsOf ram) limit).machine.ram[a]? = (cellsOf ram)[a]?) := by
  obtain ⟨m, rfl⟩ := Int.eq_ofNat_of_zero_le hi.1
  obtain ⟨n, rfl⟩ := Int.eq_ofNat_of_zero_le hj.1
  obtain ⟨program, hprogram, hending, hram⟩ := h.run_program (eq_ok_of_writeOut hpush)
    (eq_ok_of_writeOut hpop) (Int.ofNat_le.mp hi.2) (Int.ofNat_le.mp hj.2) hlimit
  refine ⟨program, hprogram, hending, ?_, ?_, ?_⟩
  · rw [hram, assigned, cellsOf_setIfInBounds, cellsOf_setIfInBounds, cellsOf_setIfInBounds]
  · intro ht
    have hzero := getElem?_assigned_zero (v := X.valueIn ram m) h.pointer h.low ht
    rw [hram, cellsOf, Array.getElem?_map, hzero]
    rfl
  · intro hsame a hscratch htop
    have hvalue : X.valueIn ram m = ram.getD t.toNat 0 := by
      rw [Segment.valueIn, hsame]
    have ht : t.toNat < ram.size := by
      rw [h.size]
      exact h.target_lt
    rw [hram, hvalue, cellsOf, cellsOf, Array.getElem?_map, Array.getElem?_map,
      getElem?_assigned_self ht hscratch htop]

theorem movable_blank_pointer : Movable (blankRam 0) .constant 300 (.based .lcl) 0 256 0 := by
  have hbase : (blankRam 0).getD 1 0 = 0 := by simp [blankRam, memorySize]
  refine ⟨by simp [blankRam], by simp [blankRam, memorySize, stackBase], by decide, by decide,
    ?_, ?_, by decide⟩
  · intro a ha
    cases ha
  · show some ((blankRam 0).getD 1 0 + 0) = some 0
    rw [hbase]
    rfl

/-- Where `local` starts at the pointer of the stack, the value becomes the pointer. -/
theorem run_push_pop_pointer :
    ∃ code code' program, pushLines "constant".toList 300 = .ok code ∧
      popLines "local".toList 0 = .ok code' ∧
      assemble (['\n'].intercalate ((code ++ code').map Line.render)) = .ok program ∧
      (run program (cellsOf (blankRam 0)) 22).machine.ram =
        (((cellsOf (blankRam 0)).setIfInBounds 256 300).setIfInBounds 13 0).setIfInBounds 0
          300 := by
  have hpush : pushLines Segment.constant.name 300 = .ok _ := rfl
  have hpop : popLines (Segment.based .lcl).name 0 = .ok _ := rfl
  obtain ⟨program, hprogram, -, hram, -⟩ :=
    run_push_pop hpush hpop (by decide) (by decide) movable_blank_pointer (Int.le_refl 22)
  exact ⟨_, _, program, hpush, hpop, hprogram, hram⟩

/-! ### Negative indexes -/

/-- The code that moves a cell of `local` to the first cell of `temp`. -/
def localToTemp (index : Int) : List Line :=
  ((Segment.based .lcl).valueLines index ++ pushD) ++
    (assembly ["@R5", "D=A"] ++ [.number 0] ++ assembly ["D=D+A"] ++ popToD)

theorem pushLines_local_negative :
    pushLines (Segment.based .lcl).name (-1) =
      .ok ((Segment.based .lcl).valueLines (-1) ++ pushD) :=
  rfl

theorem popLines_temp_zero :
    popLines Segment.temp.name 0 =
      .ok (assembly ["@R5", "D=A"] ++ [.number 0] ++ assembly ["D=D+A"] ++ popToD) :=
  rfl

/-- The text of a negative number is the name of a variable, and the first variable is at
address 16. So the code for the cell before the first one of `local` is the program for the
cell at index 16. -/
theorem assemble_localToTemp_negative :
    assemble (['\n'].intercalate ((localToTemp (-1)).map Line.render)) =
      assemble (['\n'].intercalate ((localToTemp 16).map Line.render)) := by
  have hclear : ∀ l ∈ localToTemp (-1), l.IsClear := by decide +kernel
  have hclear' : ∀ l ∈ localToTemp 16, l.IsClear := by decide +kernel
  have hsame : (instructionLines (numberFrom 1 (localToTemp (-1)))).mapM
        (tableOf (localToTemp (-1))).instruction =
      (instructionLines (numberFrom 1 (localToTemp 16))).mapM
        (tableOf (localToTemp 16)).instruction := by
    decide +kernel
  rw [assemble_intercalate hclear, assemble_intercalate hclear', assemble_ofLines hclear,
    assemble_ofLines hclear', hsame]

/-- A memory in which `local` starts at 300 and the cell before it holds 7. -/
def ramBeforeLocal : Ram := (blankRam 300).setIfInBounds 299 7

theorem addressIn_ramBeforeLocal (index : Int) :
    (Segment.based .lcl).addressIn ramBeforeLocal index = some (300 + BitVec.ofInt 16 index) := by
  have hbase : ramBeforeLocal.getD 1 0 = 300 := by
    simp [ramBeforeLocal, blankRam, memorySize]
  exact congrArg (fun base => some (base + BitVec.ofInt 16 index)) hbase

theorem movable_ramBeforeLocal {index : Int}
    (h : (300 + BitVec.ofInt 16 index).toNat < memorySize) :
    Movable ramBeforeLocal (.based .lcl) index .temp 0 256 5 where
  size := by simp [ramBeforeLocal, blankRam]
  pointer := by simp [ramBeforeLocal, blankRam, memorySize, stackBase]
  low := by decide
  high := by decide
  source := by
    intro a ha
    rw [addressIn_ramBeforeLocal] at ha
    exact Option.some.inj ha ▸ h
  target := rfl
  target_lt := by decide

/-- **Below zero the assignment fails.** The cell before the first one of `local` holds 7. Both
moves have code and the run of it halts, but what arrives is the 0 of the cell at index 16. -/
theorem run_push_pop_of_negative :
    ∃ code code' program, pushLines "local".toList (-1) = .ok code ∧
      popLines "temp".toList 0 = .ok code' ∧
      Movable ramBeforeLocal (.based .lcl) (-1) .temp 0 256 5 ∧
      (Segment.based .lcl).valueIn ramBeforeLocal (-1) = 7 ∧
      assemble (['\n'].intercalate ((code ++ code').map Line.render)) = .ok program ∧
      (run program (cellsOf ramBeforeLocal) 22).ending = .halted ∧
      (run program (cellsOf ramBeforeLocal) 22).machine.ram[5]? = some 0 := by
  have hvalue : (Segment.based .lcl).valueIn ramBeforeLocal (-1) = 7 := by
    rw [Segment.valueIn, addressIn_ramBeforeLocal]
    simp [ramBeforeLocal, blankRam, memorySize]
  have hother : (Segment.based .lcl).valueIn ramBeforeLocal (16 : Nat) = 0 := by
    rw [Segment.valueIn, addressIn_ramBeforeLocal]
    simp [ramBeforeLocal, blankRam, memorySize]
  have hpush : pushCode (Segment.based .lcl).name 16 = .ok _ := rfl
  have hpop : popCode Segment.temp.name 0 = .ok _ := rfl
  obtain ⟨program, hprogram, hending, hram⟩ := (movable_ramBeforeLocal (by decide)).run_program
    hpush hpop (by decide) (by decide) (Int.le_refl 22)
  refine ⟨_, _, program, pushLines_local_negative, popLines_temp_zero,
    movable_ramBeforeLocal (by decide), hvalue, assemble_localToTemp_negative.trans hprogram,
    hending, ?_⟩
  have hcell : (assigned ramBeforeLocal 256 5 0)[5]? = some 0 :=
    Array.getElem?_setIfInBounds_self_of_lt (by simp [ramBeforeLocal, blankRam, memorySize])
  rw [hram, hother, cellsOf, Array.getElem?_map, hcell]
  rfl

end HackStack.Stack
