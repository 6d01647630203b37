import HackStack.Proofs.Execution
import HackStack.Proofs.Layout

/-!
# Compiled code does what its commands do

The code of a command carries out the command (`carries_of_codes`): the registers may
hold anything at its start, and what it leaves in them is of no use to the next. So the
code of several commands carries out the one after the other (`carries_of_lowers`), and
a program made of compiled code realizes the commands of its source on every memory
(`realizes_of_lowers`), faults included.
-/

namespace HackStack.Stack

open Hack Access

/-- The operations of the machine that code stands for. -/
def machineCode (value : Text → Nat) (code : List Line) : List Hack.Operation :=
  code.filterMap (Line.operation? value)

theorem machineCode_append (value : Text → Nat) (code rest : List Line) :
    machineCode value (code ++ rest) = machineCode value code ++ machineCode value rest :=
  List.filterMap_append

theorem length_machineCode_of_codes {value : Text → Nat} {labels : Nat} {op : Operation}
    {code : List Line} (h : Codes labels op code) : (machineCode value code).length = op.size :=
  (length_filterMap_operation? (readable_of_codes h) value).trans (lineCount_of_codes h)

/-! ### Code without jumps -/

section Straight

variable (value : Text → Nat)

theorem isStraight_push (s : Segment) (index : Nat) :
    ∀ i ∈ machineCode value (s.valueLines index ++ pushD), i.isStraight = true := by
  cases s <;> exact List.all_eq_true.mp rfl

theorem isStraight_pop {s : Segment} {index : Nat} {code : List Line}
    (h : s.addressLines? index = some code) :
    ∀ i ∈ machineCode value (code ++ popToD), i.isStraight = true := by
  cases s <;> cases h <;> exact List.all_eq_true.mp rfl

/-- Only comparisons jump. -/
theorem isStraight_arithmetic {op : Arithmetic} (h : op.isComparison = false) (labels : Nat) :
    ∀ i ∈ machineCode value (op.lines labels), i.isStraight = true := by
  cases op with
  | add | sub | and | or | not | neg => exact List.all_eq_true.mp rfl
  | eq | gt | lt => cases h

end Straight

/-! ### The blocks of the code -/

section Blocks

variable {value : Text → Nat} (hvalue : Grounded value) (a d : BitVec 16)

include hvalue

theorem block_popTwo :
    block a d (machineCode value popTwo) = do
      let p ← read 0
      write 0 (p - 1)
      let y ← read (p - 1)
      return (p - 1 - 1, y) := by
  have hcode : machineCode value popTwo =
      [.address (value "SP".toList), .compute [.a, .m] .predA true .never,
        .compute [.d] .a true .never, .compute [.a] .predA false .never] := rfl
  rw [hcode, hvalue.stack]
  simp [Computation.onWords]

theorem block_pushD :
    block a d (machineCode value pushD) = do
      let p ← read 0
      write p d
      let q ← read 0
      write 0 (q + 1)
      return (0, d) := by
  have hcode : machineCode value pushD =
      [.address (value "SP".toList), .compute [.a] .a true .never, .compute [.m] .d false .never,
        .address (value "SP".toList), .compute [.m] .succA true .never] := rfl
  rw [hcode, hvalue.stack]
  simp [Computation.onWords]

theorem block_popToD :
    block a d (machineCode value popToD) = do
      write 13 d
      let p ← read 0
      write 0 (p - 1)
      let v ← read (p - 1)
      let t ← read 13
      write t v
      return (t, v) := by
  have hcode : machineCode value popToD =
      [.address (value "R13".toList), .compute [.m] .d false .never,
        .address (value "SP".toList), .compute [.a, .m] .predA true .never,
        .compute [.d] .a true .never, .address (value "R13".toList),
        .compute [.a] .a true .never, .compute [.m] .d false .never] := rfl
  rw [hcode, hvalue.stack, hvalue.scratch]
  simp [Computation.onWords]

/-- The code for the value of a cell leaves it in `D`. -/
theorem map_block_value (s : Segment) (index : Nat) :
    Prod.snd <$> block a d (machineCode value (s.valueLines index)) = s.value index := by
  cases s with
  | constant =>
    have hcode : machineCode value (Segment.constant.valueLines index) =
        [.address (value (Numeral.decimal index)), .compute [.d] .a false .never] := rfl
    rw [hcode, hvalue.number]
    simp [Computation.onWords, Segment.value, Segment.address?]
  | based base =>
    have hcode : machineCode value ((Segment.based base).valueLines index) =
        [.address (value base.symbol), .compute [.d] .a true .never,
          .address (value (Numeral.decimal index)), .compute [.a] .add false .never,
          .compute [.d] .a true .never] := rfl
    rw [hcode, hvalue.number, hvalue.base]
    simp [Computation.onWords, Segment.value, Segment.address?]
  | temp =>
    have hcode : machineCode value (Segment.temp.valueLines index) =
        [.address (value "R5".toList), .compute [.d] .a false .never,
          .address (value (Numeral.decimal index)), .compute [.a] .add false .never,
          .compute [.d] .a true .never] := rfl
    rw [hcode, hvalue.number, hvalue.symbol (a := 5) rfl]
    simp [Computation.onWords, Segment.value, Segment.address?]
  | pointer =>
    have hcode : machineCode value (Segment.pointer.valueLines index) =
        [.address (value (if (index : Int) == 0 then Base.this.symbol else Base.that.symbol)),
          .compute [.d] .a true .never] := rfl
    rw [hcode, hvalue.pointer]
    by_cases hzero : index = 0 <;> simp [Computation.onWords, Segment.value, Segment.address?, hzero]
  | static =>
    have hcode : machineCode value (Segment.static.valueLines index) =
        [.address (value (Numeral.decimal (staticBase + index))), .compute [.d] .a true .never] :=
      rfl
    rw [hcode, hvalue.static]
    simp [Computation.onWords, Segment.value, Segment.address?, BitVec.ofNat_add]

/-- The code for the address of a cell leaves it in `D`. -/
theorem map_block_address {s : Segment} {index : Nat} {code : List Line} {address : Access (BitVec 16)}
    (hcode : s.addressLines? index = some code) (haddress : s.address? index = some address) :
    Prod.snd <$> block a d (machineCode value code) = address := by
  cases s with
  | constant => cases hcode
  | based base =>
    cases hcode
    cases haddress
    have hcode : machineCode value ([.address base.symbol] ++ assembly ["D=M"] ++ [.number index] ++
          assembly ["D=D+A"]) =
        [.address (value base.symbol), .compute [.d] .a true .never,
          .address (value (Numeral.decimal index)), .compute [.d] .add false .never] := rfl
    rw [hcode, hvalue.number, hvalue.base]
    simp [Computation.onWords]
  | temp =>
    cases hcode
    cases haddress
    have hcode : machineCode value (assembly ["@R5", "D=A"] ++ [.number index] ++
          assembly ["D=D+A"]) =
        [.address (value "R5".toList), .compute [.d] .a false .never,
          .address (value (Numeral.decimal index)), .compute [.d] .add false .never] := rfl
    rw [hcode, hvalue.number, hvalue.symbol (a := 5) rfl]
    simp [Computation.onWords]
  | pointer =>
    cases hcode
    cases haddress
    have hcode : machineCode value ([pointerRegister index] ++ assembly ["D=A"]) =
        [.address (value (if (index : Int) == 0 then Base.this.symbol else Base.that.symbol)),
          .compute [.d] .a false .never] := rfl
    rw [hcode, hvalue.pointer]
    by_cases hzero : index = 0 <;> simp [Computation.onWords, hzero]
  | static =>
    cases hcode
    cases haddress
    have hcode : machineCode value ([.number (staticBase + index)] ++ assembly ["D=A"]) =
        [.address (value (Numeral.decimal (staticBase + index))), .compute [.d] .a false .never] :=
      rfl
    rw [hcode, hvalue.static]
    simp [Computation.onWords, BitVec.ofNat_add]

end Blocks

/-! ### Comparisons -/

/-- The condition on the difference under which a comparison fails. -/
def Arithmetic.failure : Arithmetic → Jump
  | .eq => .ne
  | .gt => .le
  | .lt => .ge
  | _ => .never

theorem onWord_failure {op : Arithmetic} (h : op.isComparison = true) (w : BitVec 16) :
    op.failure.onWord w = !op.succeeds w := by
  cases op with
  | eq => rfl
  | gt => simp [Arithmetic.failure, Arithmetic.succeeds, Jump.onWord, ← decide_not]
  | lt => simp [Arithmetic.failure, Arithmetic.succeeds, Jump.onWord, ← decide_not]
  | add | sub | and | or | not | neg => cases h

/-- The operations that store a constant on top of the stack. -/
def storeTop (comp : Computation) : List Hack.Operation :=
  [.address 0, .compute [.a] .predA true .never, .compute [.m] comp false .never]

/-- The operations that find the difference of the two values on top of the stack. -/
def differenceCode (value : Text → Nat) : List Hack.Operation :=
  machineCode value popTwo ++ [.compute [.d] .subD true .never]

theorem machineCode_comparison {value : Text → Nat} (hvalue : Grounded value) {op : Arithmetic}
    (h : op.isComparison = true) (labels : Int) :
    machineCode value (op.lines labels) =
      differenceCode value ++
        ([.address (value (falseLabel labels)), .compute [] .d false op.failure] ++
          (storeTop .minusOne ++
            ([.address (value (continueLabel labels)), .compute [] .zero false .always] ++
              storeTop .zero))) := by
  rw [storeTop, storeTop, ← hvalue.stack]
  cases op with
  | eq | gt | lt => rfl
  | add | sub | and | or | not | neg => cases h

theorem block_differenceCode {value : Text → Nat} (hvalue : Grounded value) (a d : BitVec 16) :
    block a d (differenceCode value) = do
      let p ← read 0
      write 0 (p - 1)
      let y ← read (p - 1)
      let x ← read (p - 1 - 1)
      return (p - 1 - 1, x - y) := by
  rw [differenceCode, block_append, block_popTwo hvalue]
  simp [Computation.onWords]

/-- What a comparison does when the difference is known, and the number of instructions that
takes. -/
def Arithmetic.settle (op : Arithmetic) (difference : BitVec 16) : Access Nat := do
  let result := truth (op.succeeds difference)
  let p ← read 0
  write (p - 1) result
  return if result = truth true then 5 else 3

/-- A comparison finds the difference and settles it. -/
theorem compare_eq {value : Text → Nat} (hvalue : Grounded value) (op : Arithmetic)
    (a d : BitVec 16) :
    op.compare = do
      let r ← block a d (differenceCode value)
      let n ← op.settle r.2
      return 5 + (2 + n) := by
  rw [block_differenceCode hvalue, Arithmetic.compare, combineTop_eq]
  simp only [bind_assoc, pure_bind, Arithmetic.settle]
  refine bind_congr fun p => ?_
  -- the pointer that is read to store the result is the one written before
  have hkeeps : Keeps 0 (p - 1) (do
      let y ← read (p - 1)
      let x ← read (p - 1 - 1)
      return x - y) :=
    keeps_read.bind fun y => keeps_read.bind fun x => by
      intro ram ram' r hcell h
      cases h
      exact hcell
  have hread := write_bind_read hkeeps fun w q => do
    write (q - 1) (truth (op.succeeds w))
    return 5 + (2 + if truth (op.succeeds w) = truth true then 5 else 3)
  simp only [bind_assoc, pure_bind] at hread
  rw [hread]
  refine bind_congr fun _ => bind_congr fun y => bind_congr fun x => bind_congr fun _ => ?_
  split <;> rfl

theorem isStraight_storeTop {comp : Computation} : ∀ i ∈ storeTop comp, i.isStraight = true := by
  simp [storeTop, Operation.isStraight]

theorem isStraight_differenceCode (value : Text → Nat) :
    ∀ i ∈ differenceCode value, i.isStraight = true :=
  List.all_eq_true.mp rfl

section Comparison

variable {program : Array Instruction} {c : Cpu} {op : Arithmetic} {p : Nat}

/-- The end of a comparison that fails. -/
theorem carries_failed (hpc : c.pc = p + 12) (hcode : SitsAt program (p + 12) (storeTop .zero))
    (h : op.succeeds c.d = false) : Carries program 3 c (p + 15) (op.settle c.d) := by
  have hstraight : (do let _ ← block c.a c.d (storeTop .zero); return (storeTop .zero).length) =
      op.settle c.d := by
    simp [Computation.onWords, Arithmetic.settle, h, truth, storeTop]
  have := carries_straight (hpc ▸ hcode) isStraight_storeTop hstraight
  rwa [hpc] at this

/-- The end of a comparison that succeeds, which jumps over that of one that fails. -/
theorem carries_succeeded (hlarge : p + 15 < 2 ^ 16) (hpc : c.pc = p + 7)
    (hcode : SitsAt program (p + 7)
      (storeTop .minusOne ++ [.address (p + 15), .compute [] .zero false .always]))
    (h : op.succeeds c.d = true) : Carries program 5 c (p + 15) (op.settle c.d) := by
  have hrest (r : BitVec 16 × BitVec 16) (ram : Ram) :
      Carries program (2 + 0) ⟨r.1, r.2, c.pc + (storeTop .minusOne).length, ram⟩ (p + 15)
        (do return 2 + (← pure 0)) := by
    rw [hpc]
    exact (leads_jump hlarge hcode.right).carries rfl (carries_done program _)
  have := carries_block (hpc ▸ hcode.left) isStraight_storeTop hrest
  have hsettle : op.settle c.d = (do
      let _ ← block c.a c.d (storeTop .minusOne)
      return (storeTop .minusOne).length + (2 + 0)) := by
    simp [Computation.onWords, Arithmetic.settle, h, truth, storeTop]
  have hlength : (storeTop .minusOne).length = 3 := rfl
  rw [hsettle]
  simpa [hlength] using this

/-- **A comparison**, from any contents of the registers. -/
theorem carries_comparison {value : Text → Nat} (hvalue : Grounded value)
    (h : op.isComparison = true) {labels : Int}
    (hfalse : value (falseLabel labels) = c.pc + 12)
    (hcontinue : value (continueLabel labels) = c.pc + 15) (hlarge : c.pc + 15 < 2 ^ 16)
    (hcode : SitsAt program c.pc (machineCode value (op.lines labels))) :
    Carries program 15 c (c.pc + 15) op.compare := by
  rw [machineCode_comparison hvalue h, hfalse, hcontinue] at hcode
  have hrest := hcode.right
  have hsuccess : SitsAt program (c.pc + 7)
      (storeTop .minusOne ++ [.address (c.pc + 15), .compute [] .zero false .always]) := by
    have := hrest.right
    rw [← List.append_assoc] at this
    exact this.left
  have hfailure : SitsAt program (c.pc + 12) (storeTop .zero) := hrest.right.right.right
  have hsettle (r : BitVec 16 × BitVec 16) (ram : Ram) :
      Carries program (2 + 5) ⟨r.1, r.2, c.pc + (differenceCode value).length, ram⟩ (c.pc + 15)
        (do return 2 + (← op.settle r.2)) := by
    have hjump := leads_jump (c := ⟨r.1, r.2, c.pc + 5, ram⟩) (t := c.pc + 12) (by omega) hrest.left
    have htest : op.failure.onWord (Computation.d.onWords r.2 (BitVec.ofNat 16 (c.pc + 12))) =
        !op.succeeds r.2 := onWord_failure h r.2
    refine hjump.carries rfl ?_
    rw [htest]
    cases hsucceeds : op.succeeds r.2 with
    | false => exact (carries_failed rfl hfailure hsucceeds).mono (by decide)
    | true => exact carries_succeeded hlarge rfl hsuccess hsucceeds
  have := carries_block hcode.left (isStraight_differenceCode value) hsettle
  have hlength : (differenceCode value).length = 5 := rfl
  rw [compare_eq hvalue op c.a c.d]
  refine Carries.mono ?_ (show 5 + (2 + 5) ≤ 15 by decide)
  simpa [hlength] using this

end Comparison

/-! ### Commands -/

section Commands

variable {program : Array Instruction} {value : Text → Nat} (hvalue : Grounded value) {c : Cpu}

include hvalue

/-- The commands that combine two values by one operation of the machine. -/
theorem carries_combine {code : List Line} (comp : Computation)
    {f : BitVec 16 → BitVec 16 → BitVec 16} (hf : ∀ x y, comp.onWords y x = f x y)
    (hlast : machineCode value code = [.compute [.m] comp true .never])
    (hcode : SitsAt program c.pc (machineCode value (popTwo ++ code))) :
    Carries program 5 c (c.pc + 5) (do let _ ← combineTop f; return 5) := by
  rw [machineCode_append, hlast] at hcode
  refine carries_straight hcode (List.all_eq_true.mp rfl) ?_
  rw [block_append, block_popTwo hvalue, combineTop_eq]
  simp [hf]
  rfl

theorem carries_push (s : Segment) (index : Nat)
    (hcode : SitsAt program c.pc (machineCode value (s.valueLines index ++ pushD))) :
    Carries program s.pushSize c (c.pc + s.pushSize)
      (do pushValue (s.value index); return s.pushSize) := by
  have hlength : (machineCode value (s.valueLines index ++ pushD)).length = s.pushSize := by
    cases s <;> rfl
  rw [← hlength]
  refine carries_straight hcode (isStraight_push value s index) ?_
  rw [machineCode_append, block_append, ← map_block_value hvalue c.a c.d s index]
  simp [block_pushD hvalue, pushValue]

theorem carries_pop {s : Segment} {index : Nat} {code : List Line} {address : Access (BitVec 16)}
    (hlines : s.addressLines? index = some code) (haddress : s.address? index = some address)
    (hcode : SitsAt program c.pc (machineCode value (code ++ popToD))) :
    Carries program s.popSize c (c.pc + s.popSize)
      (do popValue address; return s.popSize) := by
  have hlength : (machineCode value (code ++ popToD)).length = s.popSize := by
    cases s <;> cases hlines <;> rfl
  rw [← hlength]
  refine carries_straight hcode (isStraight_pop value hlines) ?_
  rw [machineCode_append, block_append, popValue_eq,
    ← map_block_address hvalue c.a c.d hlines haddress]
  simp [block_popToD hvalue]

/-- **An arithmetic command.** -/
theorem carries_arithmetic (op : Arithmetic) {labels : Nat}
    (hplaced : (Operation.arithmetic op).labelCount = 1 →
      value (falseLabel labels) = c.pc + 12 ∧ value (continueLabel labels) = c.pc + 15)
    (hlarge : (Operation.arithmetic op).labelCount = 1 → c.pc + op.size ≤ largestValue)
    (hcode : SitsAt program c.pc (machineCode value (op.lines labels))) :
    Carries program op.size c (c.pc + op.size) op.exec := by
  cases op with
  | add => exact carries_combine hvalue .add (fun x y => BitVec.add_comm y x) rfl hcode
  | sub => exact carries_combine hvalue .subD (fun x y => rfl) rfl hcode
  | and => exact carries_combine hvalue .and (fun x y => BitVec.and_comm y x) rfl hcode
  | or => exact carries_combine hvalue .or (fun x y => BitVec.or_comm y x) rfl hcode
  | not =>
    have hnot : machineCode value (Arithmetic.not.lines labels) =
        [.address (value "SP".toList), .compute [.a] .predA true .never,
          .compute [.m] .notA true .never] := rfl
    rw [hnot, hvalue.stack] at hcode
    refine carries_straight hcode (List.all_eq_true.mp rfl) ?_
    simp [Computation.onWords, Arithmetic.exec, replaceTop, Arithmetic.size]
  | neg =>
    have hneg : machineCode value (Arithmetic.neg.lines labels) =
        [.compute [.d] .zero false .never, .address (value "SP".toList),
          .compute [.a] .predA true .never, .compute [.m] .subA true .never] := rfl
    rw [hneg, hvalue.stack] at hcode
    refine carries_straight hcode (List.all_eq_true.mp rfl) ?_
    simp [Computation.onWords, Arithmetic.exec, replaceTop, Arithmetic.size]
  | eq | gt | lt =>
    obtain ⟨hfalse, hcontinue⟩ := hplaced rfl
    have hle : c.pc + 15 ≤ 32767 := hlarge rfl
    exact carries_comparison hvalue rfl hfalse hcontinue (by omega) hcode

/-- **One command**: its code carries it out, whatever the registers hold. -/
theorem carries_of_codes {labels : Nat} {op : Operation} {code : List Line}
    (h : Codes labels op code)
    (hplaced : op.labelCount = 1 →
      value (falseLabel labels) = c.pc + 12 ∧ value (continueLabel labels) = c.pc + 15)
    (hfits : op.FitsAt c.pc) (hcode : SitsAt program c.pc (machineCode value code)) :
    Carries program op.size c (c.pc + op.size) op.exec := by
  cases h with
  | arithmetic op => exact carries_arithmetic hvalue op hplaced hfits.2 hcode
  | @push s index hadmits =>
    have hpush := carries_push hvalue s index hcode
    simpa [Operation.size, Operation.exec] using hpush
  | @pop s index code hadmits hlines =>
    have haddress : ∃ address, s.address? index = some address := by
      cases s with
      | constant => cases hlines
      | _ => exact ⟨_, rfl⟩
    obtain ⟨address, haddress⟩ := haddress
    have hpop := carries_pop hvalue hlines haddress hcode
    simpa [Operation.size, Operation.exec, haddress] using hpop
  | @skip op hskip =>
    cases op with
    | arithmetic _ | push _ _ | pop _ _ => cases hskip
    | _ => exact carries_done program c

/-- **All commands**: their code carries out the one after the other. -/
theorem carries_of_lowers {labels : Nat} {ops : List Operation} {code : List Line}
    (h : Lowers labels ops code) (hplaced : Placed value labels c.pc ops)
    (hfits : FitAt c.pc ops) (hcode : SitsAt program c.pc (machineCode value code)) :
    Carries program (codeSize ops) c (c.pc + codeSize ops) (execAll ops) := by
  induction h generalizing c with
  | nil labels => exact carries_done program c
  | @cons labels op more code rest hcodes hlowers ih =>
    have hsize : codeSize (op :: more) = op.size + codeSize more := rfl
    rw [machineCode_append] at hcode
    have hfirst := carries_of_codes hvalue hcodes hplaced.1 hfits.1 hcode.left
    have hright := hcode.right
    rw [length_machineCode_of_codes hcodes] at hright
    rw [hsize, ← Nat.add_assoc]
    refine hfirst.seq fun c' hc' => ?_
    rw [← hc']
    exact ih (hc' ▸ hplaced.2) (hc' ▸ hfits.2) (hc' ▸ hright)

end Commands

/-- **A program of compiled code** realizes its commands on every memory of words, within as many
steps as it has instructions. -/
theorem realizes_of_lowers {ops : List Operation} {code : List Line} (h : Lowers 0 ops code)
    {program : Array Instruction}
    (hprogram : assemble (Text.ofLines (code.map Line.render)) = .ok program)
    (ram : Ram) {limit : Int} (hlimit : (program.size : Int) ≤ limit) :
    (run program (cellsOf ram) limit).Realizes ((execAll ops).run ram) := by
  have hreadable := readable_of_lowers h
  have hsize := size_of_assemble_lowers h hprogram
  have hfits := (exists_assemble_lowers_iff h).mp ⟨program, hprogram⟩
  have hcode : SitsAt program 0 (machineCode (tableOf code).valueOf code) :=
    sitsAt_zero (operationsOf_assemble hreadable.clear hreadable.plain hprogram)
  have hcarries := carries_of_lowers (c := .start ram) (grounded_of_lowers h) h (placed_tableOf h)
    hfits hcode
  refine realizes_of_carries (loadsWord_of_assemble hprogram) ?_ hlimit
  rw [hsize]
  simpa [Cpu.start] using hcarries

/-! ### Compiled sources -/

section Sources

variable {test : Bool} {source : Text} {n : Nat}

theorem realizes_of_compile (h : (compile test source).result = .ok n)
    {program : Array Instruction} (hprogram : assemble (compile test source).text = .ok program)
    (ram : Ram) {limit : Int} (hlimit : (program.size : Int) ≤ limit) :
    (run program (cellsOf ram) limit).Realizes ((execAll (operations source)).run ram) := by
  obtain ⟨code, hlowers, htext, -⟩ := lowers_of_compile h
  rw [htext] at hprogram
  exact realizes_of_lowers hlowers hprogram ram hlimit

/-- A source whose code is short enough, and whose indexes fit, is assembled. -/
theorem exists_program_of_compile (h : (compile test source).result = .ok n)
    (hindex : ∀ op ∈ operations source, op.IndexFits) (hn : n ≤ largestValue) :
    ∃ program, assemble (compile test source).text = .ok program ∧ program.size = n := by
  obtain ⟨code, hlowers, htext, -⟩ := lowers_of_compile h
  have hsize := codeSize_of_compile h
  obtain ⟨program, hprogram⟩ := (exists_assemble_lowers_iff hlowers).mpr
    (fitAt_of_le hindex (by rwa [Nat.zero_add, hsize]))
  refine ⟨program, htext ▸ hprogram, ?_⟩
  rw [size_of_assemble_lowers hlowers hprogram, hsize]

/-- **Compilation is correct**, faults included. A source whose indexes fit and whose code is not
too long is assembled, and on every memory of words the program does just what the commands of
the source do one after the other: it halts with the memory as they leave it, or it faults at the
address where they fail, with the memory as it is then. -/
theorem run_compile_realizes_execAll (h : (compile test source).result = .ok n)
    (hindex : ∀ op ∈ operations source, op.IndexFits) (hn : n ≤ largestValue) :
    ∃ program, assemble (compile test source).text = .ok program ∧ program.size = n ∧
      ∀ (ram : Ram) (limit : Int), (n : Int) ≤ limit →
        (run program (cellsOf ram) limit).Realizes ((execAll (operations source)).run ram) := by
  obtain ⟨program, hprogram, hsize⟩ := exists_program_of_compile h hindex hn
  refine ⟨program, hprogram, hsize, fun ram limit hlimit => ?_⟩
  exact realizes_of_compile h hprogram ram (by rwa [hsize])

end Sources

/-- On four cells with the stack from the second on, `2 < 3` leaves all ones there. On two cells
the second push faults. -/
theorem run_compile_two_less_three :
    ∃ program, assemble (compile false "push constant 2\npush constant 3\nlt".toList).text =
        .ok program ∧ program.size = 29 ∧
      (run program (cellsOf #[1, 0, 0, 0]) 29).Realizes (.ok 26 #[2, -1, 3, 0]) ∧
      (run program (cellsOf #[1, 0]) 29).Realizes (.error 2 #[2, 2]) := by
  have hcompile : (compile false "push constant 2\npush constant 3\nlt".toList).result = .ok 29 :=
    rfl
  have hops : operations "push constant 2\npush constant 3\nlt".toList =
      [.push "constant".toList 2, .push "constant".toList 3, .arithmetic .lt] := rfl
  have hindex : ∀ op ∈ operations "push constant 2\npush constant 3\nlt".toList, op.IndexFits := by
    rw [hops]
    decide
  have hhalts : (execAll (operations "push constant 2\npush constant 3\nlt".toList)).run
      #[1, 0, 0, 0] = .ok 26 #[2, -1, 3, 0] := by
    rw [hops]
    rfl
  have hfails : (execAll (operations "push constant 2\npush constant 3\nlt".toList)).run
      #[1, 0] = .error 2 #[2, 2] := by
    rw [hops]
    rfl
  obtain ⟨program, hprogram, hsize, hruns⟩ :=
    run_compile_realizes_execAll hcompile hindex (by decide)
  refine ⟨program, hprogram, hsize, ?_, ?_⟩
  · have := hruns #[1, 0, 0, 0] 29 (by decide)
    rwa [hhalts] at this
  · have := hruns #[1, 0] 29 (by decide)
    rwa [hfails] at this

/-- **Separate compilation composes.** Two sources compiled apart and run one after the other on
the same memory do what the one source made of both does: either all runs halt and the memory at
the end and the number of steps agree, or the single run faults as the first of the two that
faults, at the same address and with the same memory. -/
theorem run_compile_append {t₁ t₂ t : Bool} {first second : Text} {n₁ n₂ n : Nat}
    {p₁ p₂ p : Array Instruction}
    (h₁ : (compile t₁ first).result = .ok n₁) (hp₁ : assemble (compile t₁ first).text = .ok p₁)
    (h₂ : (compile t₂ second).result = .ok n₂) (hp₂ : assemble (compile t₂ second).text = .ok p₂)
    (h : (compile t (first ++ '\n' :: second)).result = .ok n)
    (hp : assemble (compile t (first ++ '\n' :: second)).text = .ok p)
    (ram : Ram) {l₁ l₂ l : Int} (hl₁ : (p₁.size : Int) ≤ l₁) (hl₂ : (p₂.size : Int) ≤ l₂)
    (hl : (p.size : Int) ≤ l) :
    let r₁ := run p₁ (cellsOf ram) l₁
    let r₂ := run p₂ r₁.machine.ram l₂
    let r := run p (cellsOf ram) l
    (r₁.ending = .halted ∧ r₂.ending = .halted ∧ r.ending = .halted ∧
      r.steps = r₁.steps + r₂.steps ∧ r.machine.ram = r₂.machine.ram) ∨
    (r₁.ending = .halted ∧ ∃ line line' address, r₂.ending = .fault ⟨line, address⟩ ∧
      r.ending = .fault ⟨line', address⟩ ∧ r.machine.ram = r₂.machine.ram) ∨
    (∃ line line' address, r₁.ending = .fault ⟨line, address⟩ ∧
      r.ending = .fault ⟨line', address⟩ ∧ r.machine.ram = r₁.machine.ram) := by
  intro r₁ r₂ r
  have hfirst : r₁.Realizes _ := realizes_of_compile h₁ hp₁ ram hl₁
  have hboth : r.Realizes _ := realizes_of_compile h hp ram hl
  rw [operations_append, execAll_append] at hboth
  cases hrun₁ : (execAll (operations first)).run ram with
  | error address ram₁ =>
    rw [hrun₁] at hfirst
    rw [run_bind_error hrun₁] at hboth
    obtain ⟨line, hended₁, hram₁⟩ := hfirst.of_error
    obtain ⟨line', hended, hram⟩ := hboth.of_error
    exact .inr (.inr ⟨line, line', _, hended₁, hended, hram.trans hram₁.symm⟩)
  | ok m ram₁ =>
    rw [hrun₁] at hfirst
    rw [run_bind_ok hrun₁] at hboth
    obtain ⟨hended₁, hsteps₁, hram₁⟩ := hfirst.of_ok
    have hsecond : r₂.Realizes ((execAll (operations second)).run ram₁) := by
      rw [show r₂ = run p₂ (cellsOf ram₁) l₂ by rw [← hram₁]]
      exact realizes_of_compile h₂ hp₂ ram₁ hl₂
    cases hrun₂ : (execAll (operations second)).run ram₁ with
    | error address ram₂ =>
      rw [hrun₂] at hsecond
      rw [run_bind_error hrun₂] at hboth
      obtain ⟨line, hended₂, hram₂⟩ := hsecond.of_error
      obtain ⟨line', hended, hram⟩ := hboth.of_error
      exact .inr (.inl ⟨hended₁, line, line', _, hended₂, hended, hram.trans hram₂.symm⟩)
    | ok k ram₂ =>
      rw [hrun₂] at hsecond
      rw [run_bind_ok hrun₂] at hboth
      obtain ⟨hended₂, hsteps₂, hram₂⟩ := hsecond.of_ok
      obtain ⟨hended, hsteps, hram⟩ := hboth.of_ok
      exact .inl ⟨hended₁, hended₂, hended, by rw [hsteps, hsteps₁, hsteps₂],
        hram.trans hram₂.symm⟩

/-- Compiled apart or together, `5 > 3` and a negation take the same steps to the same memory. -/
theorem run_compile_append_greater_not :
    ∃ p₁ p₂ p, assemble (compile false "push constant 5\npush constant 3\ngt".toList).text = .ok p₁ ∧
      assemble (compile false "not".toList).text = .ok p₂ ∧
      assemble (compile false
        ("push constant 5\npush constant 3\ngt".toList ++ '\n' :: "not".toList)).text = .ok p ∧
      (run p (cellsOf #[1, 0, 0]) 32).steps = (run p₁ (cellsOf #[1, 0, 0]) 29).steps +
        (run p₂ (run p₁ (cellsOf #[1, 0, 0]) 29).machine.ram 3).steps ∧
      (run p (cellsOf #[1, 0, 0]) 32).machine.ram =
        (run p₂ (run p₁ (cellsOf #[1, 0, 0]) 29).machine.ram 3).machine.ram := by
  have hops : operations "push constant 5\npush constant 3\ngt".toList =
      [.push "constant".toList 5, .push "constant".toList 3, .arithmetic .gt] := rfl
  have hnot : operations "not".toList = [.arithmetic .not] := rfl
  have hboth := operations_append "push constant 5\npush constant 3\ngt".toList "not".toList
  rw [hops, hnot] at hboth
  have h₁ : (compile false "push constant 5\npush constant 3\ngt".toList).result = .ok 29 := rfl
  have h₂ : (compile false "not".toList).result = .ok 3 := rfl
  have h : (compile false
      ("push constant 5\npush constant 3\ngt".toList ++ '\n' :: "not".toList)).result = .ok 32 := rfl
  obtain ⟨p₁, hp₁, hsize₁⟩ := exists_program_of_compile h₁ (by rw [hops]; decide) (by decide)
  obtain ⟨p₂, hp₂, hsize₂⟩ := exists_program_of_compile h₂ (by rw [hnot]; decide) (by decide)
  obtain ⟨p, hp, hsize⟩ := exists_program_of_compile h (by rw [hboth]; decide) (by decide)
  have hl₁ : (p₁.size : Int) ≤ 29 := by rw [hsize₁]; decide
  have hl₂ : (p₂.size : Int) ≤ 3 := by rw [hsize₂]; decide
  have hl : (p.size : Int) ≤ 32 := by rw [hsize]; decide
  refine ⟨p₁, p₂, p, hp₁, hp₂, hp, ?_⟩
  -- the single run halts, which leaves the first of the three cases
  have hhalts : (execAll (operations
      ("push constant 5\npush constant 3\ngt".toList ++ '\n' :: "not".toList))).run #[1, 0, 0] =
        .ok 29 #[2, 0, 3] := by
    rw [hboth]
    rfl
  have hrealizes := realizes_of_compile h hp #[1, 0, 0] hl
  rw [hhalts] at hrealizes
  obtain ⟨hended, -, -⟩ := hrealizes.of_ok
  rcases run_compile_append h₁ hp₁ h₂ hp₂ h hp #[1, 0, 0] hl₁ hl₂ hl with
    ⟨-, -, -, hsteps, hram⟩ | ⟨-, _, _, _, -, hfault, -⟩ | ⟨_, _, _, -, hfault, -⟩
  · exact ⟨hsteps, hram⟩
  · rw [hended] at hfault; cases hfault
  · rw [hended] at hfault; cases hfault

end HackStack.Stack
