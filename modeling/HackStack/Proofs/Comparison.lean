import HackStack.Proofs.Correctness

/-!
# Comparisons as programs of their own

The code of a comparison, with any number in its labels that can be written, is a program.
It takes `y` and `x` off the stack and puts a truth value there. Which one is decided by
the sign of the difference `x - y`, and that difference is a word: `32767 - (-1)` is
`-32768`.

So equality is always decided as for numbers. The order is so too as long as the
difference of the two numbers is itself the number of a word (`compares_of_fits`);
beyond that the answer is the opposite one (`compares_of_not_fits`).
-/

namespace HackStack.Stack

open Hack
open Stack.Access

/-! ### Numbers and their difference -/

/-- What a comparison says of two numbers. -/
def Arithmetic.Compares (x y : Int) : Arithmetic → Prop
  | .eq => x = y
  | .gt => y < x
  | .lt => x < y
  | _ => False

/-- The number of a word: it needs no more than sixteen bits. -/
def FitsWord (x : Int) : Prop := -32768 ≤ x ∧ x < 32768

instance (x : Int) : Decidable (FitsWord x) := inferInstanceAs (Decidable (_ ∧ _))

theorem fitsWord_signed (x : Int) : FitsWord (Word.signed x) :=
  ⟨Word.le_signed x, Word.signed_lt x⟩

/-- The signed reading, said with the remainder. -/
theorem signed_eq (x : Int) :
    Word.signed x = if x % 65536 < 32768 then x % 65536 else x % 65536 - 65536 :=
  rfl

theorem toInt_eq_signed (w : BitVec 16) : w.toInt = Word.signed w.toNat := by
  rw [← toInt_ofInt_eq_signed, BitVec.ofInt_natCast, BitVec.ofNat_toNat, BitVec.setWidth_eq]

/-- The difference of two words is the word of the difference of their numbers. -/
theorem toInt_sub_eq_signed (x y : BitVec 16) :
    (x - y).toInt = Word.signed (Word.signed x.toNat - Word.signed y.toNat) := by
  rw [← toInt_ofInt_eq_signed, ofInt_sub, ← toInt_eq_signed, ← toInt_eq_signed,
    BitVec.ofInt_toInt, BitVec.ofInt_toInt]

section Order

variable {op : Arithmetic} {x y : Int}

/-- A difference that fits has the sign that it should have. -/
theorem compares_of_fits (h : FitsWord (x - y)) :
    op.Compares (Word.signed (x - y)) 0 ↔ op.Compares x y := by
  have hsigned : Word.signed (x - y) = x - y := by
    unfold FitsWord at h
    rw [signed_eq]
    omega
  rw [hsigned]
  cases op with
  | eq | gt | lt => simp only [Arithmetic.Compares]; omega
  | add | sub | and | or | not | neg => exact Iff.rfl

variable (hx : FitsWord x) (hy : FitsWord y)

include hx hy

/-- Two numbers of words are equal just when their difference is zero as a word. -/
theorem compares_eq : Arithmetic.eq.Compares (Word.signed (x - y)) 0 ↔ x = y := by
  unfold FitsWord at hx hy
  rw [Arithmetic.Compares, signed_eq]
  omega

/-- A difference that does not fit has the wrong sign. -/
theorem compares_of_not_fits (hop : op.isComparison = true) (hne : op ≠ .eq)
    (h : ¬ FitsWord (x - y)) :
    op.Compares (Word.signed (x - y)) 0 ↔ ¬ op.Compares x y := by
  unfold FitsWord at hx hy h
  rw [signed_eq]
  cases op with
  | gt | lt => simp only [Arithmetic.Compares]; omega
  | eq => exact absurd rfl hne
  | add | sub | and | or | not | neg => cases hop

end Order

/-- A comparison succeeds when it says of the difference and zero what it should say of the
numbers. -/
theorem succeeds_sub_iff {op : Arithmetic} (h : op.isComparison = true) (x y : BitVec 16) :
    op.succeeds (x - y) = true ↔
      op.Compares (Word.signed (Word.signed x.toNat - Word.signed y.toNat)) 0 := by
  rw [← toInt_sub_eq_signed]
  cases op with
  | eq => simp [Arithmetic.succeeds, Arithmetic.Compares, ← BitVec.toInt_inj]
  | gt | lt => simp [Arithmetic.succeeds, Arithmetic.Compares]
  | add | sub | and | or | not | neg => cases h

/-! ### The two values on top -/

section Top

variable {ram : Ram} {p x y : BitVec 16}

theorem run_compare (op : Arithmetic) (hp : ram[0]? = some p) (hlow : 3 ≤ p.toNat)
    (hx : ram[p.toNat - 2]? = some x) (hy : ram[p.toNat - 1]? = some y) :
    ∃ n, op.compare.run ram = .ok n ((ram.setIfInBounds 0 (p - 1)).setIfInBounds (p.toNat - 2)
      (truth (op.succeeds (x - y)))) := by
  rw [Arithmetic.compare, run_bind_ok (run_combineTop hp hlow hx hy _)]
  exact ⟨_, rfl⟩

end Top

/-! ### The program -/

section Program

variable {op : Arithmetic} (hop : op.isComparison = true) (number : Int)

include hop

theorem grounded_comparison : Grounded (tableOf (op.lines number)).valueOf := by
  refine grounded_of_labels fun name hmem => ⟨number, ?_⟩
  have hdeclared : declared (op.lines number) = [falseLabel number, continueLabel number] := by
    cases op with
    | eq | gt | lt => rfl
    | add | sub | and | or | not | neg => cases hop
  simpa [← mem_declared, hdeclared] using hmem

/-- The labels of a comparison that stands alone. -/
theorem placed_comparison :
    (tableOf (op.lines number)).valueOf (falseLabel number) = 12 ∧
      (tableOf (op.lines number)).valueOf (continueLabel number) = 15 := by
  have hknown : (tableOf (op.lines number)).known =
      (continueLabel number, 0 + 15) :: (falseLabel number, 0 + 12) :: predefined :=
    labelsOnto_comparison hop number predefined 0 1
  constructor
  · refine valueOf_of_lookup (isDigits_falseLabel number) ?_
    rw [hknown, List.lookup_cons, beq_eq_false_iff_ne.mpr (falseLabel_ne_continueLabel _ _),
      List.lookup_cons_self]
  · refine valueOf_of_lookup (isDigits_continueLabel number) ?_
    rw [hknown, List.lookup_cons_self]

/-- **The code of a comparison is a program** that carries out the comparison on every memory. -/
theorem exists_program_comparison :
    ∃ program, assemble (['\n'].intercalate ((op.lines number).map Line.render)) = .ok program ∧
      ∀ (ram : Ram) (limit : Int), 15 ≤ limit →
        (run program (cellsOf ram) limit).Realizes (op.compare.run ram) := by
  have hvalue := grounded_comparison hop number
  obtain ⟨hfalse, hcontinue⟩ := placed_comparison hop number
  have hreadable := readable_arithmetic op number
  have hfits : (Operation.arithmetic op).FitsAt 0 := by
    cases op with
    | eq | gt | lt => decide
    | add | sub | and | or | not | neg => cases hop
  obtain ⟨program, hprogram⟩ := (exists_assemble_iff hreadable.clear hreadable.plain).mpr
    fun operand hmem => (fits_arithmetic hvalue op fun _ => ⟨by omega, by omega⟩).mpr hfits
      operand (mem_operands.mpr hmem)
  have hops := operationsOf_assemble hreadable.clear hreadable.plain hprogram
  have hsize : program.size = 15 := by
    rw [← Array.length_toList, ← List.length_map, ← operationsOf, hops]
    exact congrArg List.length (machineCode_comparison hvalue hop number)
  refine ⟨program, (assemble_intercalate hreadable.clear).trans hprogram, fun ram limit hlimit => ?_⟩
  have hcarries := carries_comparison (c := .start ram) hvalue hop hfalse hcontinue
    (show 0 + 15 < 2 ^ 16 by decide) (sitsAt_zero hops)
  refine realizes_of_carries (loadsWord_of_assemble hprogram) ?_ hlimit
  rw [hsize]
  exact hcarries

end Program

/-! ### What is left on top -/

theorem toNat_truth (b : Bool) :
    ((truth b).toNat : Int) = if b then (Word.wrap (-1) : Int) else 0 := by
  cases b <;> rfl

/-- **Running a comparison.** With the values `x` and `y` on top of the stack, `y` above, the code
of a comparison halts with the pointer lowered by one, with a truth value in place of `x`, and with
all other cells as they were. -/
theorem run_comparison {op : Arithmetic} (hop : op.isComparison = true) {number : Int}
    (hnumber : Numeral.isWritable number = true) {ram : Ram} {p x y : BitVec 16}
    (hp : ram[0]? = some p) (hlow : 3 ≤ p.toNat) (hx : ram[p.toNat - 2]? = some x)
    (hy : ram[p.toNat - 1]? = some y) {limit : Int} (hlimit : 15 ≤ limit) :
    ∃ code program, arithmeticLines op.mnemonic number = .ok code ∧
      assemble (['\n'].intercalate (code.map Line.render)) = .ok program ∧
      (run program (cellsOf ram) limit).ending = .halted ∧
      (run program (cellsOf ram) limit).machine.ram =
        ((cellsOf ram).setIfInBounds 0 (p.toNat - 1 : Nat)).setIfInBounds (p.toNat - 2)
          (if op.succeeds (x - y) then Word.wrap (-1) else 0) := by
  have hlines : arithmeticLines op.mnemonic number = .ok (op.lines number) := by
    simp [arithmeticLines, hnumber]
  obtain ⟨program, hprogram, hrealizes⟩ := exists_program_comparison hop number
  obtain ⟨n, hrun⟩ := run_compare op hp hlow hx hy
  obtain ⟨hending, -, hram⟩ := (hrun ▸ hrealizes ram limit hlimit).of_ok
  have hlowered : (p - 1).toNat = p.toNat - 1 := by bv_omega
  refine ⟨_, program, hlines, hprogram, hending, ?_⟩
  rw [hram, cellsOf_setIfInBounds, cellsOf_setIfInBounds, toNat_truth, hlowered]

/-- **A comparison goes by the sign of the difference.** The code of a comparison, with any number
in its labels that can be written, lowers the pointer by one and leaves `-1` or `0` in place of the
two values on top. It leaves `-1` exactly when the word of the difference `x - y` is equal to zero,
above or below it. That is what the comparison says of the two signed numbers, for equality always,
and for the order as long as their difference is itself the number of a word. Otherwise the order
comes out the wrong way round. With a number that is too long to be written there is no code. -/
theorem run_comparison_by_difference {op : Arithmetic} (hop : op.isComparison = true)
    (number : Int) {ram : Ram} {p x y : BitVec 16} (hp : ram[0]? = some p) (hlow : 3 ≤ p.toNat)
    (hx : ram[p.toNat - 2]? = some x) (hy : ram[p.toNat - 1]? = some y) {limit : Int}
    (hlimit : 15 ≤ limit) :
    (Numeral.isWritable number = true → ∃ code program,
      arithmeticLines op.mnemonic number = .ok code ∧
      assemble (['\n'].intercalate (code.map Line.render)) = .ok program ∧
      (run program (cellsOf ram) limit).ending = .halted ∧
      ∃ top : Int, (top = Word.wrap (-1) ∨ top = 0) ∧
        (run program (cellsOf ram) limit).machine.ram =
          ((cellsOf ram).setIfInBounds 0 (p.toNat - 1 : Nat)).setIfInBounds (p.toNat - 2) top ∧
        (top = Word.wrap (-1) ↔
          op.Compares (Word.signed (Word.signed x.toNat - Word.signed y.toNat)) 0) ∧
        (op = .eq ∨ FitsWord (Word.signed x.toNat - Word.signed y.toNat) →
          (top = Word.wrap (-1) ↔ op.Compares (Word.signed x.toNat) (Word.signed y.toNat))) ∧
        (op ≠ .eq → ¬ FitsWord (Word.signed x.toNat - Word.signed y.toNat) →
          (top = Word.wrap (-1) ↔ ¬ op.Compares (Word.signed x.toNat) (Word.signed y.toNat)))) ∧
    (Numeral.isWritable number = false →
      arithmeticLines op.mnemonic number = .error (.numeral .unwritable)) := by
  refine ⟨fun hnumber => ?_, fun hnumber => by simp [arithmeticLines, hop, hnumber]⟩
  obtain ⟨code, program, hcode, hprogram, hending, hram⟩ :=
    run_comparison hop hnumber hp hlow hx hy hlimit
  have hfirst := fitsWord_signed x.toNat
  have hsecond := fitsWord_signed y.toNat
  have htop : (if op.succeeds (x - y) then (Word.wrap (-1) : Int) else 0) = Word.wrap (-1) ↔
      op.Compares (Word.signed (Word.signed x.toNat - Word.signed y.toNat)) 0 := by
    rw [← succeeds_sub_iff hop, ite_eq_left_iff]
    exact ⟨fun h => by_contra fun hfails => absurd (h hfails) (by decide),
      fun h hfails => absurd h hfails⟩
  refine ⟨code, program, hcode, hprogram, hending, _, ite_eq_or_eq _ _ _, hram, htop, ?_, ?_⟩
  · rintro (rfl | hfits)
    · exact htop.trans (compares_eq hfirst hsecond)
    · exact htop.trans (compares_of_fits hfits)
  · exact fun hne hfits => htop.trans (compares_of_not_fits hfirst hsecond hop hne hfits)

/-- An empty memory but for two values on its stack, the second on top. -/
def twoOnStack (x y : BitVec 16) : Ram :=
  (((Array.replicate Hack.memorySize 0).setIfInBounds 0 258).setIfInBounds 256 x).setIfInBounds 257 y

section TwoOnStack

variable (x y : BitVec 16)

theorem twoOnStack_pointer : (twoOnStack x y)[0]? = some 258 := by
  simp [twoOnStack, Hack.memorySize]

theorem twoOnStack_below : (twoOnStack x y)[256]? = some x := by
  simp [twoOnStack, Hack.memorySize]

theorem twoOnStack_top : (twoOnStack x y)[257]? = some y := by
  simp [twoOnStack, Hack.memorySize]

end TwoOnStack

/-- The smallest difference that fits: `-1` is less than `32767`. -/
theorem run_less_at_boundary :
    ∃ code program, arithmeticLines "lt".toList (-5) = .ok code ∧
      assemble (['\n'].intercalate (code.map Line.render)) = .ok program ∧
      (run program (cellsOf (twoOnStack 65535 32767)) 100000).machine.ram =
        ((cellsOf (twoOnStack 65535 32767)).setIfInBounds 0 257).setIfInBounds 256 65535 := by
  have hop : Arithmetic.isComparison .lt = true := rfl
  obtain ⟨code, program, hcode, hprogram, -, top, -, hram, -, hfits, -⟩ :=
    (run_comparison_by_difference hop (-5) (twoOnStack_pointer 65535 32767) (by decide)
      (twoOnStack_below 65535 32767) (twoOnStack_top 65535 32767)
      (show (15 : Int) ≤ 100000 by decide)).1 (by decide)
  have hless : Word.signed (65535 : BitVec 16).toNat < Word.signed (32767 : BitVec 16).toNat := by
    decide
  have htop : top = 65535 := (hfits (.inr (by decide))).mpr hless
  subst htop
  exact ⟨code, program, hcode, hprogram, hram⟩

/-- **The order may come out wrong**: `32767` is greater than `-1`, but their difference is
`-32768` as a word, and the comparison leaves `0`. -/
theorem run_greater_of_overflow :
    ∃ code program, arithmeticLines "gt".toList 0 = .ok code ∧
      assemble (['\n'].intercalate (code.map Line.render)) = .ok program ∧
      Word.signed 65535 < Word.signed 32767 ∧
      (run program (cellsOf (twoOnStack 32767 65535)) 100000).machine.ram =
        ((cellsOf (twoOnStack 32767 65535)).setIfInBounds 0 257).setIfInBounds 256 0 := by
  have hop : Arithmetic.isComparison .gt = true := rfl
  have hnumber : Numeral.isWritable 0 = true := by decide
  obtain ⟨code, program, hcode, hprogram, -, hram⟩ :=
    run_comparison hop hnumber (twoOnStack_pointer 32767 65535) (by decide)
      (twoOnStack_below 32767 65535) (twoOnStack_top 32767 65535)
      (show (15 : Int) ≤ 100000 by decide)
  exact ⟨code, program, hcode, hprogram, by decide, hram⟩

end HackStack.Stack
