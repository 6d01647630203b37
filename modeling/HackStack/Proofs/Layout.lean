import HackStack.Proofs.Assembling
import HackStack.Proofs.Semantics

/-!
# The layout of compiled code

The assembler reads compiled code as it was written (`readable_of_lowers`), and the code
of each command has its fixed number of instructions (`lineCount_of_lowers`). The labels of
a comparison are declared once, twelve and fifteen instructions behind its start
(`placed_of_lowers`). So one can say exactly which sources are compiled into code that the
assembler takes: those in which every address fits into an instruction.
-/

namespace HackStack.Stack

open Hack

/-! ### Readable code -/

/-- Lines that the assembler reads as they are written. -/
def Readable (code : List Line) : Prop := ∀ l ∈ code, l.IsClear ∧ l.IsPlain

instance (code : List Line) : Decidable (Readable code) :=
  inferInstanceAs (Decidable (∀ l ∈ code, _))

theorem Readable.clear {code : List Line} (h : Readable code) : ∀ l ∈ code, l.IsClear :=
  fun l hl => (h l hl).1

theorem Readable.plain {code : List Line} (h : Readable code) : ∀ l ∈ code, l.IsPlain :=
  fun l hl => (h l hl).2

theorem Readable.append {code rest : List Line} (h : Readable code) (h' : Readable rest) :
    Readable (code ++ rest) :=
  List.forall_mem_append.mpr ⟨h, h'⟩

theorem Readable.cons {l : Line} {rest : List Line} (hl : l.IsClear ∧ l.IsPlain)
    (h : Readable rest) : Readable (l :: rest) :=
  List.forall_mem_cons.mpr ⟨hl, h⟩

theorem readable_number (n : Nat) : Readable [.number n] := by
  refine Readable.cons ⟨Line.isClear_address fun c hc => ?_, isPlain_number n⟩ (by decide)
  exact isInk_of_isDigit (Numeral.isDigit_of_mem_decimal hc)

theorem number_static (index : Nat) : Line.number (staticBase + index) = .number (16 + index : Nat) :=
  congrArg Line.number (Int.natCast_add 16 index).symm

theorem isInk_decimal (n : Int) : ∀ c ∈ Numeral.decimal n, isInk c = true := by
  intro c hc
  rcases Numeral.isDigit_or_eq_of_mem_decimal hc with hdigit | rfl
  · exact isInk_of_isDigit hdigit
  · decide

theorem isInk_numbered {stem : Text} (h : stem.all isInk = true) (n : Int) :
    ∀ c ∈ stem ++ Numeral.decimal n, isInk c = true :=
  List.forall_mem_append.mpr ⟨List.all_eq_true.mp h, isInk_decimal n⟩

theorem isDigits_falseLabel (n : Int) : Text.isDigits (falseLabel n) = false := rfl

theorem isDigits_continueLabel (n : Int) : Text.isDigits (continueLabel n) = false := rfl

theorem readable_comparisonLines {jump : Text} (hjump : Readable [.compute ("D;".toList ++ jump)])
    (n : Int) : Readable (comparisonLines jump n) := by
  have hfalse : ∀ c ∈ falseLabel n, isInk c = true := isInk_numbered rfl n
  have hcontinue : ∀ c ∈ continueLabel n, isInk c = true := isInk_numbered rfl n
  refine .append (.append (.append (.append (.append (.append (.append (.append ?_ ?_) ?_) ?_) ?_)
    ?_) ?_) ?_) ?_
  · decide
  · decide
  · exact .cons ⟨Line.isClear_address hfalse, isPlain_symbol (isDigits_falseLabel n)⟩ hjump
  · decide
  · exact .cons ⟨Line.isClear_address hcontinue, isPlain_symbol (isDigits_continueLabel n)⟩
      (by decide)
  · decide
  · exact .cons ⟨Line.isClear_label hfalse, trivial⟩ (by decide)
  · decide
  · exact .cons ⟨Line.isClear_label hcontinue, trivial⟩ (by decide)

theorem readable_arithmetic (op : Arithmetic) (n : Int) : Readable (op.lines n) := by
  cases op with
  | eq | gt | lt => exact readable_comparisonLines (by decide) n
  | add | sub | and | or | not | neg => exact of_decide_eq_true rfl

theorem readable_pointerRegister (index : Nat) : Readable [pointerRegister index] := by
  unfold pointerRegister
  split <;> decide

theorem readable_value (s : Segment) (index : Nat) : Readable (s.valueLines index) := by
  have hnumber := readable_number index
  cases s with
  | constant => exact .append hnumber (by decide)
  | based base =>
    exact .append (.append (.append (by cases base <;> decide) (by decide)) hnumber) (by decide)
  | temp => exact .append (.append (by decide) hnumber) (by decide)
  | pointer => exact .append (readable_pointerRegister index) (by decide)
  | static =>
    rw [Segment.valueLines, number_static]
    exact .append (readable_number _) (by decide)

theorem readable_address {s : Segment} {index : Nat} {address : List Line}
    (h : s.addressLines? index = some address) : Readable address := by
  have hnumber := readable_number index
  cases s with
  | constant => cases h
  | based base =>
    cases h
    exact .append (.append (.append (by cases base <;> decide) (by decide)) hnumber) (by decide)
  | temp =>
    cases h
    exact .append (.append (by decide) hnumber) (by decide)
  | pointer =>
    cases h
    exact .append (readable_pointerRegister index) (by decide)
  | static =>
    cases h
    rw [number_static]
    exact .append (readable_number _) (by decide)

theorem readable_of_codes {labels : Nat} {op : Operation} {code : List Line}
    (h : Codes labels op code) : Readable code := by
  cases h with
  | arithmetic op => exact readable_arithmetic op labels
  | push hadmits => exact .append (readable_value _ _) (by decide)
  | pop hadmits haddress => exact .append (readable_address haddress) (by decide)
  | skip hskip => decide

theorem readable_of_lowers {labels : Nat} {ops : List Operation} {code : List Line}
    (h : Lowers labels ops code) : Readable code := by
  induction h with
  | nil labels => decide
  | cons hcodes _ ih => exact (readable_of_codes hcodes).append ih

/-! ### Sizes -/

/-- How many of the lines are instructions. -/
def lineCount (code : List Line) : Nat := code.countP fun l => !l.isDeclaration

theorem lineCount_append (code rest : List Line) :
    lineCount (code ++ rest) = lineCount code + lineCount rest :=
  List.countP_append

theorem lineCount_of_codes {labels : Nat} {op : Operation} {code : List Line}
    (h : Codes labels op code) : lineCount code = op.size := by
  cases h with
  | arithmetic op => cases op <;> rfl
  | @push s index hadmits =>
    rw [Operation.size, Segment.ofText?_name]
    cases s <;> rfl
  | @pop s index address hadmits haddress =>
    rw [Operation.size, Segment.ofText?_name]
    cases s <;> cases haddress <;> rfl
  | @skip op hskip =>
    cases op with
    | arithmetic _ | push _ _ | pop _ _ => cases hskip
    | _ => rfl

theorem lineCount_of_lowers {labels : Nat} {ops : List Operation} {code : List Line}
    (h : Lowers labels ops code) : lineCount code = codeSize ops := by
  induction h with
  | nil labels => rfl
  | cons hcodes _ ih => rw [lineCount_append, lineCount_of_codes hcodes, ih]; rfl

/-- What the writer counts are the lines that are instructions. -/
theorem instructionCount_of_readable {code : List Line} (h : Readable code) :
    instructionCount (code.map Line.render) = lineCount code := by
  rw [instructionCount, lineCount, List.countP_map]
  refine List.countP_congr fun l hl => ?_
  rw [Function.comp_apply, (h l hl).1.isLabel]

theorem length_instructionLines (n : Nat) (code : List Line) :
    (instructionLines (numberFrom n code)).length = lineCount code := by
  induction code generalizing n with
  | nil => rfl
  | cons l more ih =>
    have := ih (n + 1)
    cases hl : l.isDeclaration <;>
      simp_all [instructionLines, numberFrom, lineCount]

theorem length_filterMap_operation? {code : List Line} (h : Readable code) (value : Text → Nat) :
    (code.filterMap (Line.operation? value)).length = lineCount code := by
  induction code with
  | nil => rfl
  | cons l more ih =>
    have hmore := ih fun l' hl' => h l' (List.mem_cons_of_mem l hl')
    have hl := (h l (List.mem_cons_self ..)).2
    cases l with
    | label name =>
      rw [List.filterMap_cons_none rfl, hmore]
      rfl
    | address operand => simpa [Line.operation?, lineCount, Line.isDeclaration] using hmore
    | compute text =>
      obtain ⟨i, hi⟩ := hl.decode
      simpa [Line.operation?, lineCount, Line.isDeclaration, hi, Except.toOption] using hmore

/-! ### Labels -/

theorem falseLabel_inj {m n : Nat} (h : falseLabel m = falseLabel n) : m = n :=
  Numeral.decimal_natCast_inj (List.append_cancel_left h)

theorem continueLabel_inj {m n : Nat} (h : continueLabel m = continueLabel n) : m = n :=
  Numeral.decimal_natCast_inj (List.append_cancel_left h)

theorem falseLabel_ne_continueLabel (m n : Int) : falseLabel m ≠ continueLabel n := by
  intro h
  have hhead : some 'F' = some 'C' := congrArg List.head? h
  exact absurd hhead (by decide)

/-- The two labels with a number. -/
def labelPair (n : Nat) : List Text := [falseLabel n, continueLabel n]

theorem mem_labelPair {n : Nat} {name : Text} :
    name ∈ labelPair n ↔ name = falseLabel n ∨ name = continueLabel n := by
  simp [labelPair]

theorem nodup_labelPair (n : Nat) : (labelPair n).Nodup := by
  simpa [labelPair] using falseLabel_ne_continueLabel n n

/-- Labels with different numbers are different. -/
theorem disjoint_labelPair {m n : Nat} (h : m ≠ n) : (labelPair m).Disjoint (labelPair n) := by
  intro name hm hn
  rw [mem_labelPair] at hm hn
  rcases hm with rfl | rfl <;> rcases hn with hn | hn
  · exact h (falseLabel_inj hn)
  · exact falseLabel_ne_continueLabel _ _ hn
  · exact falseLabel_ne_continueLabel _ _ hn.symm
  · exact h (continueLabel_inj hn)

theorem isDigits_of_mem_labelPair {n : Nat} {name : Text} (h : name ∈ labelPair n) :
    Text.isDigits name = false := by
  rcases mem_labelPair.mp h with rfl | rfl
  · exact isDigits_falseLabel n
  · exact isDigits_continueLabel n

/-- The labels that code declares, in order. -/
def declared (code : List Line) : List Text :=
  code.filterMap fun
    | .label name => some name
    | _ => none

theorem mem_declared {code : List Line} {name : Text} :
    name ∈ declared code ↔ Line.label name ∈ code := by
  rw [declared, List.mem_filterMap]
  constructor
  · rintro ⟨l, hl, hname⟩
    cases l with
    | label other => cases hname; exact hl
    | address _ | compute _ => cases hname
  · exact fun h => ⟨_, h, rfl⟩

theorem declared_append (code rest : List Line) :
    declared (code ++ rest) = declared code ++ declared rest :=
  List.filterMap_append

/-- Only a comparison declares labels, its own two. -/
theorem declared_of_codes {labels : Nat} {op : Operation} {code : List Line}
    (h : Codes labels op code) :
    declared code = (List.range' labels op.labelCount).flatMap labelPair := by
  cases h with
  | arithmetic op => cases op <;> rfl
  | @push s index hadmits => cases s <;> rfl
  | @pop s index address hadmits haddress => cases s <;> cases haddress <;> rfl
  | skip hskip => rw [labelCount_of_isCompiled hskip]; rfl

/-- **The labels of code** are those of its comparisons, which carry the numbers from the first
on. -/
theorem declared_of_lowers {labels : Nat} {ops : List Operation} {code : List Line}
    (h : Lowers labels ops code) :
    declared code = (List.range' labels (comparisons ops)).flatMap labelPair := by
  induction h with
  | nil labels => rfl
  | cons hcodes _ ih =>
    rw [declared_append, declared_of_codes hcodes, ih, comparisons_cons, ← List.flatMap_append,
      ← List.range'_append_1]

theorem label_mem_lowers {labels : Nat} {ops : List Operation} {code : List Line}
    (h : Lowers labels ops code) {name : Text} (hmem : Line.label name ∈ code) :
    ∃ n, labels ≤ n ∧ name ∈ labelPair n := by
  rw [← mem_declared, declared_of_lowers h] at hmem
  obtain ⟨n, hn, hname⟩ := List.mem_flatMap.mp hmem
  exact ⟨n, (List.mem_range'_1.mp hn).1, hname⟩

/-! ### What operands stand for -/

/-- Numbers stand for themselves, and the symbols of the machine for their addresses. -/
structure Grounded (value : Text → Nat) : Prop where
  number (n : Nat) : value (Numeral.decimal n) = n
  symbol {name : Text} {a : Nat} : predefined.lookup name = some a → value name = a

namespace Grounded

variable {value : Text → Nat} (hvalue : Grounded value)

include hvalue

theorem stack : value "SP".toList = 0 := hvalue.symbol rfl

theorem scratch : value "R13".toList = 13 := hvalue.symbol rfl

theorem base (base : Base) : value base.symbol = base.register.toNat := by
  cases base <;> exact hvalue.symbol rfl

theorem pointer (index : Nat) :
    value (if (index : Int) == 0 then Base.this.symbol else Base.that.symbol) =
      if index = 0 then 3 else 4 := by
  have hthis : value Base.this.symbol = 3 := hvalue.base .this
  have hthat : value Base.that.symbol = 4 := hvalue.base .that
  by_cases hzero : index = 0 <;> simp [hzero, hthis, hthat]

theorem static (index : Nat) : value (Numeral.decimal (staticBase + index)) = 16 + index := by
  have hnumber : Numeral.decimal (staticBase + index) = Numeral.decimal (16 + index : Nat) :=
    Line.address.inj (number_static index)
  rw [hnumber, hvalue.number]

end Grounded

/-- The labels of the comparisons stand for their places, when the code of the operations starts
with the instruction `p`. -/
def Placed (value : Text → Nat) : Nat → Nat → List Operation → Prop
  | _, _, [] => True
  | labels, p, op :: more =>
    (op.labelCount = 1 →
      value (falseLabel labels) = p + 12 ∧ value (continueLabel labels) = p + 15) ∧
    Placed value (labels + op.labelCount) (p + op.size) more

theorem valueOf_of_lookup {table : SymbolTable} {name : Text} {a : Nat}
    (hname : Text.isDigits name = false) (h : table.known.lookup name = some a) :
    table.valueOf name = a := by
  rw [SymbolTable.valueOf, hname, SymbolTable.value, h]
  rfl

/-- The names of the machine are no numbers, and no label of a comparison looks like them. -/
theorem predefined_ne_label {name : Text} {a : Nat} (h : predefined.lookup name = some a) :
    Text.isDigits name = false ∧ ∀ n : Int, name ≠ falseLabel n ∧ name ≠ continueLabel n := by
  obtain ⟨before, after, hsplit, -⟩ := List.lookup_eq_some_iff.mp h
  have hmem : (name, a) ∈ predefined := by simp [hsplit]
  have hall : ∀ e ∈ predefined, Text.isDigits e.1 = false ∧
      e.1.take 5 ≠ "FALSE".toList ∧ e.1.take 8 ≠ "CONTINUE".toList := by decide
  obtain ⟨hdigits, hfalse, hcontinue⟩ := hall _ hmem
  refine ⟨hdigits, fun n => ⟨?_, ?_⟩⟩
  · rintro rfl
    exact hfalse rfl
  · rintro rfl
    exact hcontinue rfl

/-- The names of the machine are neither numbers nor labels of comparisons. -/
theorem predefined_name {name : Text} {a : Nat} (h : predefined.lookup name = some a) :
    Text.isDigits name = false ∧ ∀ n : Nat, name ∉ labelPair n := by
  obtain ⟨hdigits, hne⟩ := predefined_ne_label h
  refine ⟨hdigits, fun n hlabel => ?_⟩
  rcases mem_labelPair.mp hlabel with hname | hname
  · exact (hne n).1 hname
  · exact (hne n).2 hname

/-- Code that declares no label but those of comparisons leaves the names of the machine alone. -/
theorem grounded_of_labels {code : List Line}
    (h : ∀ name, Line.label name ∈ code → ∃ n : Int, name = falseLabel n ∨ name = continueLabel n) :
    Grounded (tableOf code).valueOf where
  number n := by
    rw [SymbolTable.valueOf, if_pos (Numeral.isDigits_decimal n), Numeral.decimal_natCast,
      Nat.ofDigitChars_ten_toDigits]
  symbol {name a} hname := by
    obtain ⟨hdigits, hne⟩ := predefined_ne_label hname
    refine valueOf_of_lookup hdigits ?_
    refine (lookup_labelsOnto (fun l hl heq => ?_) _ _).trans hname
    have hmem : Line.label name ∈ code := heq ▸ line_mem_of_mem_numberFrom hl
    obtain ⟨n, hlabel | hlabel⟩ := h name hmem
    · exact (hne n).1 hlabel
    · exact (hne n).2 hlabel

theorem grounded_of_lowers {labels : Nat} {ops : List Operation} {code : List Line}
    (h : Lowers labels ops code) : Grounded (tableOf code).valueOf := by
  refine grounded_of_labels fun name hmem => ?_
  obtain ⟨n, -, hlabel⟩ := label_mem_lowers h hmem
  exact ⟨n, mem_labelPair.mp hlabel⟩

/-- A comparison declares its two labels, twelve and fifteen instructions behind its start. -/
theorem labelsOnto_comparison {op : Arithmetic} (h : op.isComparison = true) (number : Int)
    (table : Symbols) (count n : Nat) :
    labelsOnto table count (numberFrom n (op.lines number)) =
      (continueLabel number, count + 15) :: (falseLabel number, count + 12) :: table := by
  cases op with
  | eq | gt | lt => rfl
  | add | sub | and | or | not | neg => cases h

/-- **The labels of a comparison** stand twelve and fifteen instructions behind its start. No
later command declares them again. -/
theorem placed_of_lowers {labels : Nat} {ops : List Operation} {code : List Line}
    (h : Lowers labels ops code) {value : Text → Nat} (table : Symbols) (count n : Nat)
    (hvalue : ∀ name a, Text.isDigits name = false →
      (labelsOnto table count (numberFrom n code)).lookup name = some a → value name = a) :
    Placed value labels count ops := by
  induction h generalizing table count n with
  | nil labels => trivial
  | @cons labels op more code rest hcodes hlowers ih =>
    rw [numberFrom_append, labelsOnto_append, length_instructionLines, lineCount_of_codes hcodes]
      at hvalue
    refine ⟨fun hlabel => ?_, ih _ _ _ hvalue⟩
    -- the code behind only declares labels with larger numbers
    have hkept {name : Text} (hname : name ∈ labelPair labels) :
        ∀ l ∈ numberFrom (n + code.length) rest, l.line ≠ .label name := by
      intro l hl heq
      have hmem : Line.label name ∈ rest := heq ▸ line_mem_of_mem_numberFrom hl
      obtain ⟨m, hm, hmname⟩ := label_mem_lowers hlowers hmem
      exact disjoint_labelPair (show labels ≠ m by omega) hname hmname
    have hown : labelsOnto table count (numberFrom n code) =
        (continueLabel labels, count + 15) :: (falseLabel labels, count + 12) :: table := by
      cases hcodes with
      | arithmetic op =>
        cases op with
        | eq | gt | lt => exact labelsOnto_comparison rfl labels table count n
        | add | sub | and | or | not | neg => cases hlabel
      | push _ | pop _ _ => cases hlabel
      | skip hskip => rw [labelCount_of_isCompiled hskip] at hlabel; cases hlabel
    constructor
    · refine hvalue _ _ (isDigits_falseLabel labels) ?_
      rw [lookup_labelsOnto (hkept (mem_labelPair.mpr (.inl rfl))), hown, List.lookup_cons,
        beq_eq_false_iff_ne.mpr (falseLabel_ne_continueLabel labels labels), List.lookup_cons_self]
    · refine hvalue _ _ (isDigits_continueLabel labels) ?_
      rw [lookup_labelsOnto (hkept (mem_labelPair.mpr (.inr rfl))), hown, List.lookup_cons_self]

theorem placed_tableOf {ops : List Operation} {code : List Line} (h : Lowers 0 ops code) :
    Placed (tableOf code).valueOf 0 0 ops :=
  placed_of_lowers h predefined 0 1 fun _ _ hname hlookup => valueOf_of_lookup hname hlookup

/-! ### Addresses that fit -/

/-- The index of a segment with a base fits into an instruction. -/
def Segment.IndexFits (index : Nat) : Segment → Prop
  | .based _ => index ≤ largestValue
  | _ => True

instance (index : Nat) : DecidablePred (Segment.IndexFits index)
  | .based _ => inferInstanceAs (Decidable (index ≤ largestValue))
  | .constant | .temp | .pointer | .static => inferInstanceAs (Decidable True)

/-- The index of a move fits into an instruction. -/
def Operation.IndexFits : Operation → Prop
  | .push name index | .pop name index => ∀ s ∈ Segment.ofText? name, s.IndexFits index
  | _ => True

instance : DecidablePred Operation.IndexFits
  | .push name index | .pop name index =>
    inferInstanceAs (Decidable (∀ s ∈ Segment.ofText? name, s.IndexFits index))
  | .arithmetic _ | .label _ | .goto _ | .ifGoto _ | .function _ _ | .call _ _ | .ret =>
    inferInstanceAs (Decidable True)

/-- All addresses in the code of an operation fit into an instruction, when it starts with the
instruction `p`: those of a comparison go up to its end. -/
def Operation.FitsAt (p : Nat) (op : Operation) : Prop :=
  op.IndexFits ∧ (op.labelCount = 1 → p + op.size ≤ largestValue)

instance (p : Nat) (op : Operation) : Decidable (op.FitsAt p) :=
  inferInstanceAs (Decidable (_ ∧ _))

/-- Without labels, it does not matter where an operation starts. -/
theorem Operation.fitsAt_iff {op : Operation} (h : op.labelCount = 0) (p : Nat) :
    op.FitsAt p ↔ op.IndexFits :=
  and_iff_left fun hlabel => absurd (h.symm.trans hlabel) (by decide)

/-- The same for operations one behind the other. -/
def FitAt : Nat → List Operation → Prop
  | _, [] => True
  | p, op :: more => op.FitsAt p ∧ FitAt (p + op.size) more

instance decidableFitAt : (p : Nat) → (ops : List Operation) → Decidable (FitAt p ops)
  | _, [] => inferInstanceAs (Decidable True)
  | p, op :: more =>
    have := decidableFitAt (p + op.size) more
    inferInstanceAs (Decidable (op.FitsAt p ∧ FitAt (p + op.size) more))

/-- In code that is not too long all labels fit. -/
theorem fitAt_of_le {p : Nat} {ops : List Operation} (hindex : ∀ op ∈ ops, op.IndexFits)
    (hsize : p + codeSize ops ≤ largestValue) : FitAt p ops := by
  induction ops generalizing p with
  | nil => trivial
  | cons op more ih =>
    have hsum : codeSize (op :: more) = op.size + codeSize more := rfl
    refine ⟨⟨hindex op (List.mem_cons_self ..), fun _ => by omega⟩, ih ?_ (by omega)⟩
    exact fun op' hop' => hindex op' (List.mem_cons_of_mem op hop')

/-- The operands of the addresses in code. -/
def operands (code : List Line) : List Text :=
  code.filterMap fun
    | .address operand => some operand
    | _ => none

theorem mem_operands {code : List Line} {operand : Text} :
    operand ∈ operands code ↔ Line.address operand ∈ code := by
  rw [operands, List.mem_filterMap]
  constructor
  · rintro ⟨l, hl, hoperand⟩
    cases l with
    | address other => cases hoperand; exact hl
    | label _ | compute _ => cases hoperand
  · exact fun h => ⟨_, h, rfl⟩

theorem operands_append (code rest : List Line) :
    operands (code ++ rest) = operands code ++ operands rest :=
  List.filterMap_append

theorem operands_comparisonLines (jump : Text) (n : Int) :
    operands (comparisonLines jump n) = ["SP".toList, falseLabel n, "SP".toList, continueLabel n,
      "SP".toList] :=
  rfl

/-- The operands in the code for a cell of a segment. -/
def Segment.operands (index : Int) : Segment → List Text
  | .constant => [Numeral.decimal index]
  | .based base => [base.symbol, Numeral.decimal index]
  | .temp => ["R5".toList, Numeral.decimal index]
  | .pointer => [if index == 0 then Base.this.symbol else Base.that.symbol]
  | .static => [Numeral.decimal (staticBase + index)]

theorem operands_value (s : Segment) (index : Int) :
    operands (s.valueLines index) = s.operands index := by
  cases s <;> rfl

theorem operands_address {s : Segment} {index : Int} {address : List Line}
    (h : s.addressLines? index = some address) : operands address = s.operands index := by
  cases s <;> cases h <;> rfl

section Fits

variable {value : Text → Nat} (hvalue : Grounded value)

include hvalue

/-- The addresses in the code for a cell. -/
theorem fits_cell {s : Segment} {index : Nat} (hadmits : s.Admits index) :
    (∀ operand ∈ s.operands index, value operand ≤ largestValue) ↔ s.IndexFits index := by
  have hindex := hvalue.number index
  cases s with
  | constant =>
    have hle := hadmits _ rfl
    rw [Segment.operands, List.forall_mem_singleton, hindex]
    exact ⟨fun _ => trivial, fun _ => Int.ofNat_le.mp hle⟩
  | based base =>
    rw [Segment.operands, List.forall_mem_cons, List.forall_mem_singleton, hindex, hvalue.base]
    exact and_iff_right (by cases base <;> decide)
  | temp =>
    have hle := hadmits _ rfl
    rw [Segment.operands, List.forall_mem_cons, List.forall_mem_singleton, hindex,
      hvalue.symbol (a := 5) rfl]
    exact ⟨fun _ => trivial, fun _ => ⟨by decide, by unfold largestValue; omega⟩⟩
  | pointer =>
    rw [Segment.operands, List.forall_mem_singleton, hvalue.pointer]
    exact ⟨fun _ => trivial, fun _ => by split <;> decide⟩
  | static =>
    have hle := hadmits _ rfl
    rw [Segment.operands, List.forall_mem_singleton, hvalue.static]
    exact ⟨fun _ => trivial, fun _ => by unfold largestValue; omega⟩

/-- The addresses in the code of an arithmetic command: a comparison jumps to its end at most. -/
theorem fits_arithmetic (op : Arithmetic) {labels : Int} {p : Nat}
    (hplaced : (Operation.arithmetic op).labelCount = 1 →
      value (falseLabel labels) = p + 12 ∧ value (continueLabel labels) = p + 15) :
    (∀ operand ∈ operands (op.lines labels), value operand ≤ largestValue) ↔
      (Operation.arithmetic op).FitsAt p := by
  have hstack : value "SP".toList ≤ largestValue := by
    rw [hvalue.stack]; decide
  cases op with
  | eq | gt | lt =>
    obtain ⟨hfalse, hcontinue⟩ := hplaced rfl
    simp only [Arithmetic.lines, operands_comparisonLines, List.forall_mem_cons, hfalse, hcontinue]
    constructor
    · rintro ⟨-, -, -, hend, -⟩
      exact ⟨trivial, fun _ => hend⟩
    · rintro ⟨-, hend⟩
      have hend : p + 15 ≤ largestValue := hend rfl
      exact ⟨hstack, by omega, hstack, hend, hstack, by simp⟩
  | add | sub | and | or | not | neg =>
    rw [Operation.fitsAt_iff rfl]
    exact ⟨fun _ => trivial, fun _ => List.forall_mem_singleton.mpr hstack⟩

/-- An operation has code with addresses that fit just where it fits. -/
theorem fits_of_codes {labels p : Nat} {op : Operation} {code : List Line}
    (h : Codes labels op code)
    (hplaced : op.labelCount = 1 →
      value (falseLabel labels) = p + 12 ∧ value (continueLabel labels) = p + 15) :
    (∀ operand ∈ operands code, value operand ≤ largestValue) ↔ op.FitsAt p := by
  have hstack : value "SP".toList ≤ largestValue := by
    rw [hvalue.stack]; decide
  have hscratch : value "R13".toList ≤ largestValue := by
    rw [hvalue.scratch]; decide
  cases h with
  | arithmetic op => exact fits_arithmetic hvalue op hplaced
  | @push s index hadmits =>
    have hpush : ∀ operand ∈ operands pushD, value operand ≤ largestValue :=
      List.forall_mem_cons.mpr ⟨hstack, List.forall_mem_singleton.mpr hstack⟩
    rw [operands_append, List.forall_mem_append, and_iff_left hpush, operands_value,
      fits_cell hvalue hadmits, Operation.fitsAt_iff rfl]
    simp [Operation.IndexFits]
  | @pop s index address hadmits haddress =>
    have hpop : ∀ operand ∈ operands popToD, value operand ≤ largestValue :=
      List.forall_mem_cons.mpr ⟨hscratch,
        List.forall_mem_cons.mpr ⟨hstack, List.forall_mem_singleton.mpr hscratch⟩⟩
    rw [operands_append, List.forall_mem_append, and_iff_left hpop, operands_address haddress,
      fits_cell hvalue hadmits, Operation.fitsAt_iff rfl]
    simp [Operation.IndexFits]
  | @skip op hskip =>
    rw [Operation.fitsAt_iff (labelCount_of_isCompiled hskip)]
    cases op with
    | arithmetic _ | push _ _ | pop _ _ => cases hskip
    | _ => exact ⟨fun _ => trivial, fun _ => by simp [operands]⟩

theorem fits_of_lowers {labels p : Nat} {ops : List Operation} {code : List Line}
    (h : Lowers labels ops code) (hplaced : Placed value labels p ops) :
    (∀ operand ∈ operands code, value operand ≤ largestValue) ↔ FitAt p ops := by
  induction h generalizing p with
  | nil labels => exact ⟨fun _ => trivial, fun _ => by simp [operands]⟩
  | cons hcodes _ ih =>
    rw [operands_append, List.forall_mem_append, fits_of_codes hvalue hcodes hplaced.1,
      ih hplaced.2, FitAt]

end Fits

/-! ### Compiled code in the assembler -/

/-- Compiled code has as many instructions as the compilation says. -/
theorem codeSize_of_compile {test : Bool} {source : Text} {n : Nat}
    (h : (compile test source).result = .ok n) : codeSize (operations source) = n := by
  obtain ⟨code, hlowers, -, hcount⟩ := lowers_of_compile h
  rw [hcount, instructionCount_of_readable (readable_of_lowers hlowers), lineCount_of_lowers hlowers]

/-- The assembler takes the code of operations if, and only if, all addresses in it fit. -/
theorem exists_assemble_lowers_iff {ops : List Operation} {code : List Line}
    (h : Lowers 0 ops code) :
    (∃ program, assemble (Text.ofLines (code.map Line.render)) = .ok program) ↔ FitAt 0 ops := by
  have hreadable := readable_of_lowers h
  rw [exists_assemble_iff hreadable.clear hreadable.plain,
    ← fits_of_lowers (grounded_of_lowers h) h (placed_tableOf h)]
  exact forall_congr' fun operand => by rw [mem_operands]

/-- The program made of compiled code has an instruction for each that was counted. -/
theorem size_of_assemble_lowers {ops : List Operation} {code : List Line} (h : Lowers 0 ops code)
    {program : Array Instruction}
    (hprogram : assemble (Text.ofLines (code.map Line.render)) = .ok program) :
    program.size = codeSize ops := by
  have hreadable := readable_of_lowers h
  have hops := operationsOf_assemble hreadable.clear hreadable.plain hprogram
  have hlength := congrArg List.length hops
  rw [length_filterMap_operation? hreadable, lineCount_of_lowers h] at hlength
  rw [← hlength, operationsOf, List.length_map, Array.length_toList]

/-- **What is compiled can be assembled just where it fits.** The assembler takes what a successful
compilation has written if, and only if, each index of a segment with a base fits into an
instruction, and each comparison ends where an instruction can still jump to. What it makes then
has as many instructions as the compilation has counted. -/
theorem assemble_compile_iff_fitAt {test : Bool} {source : Text} {n : Nat}
    (h : (compile test source).result = .ok n) :
    ((∃ program, assemble (compile test source).text = .ok program) ↔
      FitAt 0 (operations source)) ∧
    ∀ program, assemble (compile test source).text = .ok program → program.size = n := by
  obtain ⟨code, hlowers, htext, -⟩ := lowers_of_compile h
  rw [htext, ← codeSize_of_compile h]
  exact ⟨exists_assemble_lowers_iff hlowers, fun program => size_of_assemble_lowers hlowers⟩

/-- The largest index that fits is compiled into ten instructions, and they are assembled. -/
theorem assemble_compile_local_32767 :
    (compile false "push local 32767".toList).result = .ok 10 ∧
      FitAt 0 (operations "push local 32767".toList) ∧
      ∃ program, assemble (compile false "push local 32767".toList).text = .ok program ∧
        program.size = 10 := by
  have hcompile : (compile false "push local 32767".toList).result = .ok 10 := rfl
  have hfits : FitAt 0 (operations "push local 32767".toList) := by
    have hops : operations "push local 32767".toList = [.push "local".toList 32767] := rfl
    rw [hops]
    decide
  obtain ⟨hiff, hsize⟩ := assemble_compile_iff_fitAt hcompile
  obtain ⟨program, hprogram⟩ := hiff.mpr hfits
  exact ⟨hcompile, hfits, program, hprogram, hsize program hprogram⟩

/-- The next index is compiled as well, but the assembler refuses the number on the third line. -/
theorem assemble_compile_local_32768 :
    (compile false "push local 32768".toList).result = .ok 10 ∧
      assemble (compile false "push local 32768".toList).text =
        .error (.valueTooLarge 3 32768) :=
  ⟨rfl, rfl⟩

end HackStack.Stack
