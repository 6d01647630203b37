import HackStack.Proofs.Decimals
import HackStack.Proofs.Processor
import HackStack.Proofs.Written
import Mathlib.Data.List.Forall2

/-!
# Assembling clear lines

Where all lines of a text are clear, its numbers are written plainly and its computations
can be read, the assembler fails for one reason only: an address that does not fit into
an instruction (`exists_assemble_iff`). If it does not fail, each line but for the
labels has become the operation written on it (`operationsOf_assemble`).

A label stands for the number of instructions before it, as long as no later line
declares it again (`labelsOnto_append`, `lookup_labelsOnto`).
-/

namespace HackStack.Hack

/-! ### Lines and their operations -/

/-- The operations of a program. -/
def operationsOf (program : Array Instruction) : List Operation :=
  program.toList.map (·.operation)

/-- What the operand of an address stands for: a plain number for itself, a symbol for what
the table has. -/
def SymbolTable.valueOf (table : SymbolTable) (operand : Text) : Nat :=
  if Text.isDigits operand then Nat.ofDigitChars 10 operand 0 else table.value operand

/-- The operation on a line, if it is an instruction. -/
def Line.operation? (value : Text → Nat) : Line → Option Operation
  | .label _ => none
  | .address operand => some (.address (value operand))
  | .compute text => (decode text 0).toOption.map (·.operation)

/-- A line whose number is written plainly, or whose computation can be read. -/
def Line.IsPlain : Line → Prop
  | .label _ => True
  | .address operand =>
    Text.isDigits operand = true → operand = Numeral.decimal (Nat.ofDigitChars 10 operand 0 : Nat)
  | .compute text => (decode text 0).isOk = true

instance : DecidablePred Line.IsPlain
  | .label _ => inferInstanceAs (Decidable True)
  | .address operand =>
    inferInstanceAs (Decidable (Text.isDigits operand = true → operand = Numeral.decimal _))
  | .compute text => inferInstanceAs (Decidable ((decode text 0).isOk = true))

theorem isPlain_number (n : Nat) : (Line.number n).IsPlain := by
  intro _
  rw [Numeral.decimal_natCast, Nat.ofDigitChars_ten_toDigits, Numeral.decimal_natCast]

theorem isPlain_symbol {name : Text} (h : Text.isDigits name = false) :
    (Line.address name).IsPlain :=
  fun hdigits => absurd hdigits (by simp [h])

theorem Line.IsPlain.decode {text : Text} (h : (Line.compute text).IsPlain) :
    ∃ i, Hack.decode text 0 = .ok i := by
  cases hi : Hack.decode text 0 with
  | ok i => exact ⟨i, rfl⟩
  | error e =>
    have : (Hack.decode text 0).isOk = true := h
    rw [hi] at this
    cases this

/-- The number of a line does not change what is read on it. -/
theorem decode_of_decode_zero {text : Text} {i : Instruction} (h : decode text 0 = .ok i)
    (line : Int) : decode text line = .ok ⟨i.operation, line⟩ := by
  unfold decode at h ⊢
  simp only at h ⊢
  split at h
  · cases h
  · split at h
    · cases h
    · split at h
      · cases h
      · rw [← Except.ok.inj h]

/-- A number that fits has few digits. -/
theorem length_decimal_le {n : Nat} (h : n ≤ largestValue) :
    (Numeral.decimal (n : Int)).length ≤ Numeral.digitLimit :=
  Numeral.length_decimal_of_lt (Nat.lt_of_le_of_lt h (by decide))

section Instruction

variable (table : SymbolTable) (n : Nat) {l : Line}

/-- A line whose address fits becomes its operation. -/
theorem instruction_of_le (hplain : l.IsPlain)
    (hfits : ∀ operand, l = .address operand → table.valueOf operand ≤ largestValue)
    {op : Operation} (hop : l.operation? table.valueOf = some op) :
    table.instruction ⟨n, l⟩ = .ok ⟨op, n⟩ := by
  cases l with
  | label name => cases hop
  | compute text =>
    obtain ⟨i, hi⟩ := hplain.decode
    simp only [Line.operation?, hi, Except.toOption, Option.map_some, Option.some.injEq] at hop
    subst hop
    exact decode_of_decode_zero hi n
  | address operand =>
    have hle := hfits operand rfl
    cases hop
    have hvalue : table.operand operand = .ok (table.valueOf operand) := by
      unfold SymbolTable.operand
      split
      · rename_i hdigits
        rw [SymbolTable.valueOf, if_pos hdigits] at hle ⊢
        rw [hplain hdigits, Numeral.read_decimal,
          if_neg (Nat.not_lt.mpr (length_decimal_le hle)), ← hplain hdigits]
        rfl
      · rename_i hdigits
        rw [SymbolTable.valueOf, if_neg hdigits]
    simp only [SymbolTable.instruction, hvalue]
    rw [if_neg (Nat.not_lt.mpr hle)]

/-- A line whose address does not fit is at fault. -/
theorem instruction_of_lt {operand : Text} (hplain : (Line.address operand).IsPlain)
    (hlarge : largestValue < table.valueOf operand) :
    ∃ e, table.instruction ⟨n, .address operand⟩ = .error e := by
  cases hoperand : table.operand operand with
  | error e => exact ⟨e, by simp only [SymbolTable.instruction, hoperand]⟩
  | ok value =>
    have hvalue : value = table.valueOf operand := by
      unfold SymbolTable.operand at hoperand
      split at hoperand
      · rename_i hdigits
        rw [SymbolTable.valueOf, if_pos hdigits]
        rw [hplain hdigits, Numeral.read_decimal] at hoperand
        split at hoperand
        · cases hoperand
        · exact (Except.ok.inj hoperand).symm
      · rename_i hdigits
        rw [SymbolTable.valueOf, if_neg hdigits]
        exact (Except.ok.inj hoperand).symm
    simp only [SymbolTable.instruction, hoperand]
    rw [if_pos (hvalue ▸ hlarge)]
    exact ⟨_, rfl⟩

end Instruction

theorem loadsWord_of_decode {text : Text} {line : Int} {i : Instruction}
    (h : decode text line = .ok i) : i.operation.LoadsWord := by
  unfold decode at h
  simp only at h
  split at h
  · cases h
  · split at h
    · cases h
    · split at h
      · cases h
      · rw [← Except.ok.inj h]
        trivial

theorem loadsWord_of_instruction {table : SymbolTable} {l : SourceLine} {i : Instruction}
    (h : table.instruction l = .ok i) : i.operation.LoadsWord := by
  unfold SymbolTable.instruction at h
  split at h
  · split at h
    · cases h
    · split at h
      · cases h
      · rename_i value _ hle
        rw [← Except.ok.inj h]
        exact Nat.lt_of_le_of_lt (Nat.le_of_not_lt hle) (by decide)
  · exact loadsWord_of_decode h

/-! ### Whole texts -/

section MapM

variable {α β ε : Type} {f : α → Except ε β}

/-- A list is read without a fault if each of its members is. -/
theorem mapM_eq_ok_iff {xs : List α} {ys : List β} :
    xs.mapM f = .ok ys ↔ List.Forall₂ (fun x y => f x = .ok y) xs ys := by
  induction xs generalizing ys with
  | nil =>
    rw [List.mapM_nil, List.forall₂_nil_left_iff]
    exact ⟨fun h => (Except.ok.inj h).symm, fun h => h ▸ rfl⟩
  | cons x xs ih =>
    rw [List.mapM_cons, List.forall₂_cons_left_iff]
    cases hx : f x with
    | error e => exact ⟨nofun, fun ⟨_, _, h, _⟩ => nomatch h⟩
    | ok y =>
      constructor
      · intro h
        cases hxs : xs.mapM f with
        | error e => rw [hxs] at h; cases h
        | ok rest =>
          rw [hxs] at h
          cases h
          exact ⟨y, rest, rfl, ih.mp hxs, rfl⟩
      · rintro ⟨z, rest, hz, hrest, rfl⟩
        cases hz
        rw [ih.mpr hrest]
        rfl

theorem exists_ok_of_mapM {xs : List α} {ys : List β} (h : xs.mapM f = .ok ys) :
    ∀ x ∈ xs, ∃ y, f x = .ok y := by
  have hall := mapM_eq_ok_iff.mp h
  intro x hx
  obtain ⟨i, hi, rfl⟩ := List.getElem_of_mem hx
  exact ⟨_, hall.get hi (hall.length_eq ▸ hi)⟩

theorem exists_mem_of_mapM {xs : List α} {ys : List β} (h : xs.mapM f = .ok ys) :
    ∀ y ∈ ys, ∃ x ∈ xs, f x = .ok y := by
  have hall := mapM_eq_ok_iff.mp h
  intro y hy
  obtain ⟨i, hi, rfl⟩ := List.getElem_of_mem hy
  have hi' := hall.length_eq.symm ▸ hi
  exact ⟨_, List.getElem_mem hi', hall.get hi' hi⟩

end MapM

/-- What the assembler makes loads nothing wider than a word. -/
theorem loadsWord_of_assemble {source : Text} {program : Array Instruction}
    (h : assemble source = .ok program) : ∀ i ∈ program, i.operation.LoadsWord := by
  intro i hi
  rw [assemble] at h
  cases his : (instructionLines (sourceLines source)).mapM
      (SymbolTable.ofLines (sourceLines source)).instruction with
  | error e => simp only [his] at h; cases h
  | ok is =>
    simp only [his] at h
    cases h
    obtain ⟨l, -, hl⟩ := exists_mem_of_mapM his i (by simpa using hi)
    exact loadsWord_of_instruction hl

section Code

variable {code : List Line}

/-- The instructions of lines all of whose addresses fit. -/
theorem mapM_instruction (table : SymbolTable) (hplain : ∀ l ∈ code, l.IsPlain)
    (hfits : ∀ operand, Line.address operand ∈ code → table.valueOf operand ≤ largestValue)
    (n : Nat) :
    ∃ is, (instructionLines (numberFrom n code)).mapM table.instruction = .ok is ∧
      is.map (·.operation) = code.filterMap (Line.operation? table.valueOf) := by
  induction code generalizing n with
  | nil => exact ⟨[], rfl, rfl⟩
  | cons l more ih =>
    obtain ⟨is, his, hops⟩ := ih (fun l' hl' => hplain l' (List.mem_cons_of_mem l hl'))
      (fun operand hmem => hfits operand (List.mem_cons_of_mem l hmem)) (n + 1)
    have hl := hplain l (List.mem_cons_self ..)
    cases hop : l.operation? table.valueOf with
    | none =>
      have hlabel : l.isDeclaration = true := by
        cases l with
        | label name => rfl
        | address operand => cases hop
        | compute text =>
          obtain ⟨i, hi⟩ := hl.decode
          simp [Line.operation?, hi, Except.toOption] at hop
      refine ⟨is, ?_, ?_⟩
      · simpa [numberFrom, instructionLines, hlabel] using his
      · rw [hops, List.filterMap_cons_none hop]
    | some op =>
      have hlabel : l.isDeclaration = false := by
        cases l with
        | label name => cases hop
        | _ => rfl
      have hinstruction := instruction_of_le table n hl
        (fun operand heq => hfits operand (heq ▸ List.mem_cons_self ..)) hop
      refine ⟨⟨op, n⟩ :: is, ?_, ?_⟩
      · have : instructionLines (numberFrom n (l :: more)) =
            ⟨n, l⟩ :: instructionLines (numberFrom (n + 1) more) := by
          simp [numberFrom, instructionLines, hlabel]
        rw [this, List.mapM_cons, hinstruction, his]
        rfl
      · rw [List.map_cons, hops, List.filterMap_cons_some hop]

theorem mem_numberFrom {l : Line} (n : Nat) (h : l ∈ code) : ∃ k, ⟨k, l⟩ ∈ numberFrom n code := by
  induction code generalizing n with
  | nil => cases h
  | cons l' more ih =>
    rcases List.mem_cons.mp h with rfl | h
    · exact ⟨n, List.mem_cons_self ..⟩
    · obtain ⟨k, hk⟩ := ih (n + 1) h
      exact ⟨k, List.mem_cons_of_mem _ hk⟩

theorem line_mem_of_mem_numberFrom {l : SourceLine} {n : Nat} (h : l ∈ numberFrom n code) :
    l.line ∈ code := by
  induction code generalizing n with
  | nil => cases h
  | cons l' more ih =>
    rcases List.mem_cons.mp h with rfl | h
    · exact List.mem_cons_self ..
    · exact List.mem_cons_of_mem _ (ih h)

/-- The symbol table of lines. -/
def tableOf (code : List Line) : SymbolTable := SymbolTable.ofLines (numberFrom 1 code)

variable (hclear : ∀ l ∈ code, l.IsClear) (hplain : ∀ l ∈ code, l.IsPlain)

include hclear

theorem assemble_ofLines :
    assemble (Text.ofLines (code.map Line.render)) =
      ((instructionLines (numberFrom 1 code)).mapM (tableOf code).instruction).map List.toArray := by
  rw [assemble, sourceLines_ofLines hclear]
  rfl

/-- The last line need not be closed. -/
theorem assemble_intercalate :
    assemble (['\n'].intercalate (code.map Line.render)) =
      assemble (Text.ofLines (code.map Line.render)) := by
  rw [assemble, assemble, sourceLines_intercalate (isInk_of_mem_render hclear)]

include hplain

/-- **The one reason to fail**: clear and plain lines are assembled if, and only if, all their
addresses fit into an instruction. -/
theorem exists_assemble_iff :
    (∃ program, assemble (Text.ofLines (code.map Line.render)) = .ok program) ↔
      ∀ operand, Line.address operand ∈ code → (tableOf code).valueOf operand ≤ largestValue := by
  rw [assemble_ofLines hclear]
  constructor
  · rintro ⟨program, h⟩ operand hmem
    cases his : (instructionLines (numberFrom 1 code)).mapM (tableOf code).instruction with
    | error e => rw [his] at h; cases h
    | ok is =>
      obtain ⟨k, hk⟩ := mem_numberFrom 1 hmem
      obtain ⟨i, hi⟩ := exists_ok_of_mapM his ⟨k, .address operand⟩
        (List.mem_filter.mpr ⟨hk, rfl⟩)
      refine Nat.le_of_not_lt fun hlarge => ?_
      obtain ⟨e, he⟩ := instruction_of_lt (tableOf code) k (hplain _ hmem) hlarge
      rw [hi] at he
      cases he
  · intro hfits
    obtain ⟨is, his, -⟩ := mapM_instruction (tableOf code) hplain hfits 1
    exact ⟨is.toArray, by rw [his]; rfl⟩

/-- **Each line becomes its operation.** -/
theorem operationsOf_assemble {program : Array Instruction}
    (h : assemble (Text.ofLines (code.map Line.render)) = .ok program) :
    operationsOf program = code.filterMap (Line.operation? (tableOf code).valueOf) := by
  have hfits := (exists_assemble_iff hclear hplain).mp ⟨program, h⟩
  obtain ⟨is, his, hops⟩ := mapM_instruction (tableOf code) hplain hfits 1
  rw [assemble_ofLines hclear, his] at h
  rw [← hops, ← Except.ok.inj h]
  rfl

end Code

/-! ### Labels -/

theorem labelsOnto_append (table : Symbols) (count : Nat) (lines more : List SourceLine) :
    labelsOnto table count (lines ++ more) =
      labelsOnto (labelsOnto table count lines) (count + (instructionLines lines).length) more := by
  induction lines generalizing table count with
  | nil => rfl
  | cons l lines ih =>
    obtain ⟨n, line⟩ := l
    cases line with
    | label name =>
      rw [List.cons_append, labelsOnto, labelsOnto, ih]
      rfl
    | address _ | compute _ =>
      rw [List.cons_append, labelsOnto, labelsOnto, ih, Nat.add_assoc, Nat.add_comm 1]
      · rfl
      all_goals simp

/-- Lines that do not declare a name leave what it stands for. -/
theorem lookup_labelsOnto {name : Text} {lines : List SourceLine}
    (h : ∀ l ∈ lines, l.line ≠ .label name) (table : Symbols) (count : Nat) :
    (labelsOnto table count lines).lookup name = table.lookup name := by
  induction lines generalizing table count with
  | nil => rfl
  | cons l lines ih =>
    have hlines := ih fun l' hl' => h l' (List.mem_cons_of_mem l hl')
    obtain ⟨n, line⟩ := l
    cases line with
    | label other =>
      have hne : (name == other) = false :=
        beq_eq_false_iff_ne.mpr fun heq => h _ (List.mem_cons_self ..) (heq ▸ rfl)
      rw [labelsOnto, hlines, List.lookup_cons, hne]
    | address _ | compute _ => rw [labelsOnto, hlines]; simp

/-- A name that lines declare, or that is in the table already, stands for something. -/
theorem isSome_lookup_labelsOnto {name : Text} {lines : List SourceLine} {table : Symbols}
    (h : (table.lookup name).isSome = true ∨ ∃ l ∈ lines, l.line = .label name) (count : Nat) :
    ((labelsOnto table count lines).lookup name).isSome = true := by
  induction lines generalizing table count with
  | nil => exact h.resolve_right (by simp)
  | cons l lines ih =>
    obtain ⟨n, line⟩ := l
    simp only [List.mem_cons, exists_eq_or_imp] at h
    cases line with
    | label other =>
      rw [labelsOnto]
      refine ih ?_ count
      by_cases hname : name = other
      · subst hname
        rw [List.lookup_cons_self]
        exact .inl rfl
      · rw [List.lookup_cons, beq_eq_false_iff_ne.mpr hname]
        refine h.imp_right fun hlines => hlines.resolve_left fun heq => ?_
        exact hname (Line.label.inj heq).symm
    | address _ | compute _ =>
      rw [labelsOnto]
      · exact ih (h.imp_right fun hlines => hlines.resolve_left nofun) (count + 1)
      · simp

end HackStack.Hack
