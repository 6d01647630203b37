import HackStack.Proofs.Layout

/-!
# The labels of compiled code

Compiled code is closed. What an address in it refers to is a number, a symbol of the
machine, or a label that is declared further on (`closed_of_lowers`). The labels are those
of the comparisons, each declared once (`nodup_declared`), and none can be taken for a number
or a symbol of the machine. So the assembler finds every symbol in its table and makes no
variable (`variableNames_of_closed`).

None of this depends on how the compilation ends: code of which only a part was written is
closed as well, since each command has labels of its own.
-/

namespace HackStack.Stack

open Hack

/-! ### Closed code -/

/-- An operand that no line has to declare: a number, or a symbol of the machine. -/
def IsGround (operand : Text) : Prop :=
  (∃ n : Nat, operand = Numeral.decimal n) ∨ (predefined.lookup operand).isSome = true

/-- Code in which all other operands are labels that are declared further on. -/
def Closed : List Line → Prop
  | [] => True
  | l :: more =>
    (∀ operand, l = .address operand → IsGround operand ∨ Line.label operand ∈ more) ∧ Closed more

theorem closed_of_ground {code : List Line} (h : ∀ operand ∈ operands code, IsGround operand) :
    Closed code := by
  induction code with
  | nil => trivial
  | cons l more ih =>
    constructor
    · rintro operand rfl
      exact .inl (h operand (mem_operands.mpr (List.mem_cons_self ..)))
    · refine ih fun operand hoperand => h operand (mem_operands.mpr ?_)
      exact List.mem_cons_of_mem l (mem_operands.mp hoperand)

theorem Closed.append {code rest : List Line} (h : Closed code) (hrest : Closed rest) :
    Closed (code ++ rest) := by
  induction code with
  | nil => exact hrest
  | cons l more ih =>
    refine ⟨fun operand hl => ?_, ih h.2⟩
    exact (h.1 operand hl).imp_right (List.mem_append_left rest)

/-- **In closed code** a label is declared behind every line that refers to it. -/
theorem Closed.declared_behind {code : List Line} (h : Closed code) {i : Nat} {operand : Text}
    (hi : code[i]? = some (.address operand)) :
    IsGround operand ∨ ∃ j, i < j ∧ code[j]? = some (.label operand) := by
  induction code generalizing i with
  | nil => cases hi
  | cons l more ih =>
    cases i with
    | zero =>
      refine (h.1 operand (Option.some.inj hi)).imp_right fun hmem => ?_
      obtain ⟨j, hj⟩ := List.mem_iff_getElem?.mp hmem
      exact ⟨j + 1, Nat.succ_pos j, hj⟩
    | succ i =>
      refine (ih h.2 hi).imp_right ?_
      rintro ⟨j, hij, hj⟩
      exact ⟨j + 1, Nat.succ_lt_succ hij, hj⟩

/-! ### Compiled code is closed -/

theorem isGround_stack : IsGround "SP".toList := .inr rfl

theorem isGround_cell (s : Segment) (index : Nat) :
    ∀ operand ∈ s.operands index, IsGround operand := by
  have hnumber : IsGround (Numeral.decimal index) := .inl ⟨index, rfl⟩
  cases s with
  | constant => exact List.forall_mem_singleton.mpr hnumber
  | based base =>
    refine List.forall_mem_cons.mpr ⟨.inr ?_, List.forall_mem_singleton.mpr hnumber⟩
    cases base <;> rfl
  | temp => exact List.forall_mem_cons.mpr ⟨.inr rfl, List.forall_mem_singleton.mpr hnumber⟩
  | pointer =>
    refine List.forall_mem_singleton.mpr (.inr ?_)
    split <;> rfl
  | static =>
    exact List.forall_mem_singleton.mpr (.inl ⟨16 + index, Line.address.inj (number_static index)⟩)

theorem closed_comparisonLines (jump : Text) (n : Nat) : Closed (comparisonLines jump n) := by
  have hstack : IsGround ['S', 'P'] := isGround_stack
  simp [Closed, comparisonLines, popTwo, assembly, Line.ofCode, hstack]

theorem closed_of_codes {labels : Nat} {op : Operation} {code : List Line}
    (h : Codes labels op code) : Closed code := by
  cases h with
  | arithmetic op =>
    cases op with
    | eq | gt | lt => exact closed_comparisonLines _ labels
    | add | sub | and | or | not | neg =>
      exact closed_of_ground (List.forall_mem_singleton.mpr isGround_stack)
  | @push s index hadmits =>
    refine closed_of_ground ?_
    rw [operands_append, operands_value, List.forall_mem_append]
    exact ⟨isGround_cell s index,
      List.forall_mem_cons.mpr ⟨isGround_stack, List.forall_mem_singleton.mpr isGround_stack⟩⟩
  | @pop s index address hadmits haddress =>
    have hscratch : IsGround "R13".toList := .inr rfl
    refine closed_of_ground ?_
    rw [operands_append, operands_address haddress, List.forall_mem_append]
    exact ⟨isGround_cell s index, List.forall_mem_cons.mpr ⟨hscratch,
      List.forall_mem_cons.mpr ⟨isGround_stack, List.forall_mem_singleton.mpr hscratch⟩⟩⟩
  | skip hskip => trivial

theorem closed_of_lowers {labels : Nat} {ops : List Operation} {code : List Line}
    (h : Lowers labels ops code) : Closed code := by
  induction h with
  | nil labels => trivial
  | cons hcodes _ ih => exact (closed_of_codes hcodes).append ih

/-! ### Each label is declared once -/

theorem nodup_declared {labels : Nat} {ops : List Operation} {code : List Line}
    (h : Lowers labels ops code) : (declared code).Nodup := by
  rw [declared_of_lowers h, List.nodup_flatMap]
  refine ⟨fun n _ => nodup_labelPair n, ?_⟩
  exact List.Pairwise.imp disjoint_labelPair List.nodup_range'

/-- A label is neither a number nor a symbol of the machine. -/
theorem lookup_of_mem_declared {labels : Nat} {ops : List Operation} {code : List Line}
    (h : Lowers labels ops code) {name : Text} (hname : name ∈ declared code) :
    predefined.lookup name = none ∧ Text.isDigits name = false := by
  obtain ⟨n, -, hlabel⟩ := label_mem_lowers h (mem_declared.mp hname)
  constructor
  · refine Option.eq_none_iff_forall_ne_some.mpr fun a ha => ?_
    exact (predefined_name ha).2 n hlabel
  · exact isDigits_of_mem_labelPair hlabel

/-! ### Closed code has no variables -/

theorem variableNames_of_closed {code : List Line} (h : Closed code) :
    (tableOf code).variableNames = [] := by
  rw [tableOf, SymbolTable.ofLines, variableNames, List.filter_eq_nil_iff.mpr, List.eraseDups_nil]
  intro name hname
  obtain ⟨l, hl, hsymbol⟩ := List.mem_filterMap.mp hname
  obtain ⟨hline, hdigits⟩ : l.line = .address name ∧ Text.isDigits name = false := by
    cases hline : l.line with
    | label _ | compute _ => rw [hline] at hsymbol; cases hsymbol
    | address operand =>
      simp only [hline, Line.symbol?, Option.ite_none_left_eq_some, Option.some.injEq] at hsymbol
      obtain ⟨hdigits, rfl⟩ := hsymbol
      exact ⟨rfl, Bool.eq_false_iff.mpr hdigits⟩
  have hmem : Line.address name ∈ code := hline ▸ line_mem_of_mem_numberFrom hl
  obtain ⟨i, hi⟩ := List.mem_iff_getElem?.mp hmem
  have hknown : (predefined.lookup name).isSome = true ∨
      ∃ l ∈ numberFrom 1 code, l.line = .label name := by
    rcases h.declared_behind hi with (⟨n, rfl⟩ | hpredefined) | ⟨j, -, hj⟩
    · rw [Numeral.isDigits_decimal] at hdigits
      cases hdigits
    · exact .inl hpredefined
    · obtain ⟨k, hk⟩ := mem_numberFrom 1 (List.mem_of_getElem? hj)
      exact .inr ⟨_, hk, rfl⟩
  simpa using isSome_lookup_labelsOnto hknown 0

/-! ### The labels of a compilation -/

/-- **The labels of what a compilation has written**, however it ends. The assembler reads the lines
as they were written. The labels in them are those of the comparisons, in order and each declared
once, and none is a number or a symbol of the machine. An address refers to a number, to a symbol of
the machine or to a label declared on a later line, so no variable is made. The assembler finds as
many instructions as the writer has counted. -/
theorem compile_labels_closed (test : Bool) (source : Text) :
    ∃ lines : List Line,
      (compile test source).text = Text.ofLines (lines.map Line.render) ∧
      Hack.sourceLines (compile test source).text = numberFrom 1 lines ∧
      declared lines =
        (List.range (comparisons ((completed (sourceLines source)).map (·.operation)))).flatMap
          (fun n : Nat => [falseLabel n, continueLabel n]) ∧
      (declared lines).Nodup ∧
      (∀ name ∈ declared lines, predefined.lookup name = none ∧ Text.isDigits name = false) ∧
      (∀ (i : Nat) (operand : Text), lines[i]? = some (Line.address operand) →
        ((∃ n : Nat, operand = Numeral.decimal n) ∨ (predefined.lookup operand).isSome = true) ∨
          ∃ j : Nat, i < j ∧ lines[j]? = some (Line.label operand)) ∧
      (SymbolTable.ofLines (Hack.sourceLines (compile test source).text)).variableNames = [] ∧
      (instructionLines (Hack.sourceLines (compile test source).text)).length =
        (compile test source).final.writer.instructions := by
  obtain ⟨code, hlowers, htext, hwriter, -, -⟩ := lowers_of_completed test source
  have hreadable := readable_of_lowers hlowers
  have hclosed := closed_of_lowers hlowers
  have hread : Hack.sourceLines (compile test source).text = numberFrom 1 code := by
    rw [htext, sourceLines_ofLines hreadable.clear]
  refine ⟨code, htext, hread, ?_, nodup_declared hlowers,
    fun name => lookup_of_mem_declared hlowers, fun i operand => hclosed.declared_behind, ?_, ?_⟩
  · rw [declared_of_lowers hlowers, List.range_eq_range']
    rfl
  · rw [hread]
    exact variableNames_of_closed hclosed
  · rw [hread, length_instructionLines, hwriter, instructionCount_of_readable hreadable]

end HackStack.Stack
