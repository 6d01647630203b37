import HackStack.Hack.Machine
import HackStack.Proofs.Renumbering

/-!
# Programs without the numbers of their lines

An instruction carries the number of its line, which is named when the instruction is a
fault. Here these numbers are taken out of sources, programs and runs (`unplaced`), and
nothing that the assembler or the machine does is lost with them: a source without
numbers is assembled to the program without numbers (`unplaced_assemble`), and the program
without numbers runs as the program does (`run_unplaced`).

Two texts whose lines hold the same code one after the other have the same source without
numbers. So blanks, comments and lines without code have no meaning, wherever they stand
(`Recoded`).
-/

namespace HackStack

namespace Text

/-! ### Lines with the same code -/

/-- Lines in the place of others: a line for one with the same code, and lines without code that are
put in or left out. -/
inductive Recoded : List Text → List Text → Prop
  | nil : Recoded [] []
  | replace {line line' : Text} {old new : List Text} : code line' = code line →
      Recoded old new → Recoded (line :: old) (line' :: new)
  | insert {line : Text} {old new : List Text} : code line = [] →
      Recoded old new → Recoded old (line :: new)
  | delete {line : Text} {old new : List Text} : code line = [] →
      Recoded old new → Recoded (line :: old) new

theorem Recoded.map_code {old new : List Text} (h : Recoded old new) (m n : Nat) :
    (CodeLine.numberedFrom m old).map (·.code) = (CodeLine.numberedFrom n new).map (·.code) := by
  induction h generalizing m n with
  | nil => rfl
  | @replace line line' _ _ hcode _ ih =>
    have hline : (CodeLine.ofLine? line m).toList.map (·.code) =
        (CodeLine.ofLine? line' n).toList.map (·.code) := by
      rw [CodeLine.ofLine?, CodeLine.ofLine?, hcode]
      split <;> rfl
    rw [CodeLine.numberedFrom_cons, CodeLine.numberedFrom_cons, List.map_append, List.map_append,
      hline, ih]
  | insert hvoid _ ih =>
    rw [CodeLine.numberedFrom_cons, CodeLine.ofLine?_of_void hvoid]
    exact ih m (n + 1)
  | delete hvoid _ ih =>
    rw [CodeLine.numberedFrom_cons, CodeLine.ofLine?_of_void hvoid]
    exact ih (m + 1) n

end Text

namespace Hack

/-! ### Without numbers -/

/-- A line of a source without its number. -/
def SourceLine.unplaced (l : SourceLine) : SourceLine := { l with number := 0 }

/-- An instruction without the number of its line. -/
def Instruction.unplaced (i : Instruction) : Instruction := { i with line := 0 }

/-- An error without the number of its line. -/
def AssemblyError.unplaced : AssemblyError → AssemblyError
  | .unknownComputation _ text => .unknownComputation 0 text
  | .unknownJump _ text => .unknownJump 0 text
  | .badDestination _ text => .badDestination 0 text
  | .valueTooLarge _ value => .valueTooLarge 0 value
  | .numeral e => .numeral e

/-- What comes of assembling, without the numbers of lines. -/
def unplacedResult (result : Except AssemblyError (Array Instruction)) :
    Except AssemblyError (Array Instruction) :=
  (result.map (Array.map Instruction.unplaced)).mapError AssemblyError.unplaced

/-- How a run ends, without the number of a line. -/
def Ending.unplaced : Ending → Ending
  | .fault f => .fault { f with line := 0 }
  | ending => ending

/-! ### The assembler -/

theorem labelsOnto_unplaced (table : Symbols) (count : Nat) (lines : List SourceLine) :
    labelsOnto table count (lines.map SourceLine.unplaced) = labelsOnto table count lines := by
  induction lines generalizing table count with
  | nil => rfl
  | cons l lines ih =>
    obtain ⟨number, line⟩ := l
    cases line with
    | label name => exact ih _ count
    | address _ | compute _ => exact ih table (count + 1)

theorem ofLines_unplaced (lines : List SourceLine) :
    SymbolTable.ofLines (lines.map SourceLine.unplaced) = SymbolTable.ofLines lines := by
  rw [SymbolTable.ofLines, SymbolTable.ofLines, labelsOnto_unplaced, variableNames, variableNames,
    List.filterMap_map]
  rfl

theorem instructionLines_unplaced (lines : List SourceLine) :
    instructionLines (lines.map SourceLine.unplaced) =
      (instructionLines lines).map SourceLine.unplaced :=
  List.filter_map

theorem decode_unplaced (text : Text) (line : Int) :
    decode text 0 =
      ((decode text line).map Instruction.unplaced).mapError AssemblyError.unplaced := by
  simp only [decode]
  split
  · rfl
  · split
    · rfl
    · split <;> rfl

theorem unplaced_of_operand {table : SymbolTable} {operand : Text} {e : AssemblyError}
    (h : table.operand operand = .error e) : e.unplaced = e := by
  rw [SymbolTable.operand] at h
  split at h
  · cases hread : (Numeral.read .decimal operand).map Int.toNat with
    | error e' => rw [hread] at h; cases h; rfl
    | ok value => rw [hread] at h; cases h
  · cases h

/-- **One instruction** does not depend on the number of its line. -/
theorem instruction_unplaced (table : SymbolTable) (l : SourceLine) :
    table.instruction l.unplaced =
      ((table.instruction l).map Instruction.unplaced).mapError AssemblyError.unplaced := by
  obtain ⟨number, line⟩ := l
  cases line with
  | address operand =>
    simp only [SymbolTable.instruction, SourceLine.unplaced]
    cases hoperand : table.operand operand with
    | error e => exact congrArg Except.error (unplaced_of_operand hoperand).symm
    | ok value => dsimp only; split <;> rfl
  | compute _ | label _ => exact decode_unplaced _ number

theorem mapM_unplaced (table : SymbolTable) (lines : List SourceLine) :
    (lines.map SourceLine.unplaced).mapM table.instruction =
      ((lines.mapM table.instruction).map (List.map Instruction.unplaced)).mapError
        AssemblyError.unplaced := by
  induction lines with
  | nil => rfl
  | cons l lines ih =>
    rw [List.map_cons, List.mapM_cons, List.mapM_cons, instruction_unplaced, ih]
    cases table.instruction l with
    | error e => rfl
    | ok i => cases lines.mapM table.instruction <;> rfl

/-- **A source without numbers** is assembled to the program without numbers. -/
theorem unplaced_assemble (source : Text) :
    let lines := (sourceLines source).map SourceLine.unplaced
    unplacedResult (assemble source) =
      ((instructionLines lines).mapM (SymbolTable.ofLines lines).instruction).map List.toArray := by
  intro lines
  rw [ofLines_unplaced, instructionLines_unplaced, mapM_unplaced, assemble]
  cases (instructionLines (sourceLines source)).mapM
    (SymbolTable.ofLines (sourceLines source)).instruction with
  | error e => rfl
  | ok is => simp [unplacedResult, Except.map, Except.mapError]

/-- Lines with the same code are assembled to the same but for the numbers. -/
theorem assemble_of_recoded {source source' : Text}
    (h : Text.Recoded (Text.lines source) (Text.lines source')) :
    unplacedResult (assemble source') = unplacedResult (assemble source) := by
  have hlines (source : Text) : (sourceLines source).map SourceLine.unplaced =
      ((CodeLine.numberedFrom 1 (Text.lines source)).map (·.code)).map fun code =>
        ⟨0, Line.ofCode code⟩ := by
    rw [sourceLines, List.map_map, List.map_map]
    rfl
  rw [unplaced_assemble, unplaced_assemble, hlines, hlines, h.map_code 1 1]

/-! ### The machine -/

/-- **A program without numbers** runs as the program does. -/
theorem runFrom_unplaced (program : Array Instruction) (steps limit : Nat) (m : Machine) :
    runFrom (program.map Instruction.unplaced) steps limit m =
      { runFrom program steps limit m with
        ending := (runFrom program steps limit m).ending.unplaced } := by
  induction limit generalizing steps m with
  | zero =>
    rw [runFrom, runFrom, Array.size_map]
    split <;> rfl
  | succ limit ih =>
    rw [runFrom, runFrom, Array.getElem?_map]
    cases program[m.pc]? with
    | none => rfl
    | some i =>
      have hfault : m.fault? i.unplaced = (m.fault? i).map fun f => { f with line := 0 } := by
        rw [Machine.fault?, Machine.fault?, show i.unplaced.operation = i.operation from rfl]
        split <;> rfl
      simp only [Option.map_some, hfault]
      cases m.fault? i with
      | some f => rfl
      | none => exact ih (steps + 1) (m.execute i.operation)

/-- Programs that differ in numbers of lines only run alike. -/
theorem run_unplaced {program program' : Array Instruction}
    (h : program'.map Instruction.unplaced = program.map Instruction.unplaced) (ram : Memory)
    (limit : Int) :
    (run program' ram limit).machine = (run program ram limit).machine ∧
      (run program' ram limit).steps = (run program ram limit).steps ∧
      (run program' ram limit).ending.unplaced = (run program ram limit).ending.unplaced := by
  have hrun := runFrom_unplaced program' 0 limit.toNat (.start ram)
  rw [h, runFrom_unplaced program] at hrun
  obtain ⟨hmachine, hsteps, hending⟩ := Run.mk.inj hrun
  exact ⟨hmachine.symm, hsteps.symm, hending.symm⟩

/-- **The layout of an assembly source has no meaning.** When its lines are replaced by lines with
the same code, and lines without code are put in or left out, then it is assembled or not as before,
and the errors, the programs and their runs differ in numbers of lines only. -/
theorem assemble_recoded {source source' : Text}
    (h : Text.Recoded (Text.lines source) (Text.lines source')) :
    ((∃ program', assemble source' = .ok program') ↔ ∃ program, assemble source = .ok program) ∧
    (∀ e e', assemble source = .error e → assemble source' = .error e' →
      e'.unplaced = e.unplaced) ∧
    ∀ program program', assemble source = .ok program → assemble source' = .ok program' →
      program'.map Instruction.unplaced = program.map Instruction.unplaced ∧
      ∀ ram limit,
        (run program' ram limit).steps = (run program ram limit).steps ∧
        (run program' ram limit).machine = (run program ram limit).machine ∧
        (run program' ram limit).ending.unplaced = (run program ram limit).ending.unplaced := by
  have hresult := assemble_of_recoded h
  refine ⟨?_, fun e e' he he' => ?_, fun program program' hprogram hprogram' => ?_⟩
  · cases hold : assemble source with
    | error e =>
      cases hnew : assemble source' with
      | error e' => simp
      | ok program' => rw [hold, hnew] at hresult; cases hresult
    | ok program =>
      cases hnew : assemble source' with
      | error e' => rw [hold, hnew] at hresult; cases hresult
      | ok program' => simp
  · rw [he, he'] at hresult
    exact Except.error.inj hresult
  · rw [hprogram, hprogram'] at hresult
    have hsame := Except.ok.inj hresult
    refine ⟨hsame, fun ram limit => ?_⟩
    obtain ⟨hmachine, hsteps, hending⟩ := run_unplaced hsame ram limit
    exact ⟨hsteps, hmachine, hending⟩

/-- A blank line is left out before a label and others are put in behind it: the store is still the
second instruction, and goes wrong at the same address. -/
theorem assemble_recoded_label :
    let source := "@END\n\n(END)\nM=1".toList
    let source' := "  @END // to the store\r\n(END)\u2028\u2028\n\tM=1".toList
    Text.Recoded (Text.lines source) (Text.lines source') ∧
      ∃ program program', assemble source = .ok program ∧ assemble source' = .ok program' ∧
        program'.map Instruction.unplaced = program.map Instruction.unplaced ∧
        (run program' #[] 9).steps = (run program #[] 9).steps ∧
        (run program #[] 9).ending = .fault ⟨4, 1⟩ ∧
        (run program' #[] 9).ending = .fault ⟨5, 1⟩ := by
  intro source source'
  have hlines : Text.lines source = ["@END".toList, [], "(END)".toList, "M=1".toList] := by
    decide +kernel
  have hlines' : Text.lines source' =
      ["  @END // to the store".toList, "(END)".toList, [], [], "\tM=1".toList] := by
    decide +kernel
  have hrecoded : Text.Recoded (Text.lines source) (Text.lines source') := by
    rw [hlines, hlines']
    exact .replace (by decide) (.delete (by decide) (.replace rfl (.insert (by decide)
      (.insert (by decide) (.replace (by decide) .nil)))))
  have hprogram : assemble source =
      .ok #[⟨.address 1, 1⟩, ⟨.compute [.m] .one false .never, 4⟩] := by
    decide +kernel
  have hprogram' : assemble source' =
      .ok #[⟨.address 1, 1⟩, ⟨.compute [.m] .one false .never, 5⟩] := by
    decide +kernel
  obtain ⟨-, -, hruns⟩ := assemble_recoded hrecoded
  obtain ⟨hsame, hrun⟩ := hruns _ _ hprogram hprogram'
  exact ⟨hrecoded, _, _, hprogram, hprogram', hsame, (hrun _ _).1, by decide +kernel,
    by decide +kernel⟩

end Hack

end HackStack
