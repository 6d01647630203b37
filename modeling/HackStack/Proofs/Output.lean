import HackStack.Proofs.Decimals
import HackStack.Stack.Compile

/-!
# What a compilation writes

The operations of a source are those of its commands, in order (`operations`). Each has
its code (`Codes`), which is what lowering gives (`lower_eq_ok_iff`), and the code of
several is one behind the other, where every comparison uses up a number for its labels
(`Lowers`).

A compilation gets as far as the first line with a fault (`faultOn?`). It writes the code
of the commands before it, warns of those without code (`lowers_of_completed`), and on
demand echoes the others with their code (`Echoes`, `echoes_of_completed`). One that
succeeds has written just the code of its operations, and its answer is the number of
instructions in there (`lowers_of_compile`).

The number of a line plays no part in what is read on it, so the operations of two
sources one behind the other are those of the one and then of the other
(`operations_append`).
-/

namespace HackStack.Stack

open Hack

/-! ### Operations and their code -/

/-- The operation of the command on a line, if there is one. -/
def operationOn? (line : CodeLine) : Option Operation :=
  match Command.parse line.code line.number with
  | .ok (some c) => some c.operation
  | _ => none

/-- The operations of the commands of a source. -/
def operations (source : Text) : List Operation := (sourceLines source).filterMap operationOn?

/-- Whether a command is compiled. The others are skipped. -/
def Operation.isCompiled : Operation → Bool
  | .arithmetic _ | .push _ _ | .pop _ _ => true
  | _ => false

/-- How many numbers for labels a command uses up. -/
def Operation.labelCount : Operation → Nat
  | .arithmetic op => if op.isComparison then 1 else 0
  | _ => 0

/-- Whether a command compares the two values on top of the stack. -/
def Operation.isComparison : Operation → Bool
  | .arithmetic op => op.isComparison
  | _ => false

/-- How many of the commands are comparisons. -/
def comparisons (ops : List Operation) : Nat := ops.countP Operation.isComparison

/-- Every comparison uses up a number. -/
theorem comparisons_cons (op : Operation) (more : List Operation) :
    comparisons (op :: more) = op.labelCount + comparisons more := by
  have hop : op.labelCount = if op.isComparison then 1 else 0 := by cases op <;> rfl
  rw [comparisons, List.countP_cons, hop, Nat.add_comm]
  rfl

/-- The number of instructions in the code of an arithmetic command. -/
def Arithmetic.size : Arithmetic → Nat
  | .add | .sub | .and | .or => 5
  | .not => 3
  | .neg => 4
  | .eq | .gt | .lt => 15

/-- The number of instructions in the code of a push. -/
def Segment.pushSize : Segment → Nat
  | .based _ | .temp => 10
  | .constant | .pointer | .static => 7

/-- The number of instructions in the code of a pop. -/
def Segment.popSize : Segment → Nat
  | .based _ | .temp => 12
  | .constant | .pointer | .static => 10

/-- The number of instructions in the code of a command. -/
def Operation.size : Operation → Nat
  | .arithmetic op => op.size
  | .push name _ => ((Segment.ofText? name).map Segment.pushSize).getD 0
  | .pop name _ => ((Segment.ofText? name).map Segment.popSize).getD 0
  | _ => 0

/-- The number of instructions in the code of several commands. -/
def codeSize : List Operation → Nat
  | [] => 0
  | op :: more => op.size + codeSize more

/-- An index within the limit of a segment, if it has one. -/
def Segment.Admits (s : Segment) (index : Int) : Prop :=
  ∀ limit, s.limit? = some limit → index ≤ limit

/-- The code of an operation, where the number is for the labels of a comparison. -/
inductive Codes (labels : Nat) : Operation → List Line → Prop
  | arithmetic (op : Arithmetic) : Codes labels (.arithmetic op) (op.lines labels)
  | push {s : Segment} {index : Nat} : s.Admits index →
      Codes labels (.push s.name index) (s.valueLines index ++ pushD)
  | pop {s : Segment} {index : Nat} {address : List Line} : s.Admits index →
      s.addressLines? index = some address → Codes labels (.pop s.name index) (address ++ popToD)
  | skip {op : Operation} : op.isCompiled = false → Codes labels op []

/-- The code of operations one behind the other. -/
inductive Lowers : Nat → List Operation → List Line → Prop
  | nil (labels : Nat) : Lowers labels [] []
  | cons {labels : Nat} {op : Operation} {more : List Operation} {code rest : List Line} :
      Codes labels op code → Lowers (labels + op.labelCount) more rest →
      Lowers labels (op :: more) (code ++ rest)

/-- What is echoed for a command with its code. A command that is skipped is not echoed. -/
def Command.echoed (c : Command) (code : List Line) : List Text :=
  if c.operation.isCompiled then c.echo (code.map Line.render) else []

/-- The code of commands one behind the other, and what is echoed with it. -/
inductive Echoes : Nat → List Command → List Line → List Text → Prop
  | nil (labels : Nat) : Echoes labels [] [] []
  | cons {labels : Nat} {c : Command} {more : List Command} {code rest : List Line}
      {echo : List Text} : Codes labels c.operation code →
      Echoes (labels + c.operation.labelCount) more rest echo →
      Echoes labels (c :: more) (code ++ rest) (c.echoed code ++ echo)

theorem Echoes.lowers {labels : Nat} {commands : List Command} {code : List Line}
    {echo : List Text} (h : Echoes labels commands code echo) :
    Lowers labels (commands.map (·.operation)) code := by
  induction h with
  | nil labels => exact .nil labels
  | cons hcodes _ ih => exact .cons hcodes ih

theorem labelCount_of_isCompiled {op : Operation} (h : op.isCompiled = false) :
    op.labelCount = 0 := by
  cases op with
  | arithmetic op => cases h
  | _ => rfl

section Moves

variable {name : Text} {index : Int} {code : List Line}

theorem checkLimit_eq_ok_iff {s : Segment} : checkLimit s.name index = .ok () ↔ s.Admits index := by
  unfold checkLimit Segment.Admits
  rw [Segment.ofText?_name, Option.bind_some]
  cases s.limit? with
  | none => simp
  | some limit =>
    simp only [Option.some.injEq, forall_eq']
    split
    · rename_i hlarge
      exact ⟨nofun, fun h => absurd hlarge (Int.not_lt.mpr h)⟩
    · rename_i hlarge
      exact ⟨fun _ => Int.not_lt.mp hlarge, fun _ => rfl⟩

/-- **The code of a push.** -/
theorem pushCode_eq_ok_iff :
    pushCode name index = .ok code ↔
      ∃ s : Segment, name = s.name ∧ s.Admits index ∧ code = s.valueLines index ++ pushD := by
  constructor
  · intro h
    unfold pushCode at h
    cases hcheck : checkLimit name index with
    | error cause => simp only [hcheck] at h; cases h
    | ok =>
      cases hname : Segment.ofText? name with
      | none => simp only [hcheck, hname] at h; cases h
      | some s =>
        simp only [hcheck, hname, Except.ok.injEq] at h
        obtain rfl := Segment.ofText?_eq_some_iff.mp hname
        exact ⟨s, rfl, checkLimit_eq_ok_iff.mp hcheck, h.symm⟩
  · rintro ⟨s, rfl, hadmits, rfl⟩
    rw [pushCode, checkLimit_eq_ok_iff.mpr hadmits, Segment.ofText?_name]

/-- **The code of a pop.** -/
theorem popCode_eq_ok_iff :
    popCode name index = .ok code ↔
      ∃ (s : Segment) (address : List Line), name = s.name ∧ s.Admits index ∧
        s.addressLines? index = some address ∧ code = address ++ popToD := by
  constructor
  · intro h
    unfold popCode addressCode at h
    split at h
    · cases h
    · cases hcheck : checkLimit name index with
      | error cause => simp only [hcheck] at h; cases h
      | ok =>
        cases hname : Segment.ofText? name with
        | none => simp only [hcheck, hname] at h; cases h
        | some s =>
          cases haddress : s.addressLines? index with
          | none => simp only [hcheck, hname, Option.bind_some, haddress] at h; cases h
          | some address =>
            simp only [hcheck, hname, Option.bind_some, haddress, Except.map,
              Except.ok.injEq] at h
            obtain rfl := Segment.ofText?_eq_some_iff.mp hname
            exact ⟨s, address, rfl, checkLimit_eq_ok_iff.mp hcheck, haddress, h.symm⟩
  · rintro ⟨s, address, rfl, hadmits, haddress, rfl⟩
    have hconstant : (s.name == Segment.constant.name) = false := by
      cases s with
      | constant => cases haddress
      | based base => cases base <;> rfl
      | temp | pointer | static => rfl
    rw [popCode, hconstant, addressCode, checkLimit_eq_ok_iff.mpr hadmits, Segment.ofText?_name,
      Option.bind_some, haddress]
    rfl

end Moves

/-- Why a move to or from a cell has no code. -/
inductive Cause.IsRefusal (name : Text) (index : Int) : Cause → Prop
  | indexTooLarge {s : Segment} {limit : Int} : name = s.name → s.limit? = some limit →
      limit < index → IsRefusal name index (.indexTooLarge name index limit)
  | unknownSegment : IsRefusal name index (.unknownSegment name)
  | popConstant : IsRefusal name index .popConstant

section Refusal

variable {name : Text} {index : Int} {cause : Cause}

theorem isRefusal_of_checkLimit (h : checkLimit name index = .error cause) :
    cause.IsRefusal name index := by
  unfold checkLimit at h
  cases hname : Segment.ofText? name with
  | none => rw [hname] at h; cases h
  | some s =>
    rw [hname, Option.bind_some] at h
    cases hlimit : s.limit? with
    | none => rw [hlimit] at h; cases h
    | some limit =>
      rw [hlimit] at h
      simp only at h
      split at h
      · rename_i hlarge
        cases h
        exact .indexTooLarge (Segment.ofText?_eq_some_iff.mp hname) hlimit hlarge
      · cases h

theorem isRefusal_of_pushCode (h : pushCode name index = .error cause) :
    cause.IsRefusal name index := by
  unfold pushCode at h
  cases hcheck : checkLimit name index with
  | error e => rw [hcheck] at h; cases h; exact isRefusal_of_checkLimit hcheck
  | ok =>
    simp only [hcheck] at h
    split at h
    · cases h
    · cases h; exact .unknownSegment

theorem isRefusal_of_popCode (h : popCode name index = .error cause) :
    cause.IsRefusal name index := by
  unfold popCode addressCode at h
  split at h
  · cases h; exact .popConstant
  · cases hcheck : checkLimit name index with
    | error e => rw [hcheck] at h; cases h; exact isRefusal_of_checkLimit hcheck
    | ok =>
      simp only [hcheck] at h
      split at h
      · cases h
      · cases h; exact .unknownSegment

/-- A refusal gives no other index than the one that is refused. -/
theorem Cause.IsRefusal.index?_eq (h : cause.IsRefusal name index) :
    cause.index? = none ∨ cause.index? = some index := by
  cases h with
  | indexTooLarge => exact .inr rfl
  | unknownSegment | popConstant => exact .inl rfl

end Refusal

/-- Lower an operation, where the number is for the labels of a comparison. What is not compiled
has no code. -/
def Operation.lower (labels : Nat) : Operation → Except Cause (List Line)
  | .arithmetic op => .ok (op.lines labels)
  | .push segment index => pushCode segment index
  | .pop segment index => popCode segment index
  | _ => .ok []

/-- **Lowering** gives an operation its code. -/
theorem lower_eq_ok_iff {labels : Nat} {op : Operation} {code : List Line} :
    op.lower labels = .ok code ↔ Codes labels op code := by
  constructor
  · intro h
    cases op with
    | arithmetic op => cases h; exact .arithmetic op
    | push segment index =>
      obtain ⟨s, rfl, hadmits, rfl⟩ := pushCode_eq_ok_iff.mp h
      exact .push hadmits
    | pop segment index =>
      obtain ⟨s, address, rfl, hadmits, haddress, rfl⟩ := popCode_eq_ok_iff.mp h
      exact .pop hadmits haddress
    | label _ | goto _ | ifGoto _ | function _ _ | call _ _ | ret => cases h; exact .skip rfl
  · intro h
    cases h with
    | arithmetic op => rfl
    | push hadmits => exact pushCode_eq_ok_iff.mpr ⟨_, rfl, hadmits, rfl⟩
    | pop hadmits haddress => exact popCode_eq_ok_iff.mpr ⟨_, _, rfl, hadmits, haddress, rfl⟩
    | @skip op hskip =>
      cases op with
      | arithmetic _ | push _ _ | pop _ _ => cases hskip
      | label _ | goto _ | ifGoto _ | function _ _ | call _ _ | ret => rfl

/-- What cannot be lowered cannot be with another number either. -/
theorem lower_of_error {op : Operation} {m : Nat} {cause : Cause} (h : op.lower m = .error cause)
    (n : Nat) : op.lower n = .error cause := by
  cases op with
  | arithmetic op => cases h
  | push _ _ | pop _ _ => exact h
  | label _ | goto _ | ifGoto _ | function _ _ | call _ _ | ret => cases h

/-! ### Numbers that were read -/

/-- An operation whose number, if it has one, is not too long to be read. -/
def Operation.IsLegible (op : Operation) : Prop :=
  ∀ i : Nat, op.operand2? = some i → (Numeral.decimal i).length ≤ Numeral.digitLimit

theorem Operation.IsLegible.isWritable {op : Operation} (h : op.IsLegible) {i : Nat}
    (hi : op.operand2? = some i) : Numeral.isWritable i = true :=
  decide_eq_true (h i hi)

theorem length_decimal_of_indexOperand {word : Text} {operands : List Text} {n : Int} {i : Nat}
    (h : indexOperand word operands n = .ok i) :
    (Numeral.decimal i).length ≤ Numeral.digitLimit := by
  unfold indexOperand at h
  split at h
  · split at h
    · cases h
    · rename_i t _ _
      unfold readIndex at h
      split at h
      · rename_i hplain
        simp only [Text.isPlainDigits, Bool.and_eq_true, List.all_eq_true] at hplain
        cases hnatural : Numeral.natural t with
        | error e => rw [hnatural] at h; cases h
        | ok j =>
          rw [hnatural] at h
          cases h
          exact Numeral.length_decimal_of_natural hplain.2 hnatural
      · cases h
  · cases h

/-- What was read can be read again. -/
theorem isLegible_of_ofWords {word : Text} {operands : List Text} {n : Int} {op : Operation}
    (h : Operation.ofWords word operands n = .ok op) : op.IsLegible := by
  unfold Operation.ofWords at h
  split at h
  · cases h; exact nofun
  · split at h
    · cases h; exact nofun
    · split at h
      · cases h
      · rename_i k _
        cases hname : nameOperand word operands n with
        | error e => rw [hname] at h; cases h
        | ok name =>
          rw [hname] at h
          have hoperation : k.operation name (indexOperand word operands n) = .ok op := h
          cases hindex : indexOperand word operands n with
          | error e => rw [hindex] at hoperation; cases k <;> cases hoperation <;> exact nofun
          | ok i =>
            rw [hindex] at hoperation
            have hlength := length_decimal_of_indexOperand hindex
            cases k <;> cases hoperation <;> intro j hj <;> cases hj <;> exact hlength

section WriteOut

variable {name : Text} {index : Int}

/-- If the index can be written, so can the integer in the code for its cell. -/
theorem isWritable_number? {s : Segment} (hadmits : s.Admits index)
    (h : Numeral.isWritable index = true) : (s.number? index).all Numeral.isWritable = true := by
  cases s with
  | constant | based | temp => exact h
  | pointer => rfl
  | static =>
    have hlimit : index ≤ 239 := hadmits 239 rfl
    by_cases hsmall : (16 + index).natAbs ≤ index.natAbs
    · exact Numeral.isWritable_of_natAbs_le hsmall h
    · exact Numeral.isWritable_of_natAbs_le (z := 255) (by show (16 + index).natAbs ≤ 255; omega)
        (by decide)

variable {code : Except Cause (List Line)}

/-- **If the index can be written**, writing out changes nothing. -/
theorem writeOut_of_isWritable (h : Numeral.isWritable index = true)
    (hbad : ∀ cause, code = .error cause → cause.IsRefusal name index)
    (hgood : ∀ lines, code = .ok lines → ∃ s : Segment, name = s.name ∧ s.Admits index) :
    writeOut name index code = code.mapError fun cause => .diagnostic ⟨cause, none⟩ := by
  cases code with
  | error cause =>
    have hindex : cause.index?.all Numeral.isWritable = true := by
      rcases (hbad cause rfl).index?_eq with hnone | hsome
      · rw [hnone]
        rfl
      · rw [hsome]
        exact h
    have hwritable : Diagnostic.isWritable ⟨cause, none⟩ = true := hindex
    rw [writeOut, Diagnostic.failure, if_pos hwritable]
    rfl
  | ok lines =>
    obtain ⟨s, rfl, hadmits⟩ := hgood lines rfl
    rw [writeOut, Segment.ofText?_name, Option.bind_some, if_pos (isWritable_number? hadmits h)]
    rfl

theorem eq_ok_of_writeOut {lines : List Line} (h : writeOut name index code = .ok lines) :
    code = .ok lines := by
  cases code with
  | error cause => cases h
  | ok lines' =>
    simp only [writeOut] at h
    split at h
    · cases h; rfl
    · cases h

theorem pushLines_of_isWritable (name : Text) (h : Numeral.isWritable index = true) :
    pushLines name index =
      (pushCode name index).mapError fun cause => .diagnostic ⟨cause, none⟩ := by
  refine writeOut_of_isWritable h (fun _ => isRefusal_of_pushCode) fun lines hlines => ?_
  obtain ⟨s, hname, hadmits, -⟩ := pushCode_eq_ok_iff.mp hlines
  exact ⟨s, hname, hadmits⟩

theorem popLines_of_isWritable (name : Text) (h : Numeral.isWritable index = true) :
    popLines name index =
      (popCode name index).mapError fun cause => .diagnostic ⟨cause, none⟩ := by
  refine writeOut_of_isWritable h (fun _ => isRefusal_of_popCode) fun lines hlines => ?_
  obtain ⟨s, address, hname, hadmits, -⟩ := popCode_eq_ok_iff.mp hlines
  exact ⟨s, hname, hadmits⟩

end WriteOut

/-! ### The writer -/

/-- How many of the lines are instructions. -/
def instructionCount (code : List Text) : Nat := code.countP fun l => !isLabel l

/-- A writer that has sent lines to its sink. -/
def Writer.sent (w : Writer) (code : List Text) : Writer :=
  { w with
    sink := { w.sink with lines := w.sink.lines ++ code.toArray }
    instructions := w.instructions + instructionCount code }

theorem foldl_put (w : Writer) (code : List Text) : code.foldl Writer.put w = w.sent code := by
  induction code generalizing w with
  | nil => simp [Writer.sent, instructionCount]
  | cons l more ih =>
    rw [List.foldl_cons, ih]
    cases hl : isLabel l <;>
      simp [Writer.sent, Writer.put, instructionCount, hl, Nat.add_assoc, Nat.add_comm 1]

theorem emit_of_open {w : Writer} (h : w.sink.isClosed = false) (code : List Line) :
    w.emit code = (.ok (code.map Line.render), w.sent (code.map Line.render)) := by
  simp only [Writer.emit, w.write_of_open _ h, foldl_put]

/-- A writer that has sent code and used up numbers for labels. -/
def Writer.emitted (w : Writer) (labels : Nat) (code : List Line) : Writer :=
  ({ w with labels := w.labels + labels } : Writer).sent (code.map Line.render)

theorem emitted_nil (w : Writer) : w.emitted 0 [] = w := by
  simp [Writer.emitted, Writer.sent, instructionCount]

theorem emitted_emitted (w : Writer) (m n : Nat) (code rest : List Line) :
    (w.emitted m code).emitted n rest = w.emitted (m + n) (code ++ rest) := by
  simp [Writer.emitted, Writer.sent, instructionCount, Nat.add_assoc]

/-! ### Lines and their faults -/

/-- The command on a line, if there is one that can be read. -/
def commandOn? (line : CodeLine) : Option Command :=
  match Command.parse line.code line.number with
  | .ok command => command
  | .error _ => none

/-- The fault on a line at which a compilation ends: the command there cannot be read, or it cannot
be lowered. -/
def faultOn? (line : CodeLine) : Option Failure :=
  match Command.parse line.code line.number with
  | .error f => some f
  | .ok none => none
  | .ok (some c) =>
    match c.operation.lower 0 with
    | .error cause => some (.diagnostic ⟨cause, some line.number⟩)
    | .ok _ => none

/-- The commands on the lines before the first fault. -/
def completed (lines : List CodeLine) : List Command :=
  (lines.takeWhile fun line => (faultOn? line).isNone).filterMap commandOn?

/-- The warning about a command that is skipped. -/
def Command.warning? (c : Command) : Option Notice :=
  if c.operation.isCompiled then none else some (.commandSkipped c.line c.kind)

/-- The operation that the words of code stand for. -/
def operationOf (code : Text) (n : Int) : Except Failure Operation :=
  Operation.ofWords ((code.splitOn ' ').headD []) (code.splitOn ' ').tail n

/-- **What is read on a line**: nothing if it is blank, a fault if it has too many words, and
otherwise what its words stand for. Which of these it is does not depend on the number. -/
theorem parse_cases (text : Text) :
    (Text.code text = [] ∧ ∀ n, Command.parse text n = .ok none) ∨
      (∀ n, Command.parse text n = .error (failAt n (.tooManyWords (Text.code text)))) ∨
      ∀ n, Command.parse text n =
        (operationOf (Text.code text) n).map fun op => some ⟨op, n⟩ := by
  unfold Command.parse
  by_cases hcode : Text.code text = []
  · exact .inl ⟨hcode, fun n => if_pos (List.isEmpty_iff.mpr hcode)⟩
  · have hempty : ¬ (Text.code text).isEmpty = true := fun h => hcode (List.isEmpty_iff.mp h)
    by_cases hwords : maxWords < ((Text.code text).splitOn ' ').length
    · exact .inr (.inl fun n => (if_neg hempty).trans (if_pos hwords))
    · exact .inr (.inr fun n => (if_neg hempty).trans (if_neg hwords))

/-- What is read on a line is what is read in its code. -/
theorem parse_code (text : Text) (n : Int) :
    Command.parse (Text.code text) n = Command.parse text n := by
  simp only [Command.parse, Text.code_code]

/-- Only a line without code holds no command. -/
theorem code_of_parse_none {text : Text} {n : Int} (h : Command.parse text n = .ok none) :
    Text.code text = [] := by
  rcases parse_cases text with ⟨hcode, -⟩ | hparse | hparse
  · exact hcode
  · rw [hparse] at h
    cases h
  · rw [hparse] at h
    cases hop : operationOf (Text.code text) n <;> rw [hop] at h <;> cases h

/-- A command carries the number of its line, and is what the words there stand for. -/
theorem operationOf_of_parse {text : Text} {n : Int} {c : Command}
    (h : Command.parse text n = .ok (some c)) :
    c.line = n ∧ operationOf (Text.code text) n = .ok c.operation ∧
      ∀ m, Command.parse text m =
        (operationOf (Text.code text) m).map fun op => some ⟨op, m⟩ := by
  rcases parse_cases text with ⟨-, hparse⟩ | hparse | hparse
  · rw [hparse] at h
    cases h
  · rw [hparse] at h
    cases h
  · rw [hparse] at h
    cases hop : operationOf (Text.code text) n with
    | error e => rw [hop] at h; cases h
    | ok op =>
      rw [hop] at h
      cases h
      exact ⟨rfl, rfl, hparse⟩

theorem isLegible_of_parse {text : Text} {n : Int} {c : Command}
    (h : Command.parse text n = .ok (some c)) : c.operation.IsLegible :=
  isLegible_of_ofWords (operationOf_of_parse h).2.1

section Completed

variable {line : CodeLine}

theorem completed_of_fault {f : Failure} (h : faultOn? line = some f) (more : List CodeLine) :
    completed (line :: more) = [] := by
  rw [completed, List.takeWhile_cons_of_neg (by simp [h]), List.filterMap_nil]

theorem completed_of_none (h : faultOn? line = none) (hcommand : commandOn? line = none)
    (more : List CodeLine) : completed (line :: more) = completed more := by
  rw [completed, List.takeWhile_cons_of_pos (by simp [h]), List.filterMap_cons_none hcommand,
    completed]

theorem completed_of_some {c : Command} (h : faultOn? line = none)
    (hcommand : commandOn? line = some c) (more : List CodeLine) :
    completed (line :: more) = c :: completed more := by
  rw [completed, List.takeWhile_cons_of_pos (by simp [h]), List.filterMap_cons_some hcommand,
    completed]

/-- Where there is no fault, all operations are done. -/
theorem map_operation_completed {lines : List CodeLine} (h : ∀ l ∈ lines, faultOn? l = none) :
    (completed lines).map (·.operation) = lines.filterMap operationOn? := by
  induction lines with
  | nil => rfl
  | cons line more ih =>
    have hline := h line (List.mem_cons_self ..)
    have hmore := ih fun l hl => h l (List.mem_cons_of_mem line hl)
    have hoperation : operationOn? line = (commandOn? line).map (·.operation) := by
      unfold operationOn? commandOn?
      cases Command.parse line.code line.number with
      | error f => rfl
      | ok command => cases command <;> rfl
    cases hcommand : commandOn? line with
    | none =>
      rw [completed_of_none hline hcommand, hmore, List.filterMap_cons_none]
      rw [hoperation, hcommand, Option.map_none]
    | some c =>
      rw [completed_of_some hline hcommand, List.map_cons, hmore, List.filterMap_cons_some]
      rw [hoperation, hcommand, Option.map_some]

end Completed

/-! ### A compilation -/

/-- How the compilation of lines ends: with the first fault on them, if there is one. -/
def verdict (lines : List CodeLine) : Except Failure Unit :=
  match lines.findSome? faultOn? with
  | some f => .error f
  | none => .ok ()

namespace Progress

/-- The state after a command with its code: the code is sent, the numbers of its labels are used
up, and it is echoed on demand. A command without code is warned of instead. -/
def after (test : Bool) (p : Progress) (c : Command) (code : List Line) : Progress where
  writer := p.writer.emitted c.operation.labelCount code
  echo :=
    if test && c.operation.isCompiled then p.echo ++ c.echo (code.map Line.render) else p.echo
  notices := p.notices ++ c.warning?.toList.toArray

variable (test : Bool) {p : Progress} {c : Command} (hlegible : c.operation.IsLegible)

include hlegible in
/-- A command that cannot be lowered is at fault on its line, and nothing is done for it. -/
theorem command_of_error {cause : Cause} (h : c.operation.lower p.writer.labels = .error cause) :
    p.command test c = (.error (.diagnostic ⟨cause, some c.line⟩), p) := by
  obtain ⟨op, line⟩ := c
  obtain ⟨w, echo, notices⟩ := p
  cases op with
  | push segment index =>
    have hcode : pushCode segment index = .error cause := h
    have hlines : pushLines segment index = .error (.diagnostic ⟨cause, none⟩) := by
      rw [pushLines_of_isWritable segment (hlegible.isWritable rfl), hcode]
      rfl
    simp only [command, Writer.move, moveLines, hlines, wrote, Failure.onLine]
  | pop segment index =>
    have hcode : popCode segment index = .error cause := h
    have hlines : popLines segment index = .error (.diagnostic ⟨cause, none⟩) := by
      rw [popLines_of_isWritable segment (hlegible.isWritable rfl), hcode]
      rfl
    simp only [command, Writer.move, moveLines, hlines, wrote, Failure.onLine]
  | arithmetic _ | label _ | goto _ | ifGoto _ | function _ _ | call _ _ | ret => cases h

include hlegible in
/-- **One command**: what can be lowered is done. -/
theorem command_of_ok (hopen : p.writer.sink.isClosed = false) {code : List Line}
    (h : c.operation.lower p.writer.labels = .ok code) :
    p.command test c = (.ok (), p.after test c code) := by
  obtain ⟨op, line⟩ := c
  obtain ⟨w, echo, notices⟩ := p
  cases op with
  | arithmetic op =>
    cases h
    have hcount : w.countLabels op.mnemonic =
        { w with labels := w.labels + (Operation.arithmetic op).labelCount } := by
      simp only [Writer.countLabels, Arithmetic.ofText?_mnemonic, Option.any_some,
        Operation.labelCount]
      split <;> rfl
    have hemit := emit_of_open (w := w.countLabels op.mnemonic) (by rw [hcount]; exact hopen)
      (op.lines w.labels)
    rw [hcount] at hemit
    simp only [command, Writer.arithmetic, Arithmetic.ofText?_mnemonic, hcount, hemit, wrote]
    simp [after, Writer.emitted, Command.warning?, Operation.isCompiled]
  | push segment index =>
    have hcode : pushCode segment index = .ok code := h
    have hlines : pushLines segment index = .ok code := by
      rw [pushLines_of_isWritable segment (hlegible.isWritable rfl), hcode]
      rfl
    simp only [command, Writer.move, moveLines, hlines, emit_of_open hopen, wrote]
    simp [after, Writer.emitted, Command.warning?, Operation.isCompiled, Operation.labelCount]
  | pop segment index =>
    have hcode : popCode segment index = .ok code := h
    have hlines : popLines segment index = .ok code := by
      rw [popLines_of_isWritable segment (hlegible.isWritable rfl), hcode]
      rfl
    simp only [command, Writer.move, moveLines, hlines, emit_of_open hopen, wrote]
    simp [after, Writer.emitted, Command.warning?, Operation.isCompiled, Operation.labelCount]
  | label _ | goto _ | ifGoto _ | function _ _ | call _ _ | ret =>
    cases h
    simp [command, after, Operation.labelCount, emitted_nil, Command.warning?, Operation.isCompiled]

/-! ### One line -/

/-- Compile lines of code, up to the first fault. -/
def lines (p : Progress) : List CodeLine → Except Failure Unit × Progress
  | [] => (.ok (), p)
  | line :: more =>
    match Command.parse line.code line.number with
    | .error e => (.error e, p)
    | .ok none => lines p more
    | .ok (some c) =>
      match p.command test c with
      | (.error e, p) => (.error e, p)
      | (.ok (), p) => lines p more

/-- **A cursor leads through its lines**: as it advances, the lines of code that are left are
compiled one after the other. -/
theorem follow_eq_lines {cursor : Cursor} {left : List CodeLine}
    (h : cursor.lines.drop cursor.position = left)
    (hcode : ∀ line ∈ left, Text.code line.code ≠ []) :
    p.follow test cursor left = p.lines test left := by
  induction left generalizing p cursor with
  | nil => rfl
  | cons line more ih =>
    have hline : cursor.lines[cursor.position]? = some line := by
      rw [← Nat.add_zero cursor.position, ← List.getElem?_drop, h]
      rfl
    have hmore : cursor.lines.drop (cursor.position + 1) = more := by
      rw [← List.drop_drop, h]
      rfl
    rw [follow, lines, Cursor.advance, hline]
    cases hparse : Command.parse line.code line.number with
    | error e => simp only [hparse]
    | ok command =>
      cases command with
      | none => exact absurd (code_of_parse_none hparse) (hcode line (List.mem_cons_self ..))
      | some c =>
        simp only [hparse, Cursor.command]
        obtain ⟨result, p'⟩ := p.command test c
        cases result with
        | error e => rfl
        | ok => exact ih hmore fun l hl => hcode l (List.mem_cons_of_mem line hl)

section Line

variable {line : CodeLine}

/-- The work ends at a line with a fault. -/
theorem lines_of_fault {f : Failure} (h : faultOn? line = some f) (more : List CodeLine) :
    p.lines test (line :: more) = (.error f, p) := by
  unfold faultOn? at h
  rw [lines]
  cases hparse : Command.parse line.code line.number with
  | error e =>
    rw [hparse] at h
    cases h
    rfl
  | ok command =>
    cases command with
    | none => rw [hparse] at h; cases h
    | some c =>
      simp only [hparse] at h ⊢
      cases hlower : c.operation.lower 0 with
      | ok code => rw [hlower] at h; cases h
      | error cause =>
        rw [hlower] at h
        cases h
        rw [command_of_error test (isLegible_of_parse hparse) (lower_of_error hlower _),
          (operationOf_of_parse hparse).1]

/-- A line that holds no command is passed over. -/
theorem lines_of_none (h : faultOn? line = none) (hcommand : commandOn? line = none)
    (more : List CodeLine) : p.lines test (line :: more) = p.lines test more := by
  unfold faultOn? at h
  unfold commandOn? at hcommand
  rw [lines]
  cases hparse : Command.parse line.code line.number with
  | error e => rw [hparse] at h; cases h
  | ok command =>
    rw [hparse] at hcommand
    cases hcommand
    rfl

/-- The command on a line without fault is done, and then the lines behind it are. -/
theorem lines_of_some (hopen : p.writer.sink.isClosed = false) (h : faultOn? line = none)
    (hcommand : commandOn? line = some c) (more : List CodeLine) :
    ∃ code, Codes p.writer.labels c.operation code ∧
      p.lines test (line :: more) = (p.after test c code).lines test more := by
  unfold faultOn? at h
  unfold commandOn? at hcommand
  cases hparse : Command.parse line.code line.number with
  | error e => rw [hparse] at h; cases h
  | ok command =>
    rw [hparse] at hcommand
    obtain rfl : command = some c := hcommand
    simp only [hparse] at h
    cases hlower : c.operation.lower p.writer.labels with
    | error cause =>
      rw [lower_of_error hlower 0] at h
      cases h
    | ok code =>
      refine ⟨code, lower_eq_ok_iff.mp hlower, ?_⟩
      rw [lines]
      simp only [hparse, command_of_ok test (isLegible_of_parse hparse) hopen hlower]

end Line

/-- **All lines**: the code of the commands before the first fault is sent and, on demand, echoed,
and those without code are warned of, one after the other. -/
theorem lines_of_open (hopen : p.writer.sink.isClosed = false) (code : List CodeLine) :
    ∃ out echo, Echoes p.writer.labels (completed code) out echo ∧
      p.lines test code = (verdict code,
        ⟨p.writer.emitted (comparisons ((completed code).map (·.operation))) out,
          if test then p.echo ++ echo else p.echo,
          p.notices ++ ((completed code).filterMap Command.warning?).toArray⟩) := by
  induction code generalizing p with
  | nil =>
    refine ⟨[], [], .nil _, ?_⟩
    simp [lines, verdict, completed, comparisons, emitted_nil]
  | cons line more ih =>
    cases hfault : faultOn? line with
    | some f =>
      refine ⟨[], [], ?_, ?_⟩
      · rw [completed_of_fault hfault]
        exact .nil _
      · rw [lines_of_fault test hfault, completed_of_fault hfault, verdict, List.findSome?_cons,
          hfault]
        simp [comparisons, emitted_nil]
    | none =>
      have hverdict : verdict (line :: more) = verdict more := by
        rw [verdict, List.findSome?_cons, hfault, verdict]
      cases hcommand : commandOn? line with
      | none =>
        rw [hverdict, completed_of_none hfault hcommand, lines_of_none test hfault hcommand]
        exact ih hopen
      | some c =>
        obtain ⟨first, hcodes, hfirst⟩ := lines_of_some test hopen hfault hcommand more
        obtain ⟨out, echo, hechoes, hmore⟩ := ih (p := p.after test c first) hopen
        refine ⟨first ++ out, c.echoed first ++ echo, ?_, ?_⟩
        · rw [completed_of_some hfault hcommand]
          exact .cons hcodes hechoes
        · have hecho : (if test then (p.after test c first).echo ++ echo
              else (p.after test c first).echo) =
              if test then p.echo ++ (c.echoed first ++ echo) else p.echo := by
            refine Array.ext' ?_
            cases test <;> cases hcompiled : c.operation.isCompiled <;>
              simp [after, Command.echoed, hcompiled]
          rw [hverdict, completed_of_some hfault hcommand, hfirst, hmore, hecho, List.map_cons,
            comparisons_cons]
          cases hwarning : c.warning? <;> simp [after, emitted_emitted, hwarning]

end Progress

/-- **A compilation goes through the lines of code** of its source. -/
theorem compile_eq (test : Bool) (source : Text) :
    compile test source =
      match ({ Progress.start with notices := #[.commandsFound (sourceLines source).length] } :
          Progress).lines test (sourceLines source) with
      | (.error e, p) => ⟨.error e, p.close⟩
      | (.ok (), p) => ⟨.ok p.writer.instructions, p.close⟩ := by
  have hcode : ∀ line ∈ sourceLines source, Text.code line.code ≠ [] := by
    intro line hline
    obtain ⟨i, raw, -, hraw, rfl⟩ := CodeLine.mem_ofLines_iff.mp hline
    rwa [Text.code_code]
  have hlines : (Cursor.ofSource source).lines.drop (Cursor.ofSource source).position =
      sourceLines source := rfl
  rw [← Progress.follow_eq_lines test hlines hcode]
  rfl

/-- **What a compilation leaves behind**: the code of the commands before the first fault, counted
and closed once, on demand an echo of it, a warning for each of them that has no code, and the fault
as its answer, or else the number of instructions. -/
theorem echoes_of_completed (test : Bool) (source : Text) :
    ∃ code echo, Echoes 0 (completed (sourceLines source)) code echo ∧
      (compile test source).final.echo = (if test then echo.toArray else #[]) ∧
      (compile test source).final.writer =
        ⟨⟨(code.map Line.render).toArray, 1⟩,
          comparisons ((completed (sourceLines source)).map (·.operation)),
          instructionCount (code.map Line.render), true⟩ ∧
      (compile test source).notices = .commandsFound (sourceLines source).length ::
        ((completed (sourceLines source)).filterMap Command.warning? ++
          [.outputClosed (instructionCount (code.map Line.render))]) ∧
      (compile test source).result =
        (verdict (sourceLines source)).map fun _ => instructionCount (code.map Line.render) := by
  obtain ⟨code, echo, hechoes, hlines⟩ := Progress.lines_of_open test
    (p := { Progress.start with notices := #[.commandsFound (sourceLines source).length] }) rfl
    (sourceLines source)
  refine ⟨code, echo, hechoes, ?_⟩
  rw [compile_eq, hlines]
  cases verdict (sourceLines source) with
  | error f => simp [Progress.close, Writer.close, Writer.emitted, Writer.sent, Progress.start,
      Writer.new, Sink.empty, Compilation.notices, Except.map]
  | ok => simp [Progress.close, Writer.close, Writer.emitted, Writer.sent, Progress.start,
      Writer.new, Sink.empty, Compilation.notices, Except.map]

/-- The part of it that does not depend on the echo. -/
theorem lowers_of_completed (test : Bool) (source : Text) :
    ∃ code, Lowers 0 ((completed (sourceLines source)).map (·.operation)) code ∧
      (compile test source).text = Text.ofLines (code.map Line.render) ∧
      (compile test source).final.writer =
        ⟨⟨(code.map Line.render).toArray, 1⟩,
          comparisons ((completed (sourceLines source)).map (·.operation)),
          instructionCount (code.map Line.render), true⟩ ∧
      (compile test source).notices = .commandsFound (sourceLines source).length ::
        ((completed (sourceLines source)).filterMap Command.warning? ++
          [.outputClosed (instructionCount (code.map Line.render))]) ∧
      (compile test source).result =
        (verdict (sourceLines source)).map fun _ => instructionCount (code.map Line.render) := by
  obtain ⟨code, echo, hechoes, -, hwriter, hrest⟩ := echoes_of_completed test source
  refine ⟨code, hechoes.lowers, ?_, hwriter, hrest⟩
  rw [Compilation.text, hwriter, Sink.text]

/-- **A compilation that succeeds** has written the code of its operations and counted the
instructions in it. -/
theorem lowers_of_compile {test : Bool} {source : Text} {n : Nat}
    (h : (compile test source).result = .ok n) :
    ∃ code, Lowers 0 (operations source) code ∧
      (compile test source).text = Text.ofLines (code.map Line.render) ∧
      n = instructionCount (code.map Line.render) := by
  obtain ⟨code, hlowers, htext, -, -, hresult⟩ := lowers_of_completed test source
  rw [h, verdict] at hresult
  cases hfault : (sourceLines source).findSome? faultOn? with
  | some f => rw [hfault] at hresult; cases hresult
  | none =>
    rw [hfault] at hresult
    rw [map_operation_completed (List.findSome?_eq_none_iff.mp hfault)] at hlowers
    exact ⟨code, hlowers, htext, Except.ok.inj hresult⟩

/-! ### Sources one behind the other -/

/-- The number that follows a keyword does not depend on the line that it is on. -/
theorem indexOperand_of_ok {word : Text} {operands : List Text} {m : Int} {i : Nat}
    (h : indexOperand word operands m = .ok i) (n : Int) : indexOperand word operands n = .ok i := by
  unfold indexOperand at h ⊢
  split at h
  · split at h
    · cases h
    · unfold readIndex at h ⊢
      split at h
      · simp_all
      · cases h
  · cases h

theorem nameOperand_of_ok {word : Text} {operands : List Text} {m : Int} {name : Text}
    (h : nameOperand word operands m = .ok name) (n : Int) :
    nameOperand word operands n = .ok name := by
  unfold nameOperand at h ⊢
  split at h
  · split at h
    · cases h
    · simp_all
  · cases h

theorem operation_of_ok {k : Keyword} {name word : Text} {operands : List Text} {m : Int}
    {op : Operation} (h : k.operation name (indexOperand word operands m) = .ok op) (n : Int) :
    k.operation name (indexOperand word operands n) = .ok op := by
  cases hindex : indexOperand word operands m with
  | ok i => rwa [indexOperand_of_ok hindex n, ← hindex]
  | error e =>
    rw [hindex] at h
    cases k with
    | push | pop | function | call => cases h
    | label | goto | ifGoto => exact h

theorem ofWords_of_ok {word : Text} {operands : List Text} {m : Int} {op : Operation}
    (h : Operation.ofWords word operands m = .ok op) (n : Int) :
    Operation.ofWords word operands n = .ok op := by
  unfold Operation.ofWords at h ⊢
  split at h
  · exact h
  · split at h
    · simp_all
    · rename_i hreturn
      rw [if_neg hreturn]
      split at h
      · cases h
      · cases hname : nameOperand word operands m with
        | error e => rw [hname] at h; cases h
        | ok name =>
          rw [hname] at h
          rw [nameOperand_of_ok hname n]
          exact operation_of_ok h n

theorem parse_of_ok {text : Text} {m : Int} {c : Command}
    (h : Command.parse text m = .ok (some c)) (n : Int) :
    Command.parse text n = .ok (some ⟨c.operation, n⟩) := by
  obtain ⟨-, hop, hparse⟩ := operationOf_of_parse h
  have hop' : operationOf (Text.code text) n = .ok c.operation := ofWords_of_ok hop n
  rw [hparse, hop']
  rfl

/-- The number of a line does not change what is read on it. -/
theorem operationOn?_number (code : Text) (m n : Nat) :
    operationOn? ⟨m, code⟩ = operationOn? ⟨n, code⟩ := by
  have hread (m n : Nat) (op : Operation) (h : operationOn? ⟨m, code⟩ = some op) :
      operationOn? ⟨n, code⟩ = some op := by
    unfold operationOn? at h ⊢
    split at h
    · rename_i c hparse
      simp only [parse_of_ok hparse n]
      exact h
    · cases h
  exact Option.ext fun op => ⟨hread m n op, hread n m op⟩

theorem filterMap_operationOn? (lines : List Text) (n : Nat) :
    ((lines.zipIdx n).filterMap fun (line, number) => CodeLine.ofLine? line number).filterMap
        operationOn? =
      lines.filterMap fun line => (CodeLine.ofLine? line 0).bind operationOn? := by
  induction lines generalizing n with
  | nil => rfl
  | cons line more ih =>
    have hline : (CodeLine.ofLine? line n).bind operationOn? =
        (CodeLine.ofLine? line 0).bind operationOn? := by
      unfold CodeLine.ofLine?
      split
      · rfl
      · exact operationOn?_number _ n 0
    have hmore := ih (n + 1)
    rw [List.filterMap_filterMap] at hmore ⊢
    rw [List.zipIdx_cons, List.filterMap_cons, List.filterMap_cons, hmore, hline]

/-- The operations of a source behind another. -/
theorem operations_append (first second : Text) :
    operations (first ++ '\n' :: second) = operations first ++ operations second := by
  unfold operations sourceLines CodeLine.ofLines
  rw [filterMap_operationOn?, filterMap_operationOn?, filterMap_operationOn?, Text.feedLines,
    List.splitOn_append_cons_self, List.filterMap_append]
  rfl

end HackStack.Stack
