import HackStack.Proofs.Output

/-!
# The transcript of a compilation

What a compilation leaves behind can be said without following it. The lines of code
before the first fault hold one command each. The code of these commands is all that is
written, and in it a comparison has for the number of its labels the number of comparisons
before it (`Lowered`). The commands without code are warned of, each with its line
(`map_line_completed`). The answer is the fault, with the number that its line has in the
source (`arisesOn_faultOn?`), or else the number of instructions written.
-/

namespace HackStack.Stack

open Hack

/-! ### The code of each command -/

/-- The code of each of several operations: what lowering gives, where the number of comparisons
before it is for its labels. -/
structure Lowered (ops : List Operation) (code : List (List Line)) : Prop where
  length : code.length = ops.length
  lower : ∀ (j : Nat) (op : Operation) (lines : List Line), ops[j]? = some op →
    code[j]? = some lines → op.lower (comparisons (ops.take j)) = .ok lines

/-- Code can be cut into that of each operation. -/
theorem exists_flatten_of_lowers {labels : Nat} {ops : List Operation} {out : List Line}
    (h : Lowers labels ops out) :
    ∃ code : List (List Line), code.flatten = out ∧ code.length = ops.length ∧
      ∀ (j : Nat) (op : Operation) (lines : List Line), ops[j]? = some op →
        code[j]? = some lines → op.lower (labels + comparisons (ops.take j)) = .ok lines := by
  induction h with
  | nil labels => exact ⟨[], rfl, rfl, fun j op lines hop => by cases hop⟩
  | @cons labels op more first rest hcodes _ ih =>
    obtain ⟨code, rfl, hlength, hlower⟩ := ih
    refine ⟨first :: code, rfl, congrArg (· + 1) hlength, ?_⟩
    intro j op' lines hop hlines
    cases j with
    | zero =>
      cases hop
      cases hlines
      exact lower_eq_ok_iff.mpr hcodes
    | succ j =>
      rw [List.take_succ_cons, comparisons_cons, ← Nat.add_assoc]
      exact hlower j op' lines hop hlines

theorem exists_lowered_of_lowers {ops : List Operation} {out : List Line} (h : Lowers 0 ops out) :
    ∃ code, code.flatten = out ∧ Lowered ops code := by
  obtain ⟨code, hflatten, hlength, hlower⟩ := exists_flatten_of_lowers h
  refine ⟨code, hflatten, hlength, fun j op lines hop hlines => ?_⟩
  rw [← hlower j op lines hop hlines, Nat.zero_add]

/-! ### Lines and their numbers -/

/-- **The lines of code** are the lines of the source that are not blank, each with its number
there, counted from one. -/
theorem mem_sourceLines_iff {source : Text} {line : CodeLine} :
    line ∈ sourceLines source ↔
      ∃ i raw, (Text.feedLines source)[i]? = some raw ∧ Text.code raw ≠ [] ∧
        line = ⟨i + 1, Text.code raw⟩ :=
  CodeLine.mem_ofLines_iff

/-- The lines of code are in the order of the source. -/
theorem pairwise_number_sourceLines (source : Text) :
    (sourceLines source).Pairwise fun l m => l.number < m.number :=
  CodeLine.pairwise_number_ofLines (Text.feedLines source)

/-- A line of code without a fault holds a command, which carries its number. -/
theorem exists_command_of_mem {source : Text} {line : CodeLine} (h : line ∈ sourceLines source)
    (hfault : faultOn? line = none) : ∃ c, commandOn? line = some c ∧ c.line = line.number := by
  obtain ⟨i, raw, -, hcode, rfl⟩ := mem_sourceLines_iff.mp h
  unfold faultOn? at hfault
  unfold commandOn?
  cases hparse : Command.parse (Text.code raw) (i + 1 : Nat) with
  | error f => rw [hparse] at hfault; cases hfault
  | ok command =>
    cases command with
    | some c => exact ⟨c, rfl, (operationOf_of_parse hparse).1⟩
    | none =>
      -- only a blank line holds nothing
      have hblank := code_of_parse_none hparse
      rw [Text.code_code] at hblank
      exact absurd hblank hcode

/-- Before the first fault there is a command on each line of code. -/
theorem map_line_completed (source : Text) :
    (completed (sourceLines source)).map (·.line) =
      ((sourceLines source).takeWhile fun line => (faultOn? line).isNone).map
        fun line => (line.number : Int) := by
  have hcommands : ∀ lines : List CodeLine,
      (∀ line ∈ lines, ∃ c, commandOn? line = some c ∧ c.line = line.number) →
      (lines.filterMap commandOn?).map (·.line) = lines.map fun line => (line.number : Int) := by
    intro lines h
    induction lines with
    | nil => rfl
    | cons line more ih =>
      obtain ⟨c, hc, hline⟩ := h line (List.mem_cons_self ..)
      rw [List.filterMap_cons_some hc, List.map_cons, List.map_cons, hline,
        ih fun l hl => h l (List.mem_cons_of_mem line hl)]
  refine hcommands _ fun line hline => ?_
  have hnone : (faultOn? line).isNone = true :=
    List.all_eq_true.mp List.all_takeWhile line hline
  exact exists_command_of_mem ((List.takeWhile_sublist _).mem hline)
    (Option.isNone_iff_eq_none.mp hnone)

/-! ### The line of a fault -/

/-- A failure that, if it is a diagnostic, names the line. -/
def Failure.IsAt (line : Int) (f : Failure) : Prop := ∀ d, f = .diagnostic d → d.line = some line

/-- The causes of faults in a compilation. Where the wording has a text as it is, that is a keyword
or the name of a segment; all else is shown between quotes. -/
inductive Cause.IsReported : Cause → Prop
  | tooManyWords (line : Text) : IsReported (.tooManyWords line)
  | unknownWord (word : Text) : IsReported (.unknownWord word)
  | noArgument (k : Keyword) : IsReported (.noArgument k.text)
  | noIndex (k : Keyword) : IsReported (.noIndex k.text)
  | notNumeric (t : Text) : IsReported (.notNumeric t)
  | indexTooLarge (s : Segment) (index limit : Int) : IsReported (.indexTooLarge s.name index limit)
  | unknownSegment (name : Text) : IsReported (.unknownSegment name)
  | popConstant : IsReported .popConstant

/-- A fault that arises on a line: a numeral that cannot be read, or a diagnostic that names the
line. -/
inductive Failure.ArisesOn (line : Int) : Failure → Prop
  | numeral (e : Numeral.Error) : ArisesOn line (.numeral e)
  | diagnostic {cause : Cause} (h : cause.IsReported) : ArisesOn line (failAt line cause)

theorem Failure.ArisesOn.isAt {line : Int} {f : Failure} (h : f.ArisesOn line) : f.IsAt line := by
  intro d hd
  cases h with
  | numeral e => cases hd
  | diagnostic => cases hd; rfl

section Arising

variable {operands : List Text} {line : Int} {f : Failure}

theorem arisesOn_indexOperand {k : Keyword} (h : indexOperand k.text operands line = .error f) :
    f.ArisesOn line := by
  unfold indexOperand at h
  split at h
  · split at h
    · cases h; exact .diagnostic (.noIndex k)
    · unfold readIndex at h
      split at h
      · rename_i t _ _ _
        cases hnatural : Numeral.natural t with
        | ok n => rw [hnatural] at h; cases h
        | error e => rw [hnatural] at h; cases h; exact .numeral e
      · cases h; exact .diagnostic (.notNumeric _)
  · cases h; exact .diagnostic (.noIndex k)

theorem arisesOn_nameOperand {k : Keyword} (h : nameOperand k.text operands line = .error f) :
    f.ArisesOn line := by
  unfold nameOperand at h
  split at h
  · split at h
    · cases h; exact .diagnostic (.noArgument k)
    · cases h
  · cases h; exact .diagnostic (.noArgument k)

theorem arisesOn_ofWords {word : Text} (h : Operation.ofWords word operands line = .error f) :
    f.ArisesOn line := by
  unfold Operation.ofWords at h
  split at h
  · cases h
  · split at h
    · cases h
    · split at h
      · cases h; exact .diagnostic (.unknownWord word)
      · rename_i k hk
        obtain rfl := Keyword.ofText?_eq_some_iff.mp hk
        cases hname : nameOperand k.text operands line with
        | error e => rw [hname] at h; cases h; exact arisesOn_nameOperand hname
        | ok name =>
          rw [hname] at h
          have hoperation : k.operation name (indexOperand k.text operands line) = .error f := h
          cases hindex : indexOperand k.text operands line with
          | error e =>
            rw [hindex] at hoperation
            cases k with
            | push | pop | function | call => cases hoperation; exact arisesOn_indexOperand hindex
            | label | goto | ifGoto => cases hoperation
          | ok i => rw [hindex] at hoperation; cases k <;> cases hoperation

theorem arisesOn_parse {text : Text} (h : Command.parse text line = .error f) :
    f.ArisesOn line := by
  rcases parse_cases text with ⟨-, hparse⟩ | hparse | hparse
  · rw [hparse] at h
    cases h
  · rw [hparse] at h
    cases h
    exact .diagnostic (.tooManyWords _)
  · rw [hparse] at h
    cases hop : operationOf (Text.code text) line with
    | error e => rw [hop] at h; cases h; exact arisesOn_ofWords hop
    | ok op => rw [hop] at h; cases h

end Arising

theorem Cause.IsRefusal.isReported {name : Text} {index : Int} {cause : Cause}
    (h : cause.IsRefusal name index) : cause.IsReported := by
  cases h with
  | indexTooLarge hname => subst hname; exact .indexTooLarge _ index _
  | unknownSegment => exact .unknownSegment name
  | popConstant => exact .popConstant

theorem isReported_lower {op : Operation} {labels : Nat} {cause : Cause}
    (h : op.lower labels = .error cause) : cause.IsReported := by
  cases op with
  | push => exact (isRefusal_of_pushCode h).isReported
  | pop => exact (isRefusal_of_popCode h).isReported
  | arithmetic _ | label _ | goto _ | ifGoto _ | function _ _ | call _ _ | ret => cases h

/-- **The faults of a compilation**: a fault arises on its line, whether in reading the command or
in lowering it. -/
theorem arisesOn_faultOn? {line : CodeLine} {f : Failure} (h : faultOn? line = some f) :
    f.ArisesOn line.number := by
  unfold faultOn? at h
  split at h
  · rename_i hparse
    cases h
    exact arisesOn_parse hparse
  · cases h
  · split at h
    · rename_i hlower
      cases h
      exact .diagnostic (isReported_lower hlower)
    · cases h

/-- Lines end with the fault of the first one that has a fault. -/
theorem verdict_of_find? {lines : List CodeLine} {k : CodeLine} {f : Failure}
    (h : lines.find? (fun line => (faultOn? line).isSome) = some k) (hf : faultOn? k = some f) :
    verdict lines = .error f := by
  obtain ⟨-, before, after, rfl, hbefore⟩ := List.find?_eq_some_iff_append.mp h
  have hnone : before.findSome? faultOn? = none :=
    List.findSome?_eq_none_iff.mpr fun line hline => by simpa using hbefore line hline
  rw [verdict, List.findSome?_append, hnone, Option.none_or, List.findSome?_cons, hf]

theorem verdict_of_find?_none {lines : List CodeLine}
    (h : lines.find? (fun line => (faultOn? line).isSome) = none) : verdict lines = .ok () := by
  have hnone : lines.findSome? faultOn? = none :=
    List.findSome?_eq_none_iff.mpr fun line hline => by
      simpa using List.find?_eq_none.mp h line hline
  rw [verdict, hnone]

/-- A compilation that fails ends with the fault on the first line that has one. -/
theorem exists_find?_of_error {test : Bool} {source : Text} {f : Failure}
    (h : (compile test source).result = .error f) :
    ∃ k, (sourceLines source).find? (fun line => (faultOn? line).isSome) = some k ∧
      faultOn? k = some f := by
  obtain ⟨code, -, -, -, -, hresult⟩ := lowers_of_completed test source
  rw [h] at hresult
  cases hfind : (sourceLines source).find? fun line => (faultOn? line).isSome with
  | none => rw [verdict_of_find?_none hfind] at hresult; cases hresult
  | some k =>
    have hsome := List.find?_some (p := fun line => (faultOn? line).isSome) hfind
    obtain ⟨f', hf⟩ := Option.isSome_iff_exists.mp hsome
    rw [verdict_of_find? hfind hf] at hresult
    cases hresult
    exact ⟨k, rfl, hf⟩

/-! ### The whole transcript -/

/-- **The transcript of a compilation.** The lines of code are those of the source that are not
blank, numbered from one, and up to the first line with a fault each holds a command. What is
written is the code of these commands, those that have none are warned of in order, and nothing
else happens before the output is closed, once. The answer is the fault, which names its line if it
is a diagnostic, or else the number of lines written that are instructions. -/
theorem compile_transcript (test : Bool) (source : Text) :
    (∀ line, line ∈ sourceLines source ↔ ∃ i raw, (Text.feedLines source)[i]? = some raw ∧
      Text.code raw ≠ [] ∧ line = ⟨i + 1, Text.code raw⟩) ∧
    ((sourceLines source).Pairwise fun l m => l.number < m.number) ∧
    (completed (sourceLines source)).map (·.line) =
      ((sourceLines source).takeWhile fun line => (faultOn? line).isNone).map
        (fun line => (line.number : Int)) ∧
    ∃ code, Lowered ((completed (sourceLines source)).map (·.operation)) code ∧
      (compile test source).text = Text.ofLines (code.flatten.map Line.render) ∧
      (compile test source).final.writer.sink.closes = 1 ∧
      (compile test source).notices = .commandsFound (sourceLines source).length ::
        ((completed (sourceLines source)).filterMap Command.warning? ++
          [.outputClosed (instructionCount (code.flatten.map Line.render))]) ∧
      match (sourceLines source).find? fun line => (faultOn? line).isSome with
      | none =>
        (compile test source).result = .ok (instructionCount (code.flatten.map Line.render))
      | some k => ∃ f, faultOn? k = some f ∧ f.IsAt k.number ∧
        (compile test source).result = .error f := by
  refine ⟨fun _ => mem_sourceLines_iff, pairwise_number_sourceLines source,
    map_line_completed source, ?_⟩
  obtain ⟨out, hlowers, htext, hwriter, hnotices, hresult⟩ := lowers_of_completed test source
  obtain ⟨code, rfl, hlowered⟩ := exists_lowered_of_lowers hlowers
  refine ⟨code, hlowered, htext, ?_, hnotices, ?_⟩
  · rw [hwriter]
  · cases hfind : (sourceLines source).find? fun line => (faultOn? line).isSome with
    | none =>
      rw [verdict_of_find?_none hfind] at hresult
      exact hresult
    | some k =>
      have hsome := List.find?_some (p := fun line => (faultOn? line).isSome) hfind
      obtain ⟨f, hf⟩ := Option.isSome_iff_exists.mp hsome
      rw [verdict_of_find? hfind hf] at hresult
      exact ⟨f, hf, (arisesOn_faultOn? hf).isAt, hresult⟩

end HackStack.Stack
