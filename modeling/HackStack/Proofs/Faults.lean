import HackStack.Proofs.Echo

/-!
# Where a compilation fails

A line is compiled alone if it would be a source of its own. A source is compiled if each
of its lines is, and otherwise it fails because of the first line that is not
(`FailsFirst`). The failure is a diagnostic that names this line, with one exception: the
line may have a number of more digits than can be read, and then the failure is that of
the number, which knows of no line.
-/

namespace HackStack.Stack

open Hack

/-! ### Lines by themselves -/

/-- The fault on a line with a number, if it has one. A line without code has none. -/
def lineFault? (line : Text) (number : Nat) : Option Failure :=
  (CodeLine.ofLine? line number).bind faultOn?

theorem lineFault?_of_code_ne {line : Text} (h : Text.code line ≠ []) (number : Nat) :
    lineFault? line number = faultOn? ⟨number, Text.code line⟩ := by
  rw [lineFault?, CodeLine.ofLine?, if_neg (by simpa using h), Option.bind_some]

theorem lineFault?_of_code_eq {line : Text} (h : Text.code line = []) (number : Nat) :
    lineFault? line number = none := by
  rw [lineFault?, CodeLine.ofLine?, if_pos (by simpa using h), Option.bind_none]

/-- Whether there is a fault on a line does not depend on its number. -/
theorem lineFault?_number {line : Text} {m : Nat} (h : lineFault? line m = none) (n : Nat) :
    lineFault? line n = none := by
  by_cases hcode : Text.code line = []
  · exact lineFault?_of_code_eq hcode n
  · rw [lineFault?_of_code_ne hcode, faultOn?] at h ⊢
    cases hparse : Command.parse (Text.code line) m with
    | error f => rw [hparse] at h; cases h
    | ok command =>
      cases command with
      | none =>
        have hblank := code_of_parse_none hparse
        rw [Text.code_code] at hblank
        exact absurd hblank hcode
      | some c =>
        simp only [hparse, parse_of_ok hparse n] at h ⊢
        cases hlower : c.operation.lower 0 with
        | error cause => rw [hlower] at h; cases h
        | ok code => rfl

/-- The verdict on a source is that on its lines one after the other. -/
theorem verdict_sourceLines (source : Text) :
    verdict (sourceLines source) =
      match ((Text.feedLines source).zipIdx 1).findSome? fun l => lineFault? l.1 l.2 with
      | some f => .error f
      | none => .ok () := by
  rw [verdict, sourceLines, CodeLine.ofLines, ← List.head?_filterMap, List.filterMap_filterMap,
    List.head?_filterMap]
  rfl

/-- How a compilation ends is the verdict on its source. -/
theorem result_ok_iff_verdict {test : Bool} {source : Text} :
    (∃ n, (compile test source).result = .ok n) ↔ verdict (sourceLines source) = .ok () := by
  obtain ⟨code, -, -, -, -, hresult⟩ := lowers_of_completed test source
  rw [hresult]
  cases verdict (sourceLines source) with
  | error f => simp [Except.map]
  | ok => simp [Except.map]

theorem result_error_iff_verdict {test : Bool} {source : Text} {f : Failure} :
    (compile test source).result = .error f ↔ verdict (sourceLines source) = .error f := by
  obtain ⟨code, -, -, -, -, hresult⟩ := lowers_of_completed test source
  rw [hresult]
  cases verdict (sourceLines source) with
  | error f => simp [Except.map]
  | ok => simp [Except.map]

/-- A line that is compiled when it is a source of its own. -/
def CompilesAlone (line : Text) : Prop := ∃ n, (compile false line).result = .ok n

/-- A line of a source, behind the lines `before`, is the first that is not compiled alone. -/
structure FailsFirst (source : Text) (before : List Text) (line : Text) : Prop where
  lines_eq : ∃ after, Text.feedLines source = before ++ line :: after
  compiles : ∀ l ∈ before, CompilesAlone l
  fails : ¬ CompilesAlone line

/-- A line is compiled alone if there is no fault on it, whatever its number. -/
theorem compilesAlone_iff {source line : Text} (h : line ∈ Text.feedLines source) (n : Nat) :
    CompilesAlone line ↔ lineFault? line n = none := by
  have hlines : Text.feedLines line = [line] :=
    List.splitOn_eq_singleton (Text.not_mem_of_mem_splitOn h)
  have hfirst : CompilesAlone line ↔ lineFault? line 1 = none := by
    rw [CompilesAlone, result_ok_iff_verdict, verdict_sourceLines, hlines, List.zipIdx_singleton,
      List.findSome?_singleton]
    cases lineFault? line 1 <;> simp
  exact hfirst.trans ⟨fun h => lineFault?_number h n, fun h => lineFault?_number h 1⟩

section Sources

variable {test : Bool} {source line : Text} {before : List Text} {f : Failure}

/-- A line that is not compiled alone fails a source with the fault on it. -/
theorem FailsFirst.result (h : FailsFirst source before line)
    (hfault : lineFault? line (before.length + 1) = some f) :
    (compile test source).result = .error f := by
  obtain ⟨after, hlines⟩ := h.lines_eq
  have hbefore : (before.zipIdx 1).findSome? (fun l => lineFault? l.1 l.2) = none := by
    rw [List.findSome?_eq_none_iff]
    rintro ⟨l, n⟩ hl
    have hl : l ∈ before := List.fst_mem_of_mem_zipIdx hl
    have hmem : l ∈ Text.feedLines source := hlines ▸ List.mem_append_left _ hl
    exact (compilesAlone_iff hmem n).mp (h.compiles l hl)
  rw [result_error_iff_verdict, verdict_sourceLines, hlines, List.zipIdx_append,
    List.findSome?_append, hbefore, Option.none_or, List.zipIdx_cons, List.findSome?_cons,
    Nat.add_comm 1, hfault]

/-- **A source fails** with the fault on the first line that is not compiled alone. -/
theorem exists_failsFirst (h : (compile test source).result = .error f) :
    ∃ before line, FailsFirst source before line ∧
      lineFault? line (before.length + 1) = some f := by
  rw [result_error_iff_verdict, verdict_sourceLines] at h
  cases hfind : ((Text.feedLines source).zipIdx 1).findSome? fun l => lineFault? l.1 l.2 with
  | none => rw [hfind] at h; cases h
  | some g =>
    rw [hfind] at h
    cases h
    obtain ⟨l₁, a, l₂, hzip, hfault, hnone⟩ := List.findSome?_eq_some_iff.mp hfind
    obtain ⟨before, rest, hlines, rfl, hrest⟩ := List.zipIdx_eq_append_iff.mp hzip
    obtain ⟨line, after, rfl, rfl, -⟩ := List.zipIdx_eq_cons_iff.mp hrest.symm
    rw [Nat.add_comm] at hfault
    refine ⟨before, line, ⟨⟨after, hlines⟩, fun l hl => ?_, fun hcompiles => ?_⟩, hfault⟩
    · have hmem : l ∈ Text.feedLines source := hlines ▸ List.mem_append_left _ hl
      obtain ⟨j, hj⟩ := List.getElem?_of_mem hl
      have hnumbered : (l, j + 1) ∈ before.zipIdx 1 :=
        List.mem_zipIdx_iff_le_and_getElem?_sub.mpr ⟨Nat.le_add_left 1 j, hj⟩
      exact (compilesAlone_iff hmem _).mpr (hnone _ hnumbered)
    · have hmem : line ∈ Text.feedLines source :=
        hlines ▸ List.mem_append_right _ (List.mem_cons_self ..)
      rw [(compilesAlone_iff hmem _).mp hcompiles] at hfault
      cases hfault

end Sources

/-! ### What is wrong with a line -/

/-- A line whose command has a number of more digits than can be read. -/
def HasLongNumber (line : Text) (digits : Nat) : Prop :=
  Grammar ((Text.code line).splitOn ' ') (.tooLong digits)

theorem Cause.IsReported.category_ne {cause : Cause} (h : cause.IsReported) :
    cause.category ≠ .general := by
  cases h <;> exact nofun

section Lines

variable {line : Text} {n : Nat} {f : Failure}

theorem HasLongNumber.code_ne_nil {digits : Nat} (h : HasLongNumber line digits) :
    Text.code line ≠ [] := by
  have hthree {words : List Text} (hwords : Grammar words (.tooLong digits)) : words.length = 3 := by
    cases hwords
    rfl
  intro hcode
  rw [HasLongNumber, hcode, List.splitOn_nil] at h
  cases hthree h

/-- A number that is too long is the fault on its line. -/
theorem HasLongNumber.lineFault? {digits : Nat} (h : HasLongNumber line digits) (n : Nat) :
    lineFault? line n = some (.numeral (.tooLong digits)) := by
  have hparse : Command.parse line n = .error (.numeral (.tooLong digits)) :=
    describes_of_grammar h h.code_ne_nil rfl n
  rw [lineFault?_of_code_ne h.code_ne_nil, faultOn?, parse_code, hparse]

/-- **A fault on a line** is a diagnostic that names it, unless a number there is too long. -/
theorem lineFault?_cases (h : lineFault? line n = some f) :
    (∃ digits, HasLongNumber line digits ∧ f = .numeral (.tooLong digits)) ∨
      ∃ cause : Cause, cause.IsReported ∧ f = failAt n cause := by
  by_cases hcode : Text.code line = []
  · rw [lineFault?_of_code_eq hcode] at h
    cases h
  rw [lineFault?_of_code_ne hcode] at h
  cases arisesOn_faultOn? h with
  | @diagnostic cause hcause => exact .inr ⟨cause, hcause, rfl⟩
  | numeral e =>
    -- a command that is read is refused with a diagnostic, so it was not read
    have hparse : Command.parse line n = .error (.numeral e) := by
      unfold faultOn? at h
      rw [parse_code] at h
      split at h
      · rename_i hparse
        cases h
        exact hparse
      · cases h
      · split at h <;> cases h
    obtain ⟨o, ho⟩ := exists_grammar (List.splitOn_ne_nil ' ' (Text.code line))
    have hdescribes := describes_of_grammar ho hcode rfl n
    rw [hparse] at hdescribes
    cases o with
    | command => obtain ⟨c, heq, -⟩ := hdescribes; cases heq
    | refused => obtain ⟨d, heq, -⟩ := hdescribes; cases heq
    | tooLong digits => cases hdescribes; exact .inl ⟨digits, ho, rfl⟩

end Lines

/-- **Where a compilation fails.** A source is compiled, or the failure is a diagnostic that names
the first line that is not compiled alone, counted from one, exactly if this line has no number
that is too long. If it has one, that is the failure, and no line is named. -/
theorem compile_located_iff (test : Bool) (source : Text) :
    (((∃ n, (compile test source).result = .ok n) ∨
        ∃ before line, FailsFirst source before line ∧ ∃ d : Diagnostic,
          (compile test source).result = .error (.diagnostic d) ∧
          d.line = some ((before.length + 1 : Nat) : Int) ∧ d.category ≠ .general) ↔
      ∀ before line digits, FailsFirst source before line → ¬ HasLongNumber line digits) ∧
    ∀ before line digits, FailsFirst source before line → HasLongNumber line digits →
      (compile test source).result = .error (.numeral (.tooLong digits)) := by
  have hlong : ∀ before line digits, FailsFirst source before line → HasLongNumber line digits →
      (compile test source).result = .error (.numeral (.tooLong digits)) :=
    fun before line digits hfirst hlong => hfirst.result (hlong.lineFault? _)
  refine ⟨⟨fun h before line digits hfirst hdigits => ?_, fun h => ?_⟩, hlong⟩
  · have hresult := hlong before line digits hfirst hdigits
    rcases h with ⟨n, hn⟩ | ⟨_, _, -, d, hd, -⟩
    · rw [hn] at hresult
      cases hresult
    · rw [hd] at hresult
      cases hresult
  · cases hresult : (compile test source).result with
    | ok n => exact .inl ⟨n, rfl⟩
    | error f =>
      obtain ⟨before, line, hfirst, hfault⟩ := exists_failsFirst hresult
      rcases lineFault?_cases hfault with ⟨digits, hdigits, -⟩ | ⟨cause, hcause, rfl⟩
      · exact absurd hdigits (h before line digits hfirst)
      · exact .inr ⟨before, line, hfirst, ⟨cause, _⟩, rfl, rfl, hcause.category_ne⟩

/-- A source of one line that has a number that is too long. -/
theorem HasLongNumber.failsFirst {line : Text} {digits : Nat} (h : HasLongNumber line digits)
    (hfeed : '\n' ∉ line) : FailsFirst line [] line := by
  have hlines : Text.feedLines line = [line] := List.splitOn_eq_singleton hfeed
  refine ⟨⟨[], hlines⟩, nofun, fun hcompiles => ?_⟩
  rw [compilesAlone_iff (hlines ▸ List.mem_singleton_self line) 1, h.lineFault?] at hcompiles
  cases hcompiles

/-- **A number that is too long** is a failure that names no line. -/
theorem compile_long_number (test : Bool) {k : Keyword} (hk : k.takesIndex = true) {name t : Text}
    (hname : IsWord name) (ht : Text.IsPlainNumeral t) (hlong : 4300 < t.length) :
    (compile test (k.text ++ ' ' :: name ++ ' ' :: t)).result =
      .error (.numeral (.tooLong t.length)) := by
  have hkeyword : IsWord k.text := by cases k <;> decide
  have hnumber : IsWord t := by
    have hdigits := Text.isPlainDigits_iff.mpr ht
    simp only [Text.isPlainDigits, Bool.and_eq_true, List.all_eq_true] at hdigits
    exact ⟨ht.1, fun c hc => isInk_of_isDigit (hdigits.2 c hc)⟩
  have hdigits : HasLongNumber (k.text ++ ' ' :: name ++ ' ' :: t) t.length := by
    rw [HasLongNumber, splitOn_code_words hkeyword hname hnumber]
    exact .tooLong hk hname.1 ht hlong
  have hfeed : '\n' ∉ k.text ++ ' ' :: name ++ ' ' :: t := by
    have hword {w : Text} (hw : IsWord w) : '\n' ∉ w := not_mem_of_isWord hw (by decide)
    simp [hword hkeyword, hword hname, hword hnumber]
  exact (hdigits.failsFirst hfeed).result (hdigits.lineFault? _)

/-- A constant of 4301 digits is refused without a line. -/
theorem compile_constant_too_long :
    (compile false ("push constant ".toList ++ List.replicate 4301 '1')).result =
      .error (.numeral (.tooLong 4301)) := by
  have hpush : Keyword.push.takesIndex = true := rfl
  have hname : IsWord "constant".toList := by decide
  have hplain : Text.IsPlainNumeral (List.replicate 4301 '1') := by
    refine ⟨?_, fun c hc => ?_⟩
    · rw [ne_eq, List.replicate_eq_nil_iff]
      decide
    · rw [List.eq_of_mem_replicate hc]
      decide
  have hlength : (List.replicate 4301 '1').length = 4301 := List.length_replicate
  have hresult := compile_long_number false hpush hname hplain (by rw [hlength]; decide)
  rw [hlength] at hresult
  exact hresult

end HackStack.Stack
