import HackStack.Proofs.Transcript
import HackStack.Proofs.Grammar
import HackStack.Proofs.Layout
import HackStack.Text.Styling

/-!
# The echo of a compilation

On demand a compilation echoes each command that it writes, followed by its code. The echo
changes nothing else. Its indented lines are the lines written (`Echoes.indented`), and
the others are commands again: each is read as the operation that it was echoed for
(`parse_shown`), with its index in the shortest form and nothing behind an arithmetic word.
So these lines are a source in their own right, from which the same code is compiled
(`compile_shown`): commands that are skipped have no code and use up no labels
(`lowers_compiled`).
-/

namespace HackStack.Stack

open Hack

/-! ### Code is determined -/

theorem Codes.unique {labels : Nat} {op : Operation} {code code' : List Line}
    (h : Codes labels op code) (h' : Codes labels op code') : code = code' :=
  Except.ok.inj ((lower_eq_ok_iff.mpr h).symm.trans (lower_eq_ok_iff.mpr h'))

/-- Operations have one code only. -/
theorem Lowers.unique {labels : Nat} {ops : List Operation} {code code' : List Line}
    (h : Lowers labels ops code) (h' : Lowers labels ops code') : code = code' := by
  induction h generalizing code' with
  | nil labels => cases h'; rfl
  | cons hcodes _ ih =>
    cases h' with
    | cons hcodes' hmore' => rw [hcodes.unique hcodes', ih hmore']

theorem code_of_skipped {labels : Nat} {op : Operation} {code : List Line}
    (h : Codes labels op code) (hskip : op.isCompiled = false) : code = [] :=
  h.unique (.skip hskip)

/-- What is skipped leaves no trace in the code. -/
theorem lowers_compiled {labels : Nat} {ops : List Operation} {code : List Line}
    (h : Lowers labels ops code) : Lowers labels (ops.filter Operation.isCompiled) code := by
  induction h with
  | nil labels => exact .nil labels
  | @cons labels op more code rest hcodes _ ih =>
    cases hop : op.isCompiled with
    | true =>
      rw [List.filter_cons_of_pos hop]
      exact .cons hcodes ih
    | false =>
      rw [List.filter_cons_of_neg (by simp [hop]), code_of_skipped hcodes hop, List.nil_append]
      rw [labelCount_of_isCompiled hop] at ih
      exact ih

/-! ### Words -/

/-- A word of visible characters. -/
def IsWord (w : Text) : Prop := w ≠ [] ∧ ∀ c ∈ w, isInk c = true

-- the characters of the word are gone through, not all characters
instance (w : Text) : Decidable (IsWord w) :=
  decidable_of_iff (w ≠ [] ∧ w.all isInk = true) (and_congr_right fun _ => List.all_eq_true)

theorem not_mem_of_isWord {w : Text} (h : IsWord w) {c : Char} (hc : isInk c = false) : c ∉ w :=
  fun hmem => by rw [h.2 c hmem] at hc; cases hc

theorem isWord_decimal (n : Nat) : IsWord (Numeral.decimal n) :=
  ⟨Numeral.decimal_ne_nil n, fun _ hc => isInk_of_isDigit (Numeral.isDigit_of_mem_decimal hc)⟩

theorem isWord_segment (s : Segment) : IsWord s.name := by
  cases s with
  | based base => cases base <;> decide
  | constant | temp | pointer | static => decide

theorem stripStart_word {w : Text} (h : IsWord w) (rest : Text) :
    Text.stripStart (w ++ rest) = w ++ rest := by
  obtain ⟨c, more, rfl⟩ := List.exists_cons_of_ne_nil h.1
  have hc := isBlank_of_isInk (h.2 c (List.mem_cons_self ..))
  rw [Text.stripStart, List.cons_append, List.dropWhile_cons_of_neg (by simp [hc])]

theorem isWord_reverse {w : Text} (h : IsWord w) : IsWord w.reverse :=
  ⟨by simpa using h.1, fun c hc => h.2 c (List.mem_reverse.mp hc)⟩

/-- The words of three words with single spaces between them. -/
theorem splitOn_code_words {a b c : Text} (ha : IsWord a) (hb : IsWord b) (hc : IsWord c) :
    (Text.code (a ++ ' ' :: b ++ ' ' :: c)).splitOn ' ' = [a, b, c] := by
  have hslash : '/' ∉ a ++ ' ' :: b ++ ' ' :: c := by
    have hword {w : Text} (hw : IsWord w) : '/' ∉ w := not_mem_of_isWord hw (by decide)
    simp [hword ha, hword hb, hword hc]
  have hcode : Text.code (a ++ ' ' :: b ++ ' ' :: c) = a ++ ' ' :: b ++ ' ' :: c := by
    refine code_eq_self hslash ?_ ?_
    · rw [List.append_assoc]
      exact stripStart_word ha _
    · rw [List.reverse_append, List.reverse_cons, List.append_assoc]
      exact stripStart_word (isWord_reverse hc) _
  have hspace : ∀ w ∈ [a, b, c], ' ' ∉ w := by
    simp only [List.mem_cons, List.not_mem_nil, or_false]
    rintro w (rfl | rfl | rfl)
    · exact not_mem_of_isWord ha (by decide)
    · exact not_mem_of_isWord hb (by decide)
    · exact not_mem_of_isWord hc (by decide)
  have hcut : Text.IsCut ' ' (a ++ ' ' :: b ++ ' ' :: c) [a, b, c] :=
    ⟨List.cons_ne_nil _ _, hspace, by simp [List.intercalate]⟩
  rw [hcode]
  exact (Text.isCut_iff.mp hcut).symm

/-- **Three words** with single spaces between them are read as these words. -/
theorem parse_words {a b c : Text} (ha : IsWord a) (hb : IsWord b) (hc : IsWord c) (n : Int) :
    Command.parse (a ++ ' ' :: b ++ ' ' :: c) n =
      (Operation.ofWords a [b, c] n).map fun op => some ⟨op, n⟩ := by
  have hwords := splitOn_code_words ha hb hc
  refine parse_of_splitOn (fun hcode => ?_) hwords (by simp) n
  rw [hcode, List.splitOn_nil] at hwords
  cases hwords

/-- A keyword with a name and a number. -/
theorem ofWords_keyword (k : Keyword) {name : Text} (hname : name ≠ []) {i : Nat}
    (hi : (Numeral.decimal i).length ≤ Numeral.digitLimit) (n : Int) :
    Operation.ofWords k.text [name, Numeral.decimal i] n = k.operation name (.ok i) := by
  have hplain : Text.isPlainDigits (Numeral.decimal i) = true := by
    simp only [Text.isPlainDigits, Bool.and_eq_true, Bool.not_eq_true', List.isEmpty_eq_false_iff,
      List.all_eq_true]
    exact ⟨Numeral.decimal_ne_nil i, fun c => Numeral.isDigit_of_mem_decimal⟩
  have hindex : indexOperand k.text [name, Numeral.decimal i] n = .ok i := by
    simp [indexOperand, readIndex, hplain, Numeral.natural_decimal hi, Numeral.decimal_ne_nil,
      Except.mapError]
  rw [ofWords_name k hname, hindex]

/-! ### A command that is echoed -/

theorem isLegible_of_mem_completed {lines : List CodeLine} {c : Command}
    (h : c ∈ completed lines) : c.operation.IsLegible := by
  obtain ⟨line, -, hline⟩ := List.mem_filterMap.mp h
  unfold commandOn? at hline
  split at hline
  · rename_i hparse
    exact isLegible_of_parse (hline ▸ hparse)
  · cases hline

section Shown

variable {c : Command} {labels : Nat} {code : List Line}

/-- How a command that is compiled is echoed: a word, or three of them. -/
theorem shown_cases (hcodes : Codes labels c.operation code) (hcompiled : c.operation.isCompiled) :
    (∃ op, c.operation = .arithmetic op ∧ c.shown = op.mnemonic) ∨
      ∃ (k : Keyword) (s : Segment) (i : Nat), k.operation s.name (.ok i) = .ok c.operation ∧
        c.operation.operand2? = some i ∧
        c.shown = k.text ++ ' ' :: s.name ++ ' ' :: Numeral.decimal i := by
  obtain ⟨op, line⟩ := c
  cases hcodes with
  | arithmetic op => exact .inl ⟨op, rfl, rfl⟩
  | @push s i _ => exact .inr ⟨.push, s, i, rfl, rfl, rfl⟩
  | @pop s i _ _ _ => exact .inr ⟨.pop, s, i, rfl, rfl, rfl⟩
  | skip hskip => rw [hskip] at hcompiled; cases hcompiled

variable (hcodes : Codes labels c.operation code) (hcompiled : c.operation.isCompiled)

include hcodes hcompiled

/-- **An echoed command is read as it was.** -/
theorem parse_shown (hlegible : c.operation.IsLegible) (n : Int) :
    Command.parse c.shown n = .ok (some ⟨c.operation, n⟩) := by
  rcases shown_cases hcodes hcompiled with ⟨op, hop, hshown⟩ | ⟨k, s, i, hop, hi, hshown⟩
  · rw [hshown, hop]
    cases op <;> rfl
  · have hk : IsWord k.text := by cases k <;> decide
    rw [hshown, parse_words hk (isWord_segment s) (isWord_decimal i),
      ofWords_keyword k (isWord_segment s).1 (hlegible i hi), hop]
    rfl

/-- It does not look like code. -/
theorem isPrefixOf_shown : indentation.isPrefixOf c.shown = false := by
  rcases shown_cases hcodes hcompiled with ⟨op, -, hshown⟩ | ⟨k, s, i, -, -, hshown⟩
  · rw [hshown]
    cases op <;> rfl
  · rw [hshown]
    cases k <;> rfl

theorem isInk_of_mem_shown : ∀ d ∈ c.shown, isInk d = true ∨ d = ' ' := by
  rcases shown_cases hcodes hcompiled with ⟨op, -, hshown⟩ | ⟨k, s, i, -, -, hshown⟩
  · have hop : IsWord op.mnemonic := by cases op <;> decide
    rw [hshown]
    exact fun d hd => .inl (hop.2 d hd)
  · have hk : IsWord k.text := by cases k <;> decide
    intro d hd
    simp only [hshown, List.mem_append, List.mem_cons] at hd
    rcases hd with (hd | rfl | hd) | rfl | hd
    · exact .inl (hk.2 d hd)
    · exact .inr rfl
    · exact .inl ((isWord_segment s).2 d hd)
    · exact .inr rfl
    · exact .inl ((isWord_decimal i).2 d hd)

end Shown

/-! ### The lines of an echo -/

/-- Whether a line of an echo is code. -/
def isIndented (line : Text) : Bool := indentation.isPrefixOf line

/-- The commands that are compiled. -/
def compiledOf (commands : List Command) : List Command :=
  commands.filter (·.operation.isCompiled)

theorem compiledOf_of_skipped {c : Command} (h : c.operation.isCompiled = false)
    (more : List Command) : compiledOf (c :: more) = compiledOf more :=
  List.filter_cons_of_neg (by simp [h])

theorem compiledOf_of_compiled {c : Command} (h : c.operation.isCompiled = true)
    (more : List Command) : compiledOf (c :: more) = c :: compiledOf more :=
  List.filter_cons_of_pos h

theorem isIndented_indentation (line : Text) : isIndented (indentation ++ line) = true := by
  simp [isIndented]

section Echoes

variable {labels : Nat} {commands : List Command} {code : List Line} {echo : List Text}

/-- **The indented lines of an echo** are the lines written. -/
theorem Echoes.indented (h : Echoes labels commands code echo) :
    (echo.filter isIndented).map (·.drop indentation.length) = code.map Line.render := by
  induction h with
  | nil labels => rfl
  | @cons labels c more code rest echo hcodes _ ih =>
    rw [List.filter_append, List.map_append, ih, List.map_append]
    refine congrArg (· ++ _) ?_
    cases hcompiled : c.operation.isCompiled with
    | false => rw [Command.echoed, hcompiled, code_of_skipped hcodes hcompiled]; rfl
    | true =>
      have hcode (lines : List Text) :
          (lines.map (indentation ++ ·)).filter isIndented = lines.map (indentation ++ ·) :=
        List.filter_eq_self.mpr fun line hline => by
          obtain ⟨l, -, rfl⟩ := List.mem_map.mp hline
          exact isIndented_indentation l
      have hshown : ¬ isIndented c.shown = true := by
        simp [isIndented, isPrefixOf_shown hcodes hcompiled]
      rw [Command.echoed, hcompiled, if_pos rfl, Command.echo, List.filter_cons_of_neg hshown, hcode,
        List.map_map]
      refine (List.map_congr_left fun line _ => ?_).trans (List.map_id _)
      exact List.drop_left

/-- **The other lines** are the commands that are compiled. -/
theorem Echoes.others (h : Echoes labels commands code echo) :
    echo.filter (!isIndented ·) = (compiledOf commands).map Command.shown := by
  induction h with
  | nil labels => rfl
  | @cons labels c more code rest echo hcodes _ ih =>
    rw [List.filter_append, ih]
    cases hcompiled : c.operation.isCompiled with
    | false =>
      rw [compiledOf_of_skipped hcompiled, Command.echoed, hcompiled]
      rfl
    | true =>
      have hcode (lines : List Text) :
          (lines.map (indentation ++ ·)).filter (!isIndented ·) = [] :=
        List.filter_eq_nil_iff.mpr fun line hline => by
          obtain ⟨l, -, rfl⟩ := List.mem_map.mp hline
          simp [isIndented_indentation]
      have hshown : (!isIndented c.shown) = true := by
        simp [isIndented, isPrefixOf_shown hcodes hcompiled]
      rw [compiledOf_of_compiled hcompiled, Command.echoed, hcompiled, if_pos rfl, Command.echo,
        List.filter_cons_of_pos (p := (!isIndented ·)) hshown, hcode]
      rfl

theorem Echoes.codes_of_mem (h : Echoes labels commands code echo) {c : Command}
    (hc : c ∈ commands) : ∃ labels code, Codes labels c.operation code := by
  induction h with
  | nil labels => cases hc
  | cons hcodes _ ih =>
    rcases List.mem_cons.mp hc with rfl | hc
    · exact ⟨_, _, hcodes⟩
    · exact ih hc

/-- The lines of an echo are made of visible characters and spaces. -/
theorem Echoes.isInk_of_mem (h : Echoes labels commands code echo) :
    ∀ line ∈ echo, ∀ d ∈ line, isInk d = true ∨ d = ' ' := by
  have hreadable := readable_of_lowers h.lowers
  intro line hline d hd
  cases hindented : isIndented line with
  | true =>
    have hmem : line.drop indentation.length ∈ code.map Line.render :=
      h.indented ▸ List.mem_map_of_mem (List.mem_filter.mpr ⟨hline, hindented⟩)
    obtain ⟨l, hl, hrender⟩ := List.mem_map.mp hmem
    obtain ⟨rest, rfl⟩ := List.isPrefixOf_iff_prefix.mp hindented
    rw [List.drop_left] at hrender
    rcases List.mem_append.mp hd with hspace | hcode
    · exact .inr (by simpa [indentation] using hspace)
    · exact .inl ((hreadable l hl).1.ink d (hrender ▸ hcode))
  | false =>
    have hmem : line ∈ (compiledOf commands).map Command.shown :=
      h.others ▸ List.mem_filter.mpr ⟨hline, by simp [hindented]⟩
    obtain ⟨c, hc, rfl⟩ := List.mem_map.mp hmem
    obtain ⟨hc, hcompiled⟩ := List.mem_filter.mp hc
    obtain ⟨_, _, hcodes⟩ := h.codes_of_mem hc
    exact isInk_of_mem_shown hcodes hcompiled d hd

/-- An echo has no control sequences in it. -/
theorem Echoes.unstyled (h : Echoes labels commands code echo) :
    Text.unstyled (Text.ofLines echo) = Text.ofLines echo := by
  refine Text.unstyled_eq_self fun hmem => ?_
  obtain ⟨line, hline, hmem⟩ := List.mem_flatMap.mp hmem
  rcases List.mem_append.mp hmem with hmem | hmem
  · exact absurd (h.isInk_of_mem line hline _ hmem) (by decide)
  · exact absurd hmem (by decide)

end Echoes

/-- Lines without line feeds are found again in the text that they make. A last line is empty. -/
theorem feedLines_ofLines {lines : List Text} (h : ∀ l ∈ lines, '\n' ∉ l) :
    Text.feedLines (Text.ofLines lines) = lines ++ [[]] := by
  induction lines with
  | nil => rfl
  | cons l more ih =>
    rw [Text.feedLines, Text.ofLines_cons,
      List.splitOn_append_cons_self_of_not_mem (h l (List.mem_cons_self ..)), List.cons_append]
    exact congrArg (l :: ·) (ih fun l' hl' => h l' (List.mem_cons_of_mem l hl'))

/-! ### The echo as a source -/

section Source

variable {commands : List Command}
  (hcodes : ∀ c ∈ commands, ∃ labels code, Codes labels c.operation code)
  (hcompiled : ∀ c ∈ commands, c.operation.isCompiled = true)
  (hlegible : ∀ c ∈ commands, c.operation.IsLegible)

include hcodes hcompiled in
theorem feedLines_shown (hne : commands ≠ []) :
    Text.feedLines (['\n'].intercalate (commands.map Command.shown)) =
      commands.map Command.shown := by
  refine List.splitOn_intercalate '\n' (fun line hline => ?_) (by simpa using hne)
  obtain ⟨c, hc, rfl⟩ := List.mem_map.mp hline
  obtain ⟨_, _, hcode⟩ := hcodes c hc
  exact fun hfeed => absurd (isInk_of_mem_shown hcode (hcompiled c hc) _ hfeed) (by decide)

include hcodes hcompiled hlegible

theorem parse_code_shown {c : Command} (hc : c ∈ commands) (n : Int) :
    Command.parse (Text.code c.shown) n = .ok (some ⟨c.operation, n⟩) := by
  obtain ⟨_, _, hcode⟩ := hcodes c hc
  rw [parse_code, parse_shown hcode (hcompiled c hc) (hlegible c hc)]

/-- **Commands written one under the other** have their operations. -/
theorem operations_shown :
    operations (['\n'].intercalate (commands.map Command.shown)) =
      commands.map (·.operation) := by
  by_cases hne : commands = []
  · subst hne; rfl
  have hline {c : Command} (hc : c ∈ commands) :
      (CodeLine.ofLine? c.shown 0).bind operationOn? = some c.operation := by
    have hparse := parse_code_shown hcodes hcompiled hlegible hc
    have hcode : (Text.code c.shown).isEmpty = false := by
      -- a blank line would hold no command
      rw [List.isEmpty_eq_false_iff]
      intro hblank
      have := hparse 0
      rw [hblank] at this
      cases this
    simp only [CodeLine.ofLine?, hcode, Bool.false_eq_true, if_false, Option.bind_some,
      operationOn?, hparse]
  unfold operations sourceLines CodeLine.ofLines
  rw [filterMap_operationOn?, feedLines_shown hcodes hcompiled hne, List.filterMap_map]
  refine (List.filterMap_congr fun c hc => hline hc).trans ?_
  exact congrFun (List.filterMap_eq_map (f := fun c : Command => c.operation)) commands

/-- And none of them is at fault. -/
theorem faultOn?_shown :
    ∀ line ∈ sourceLines (['\n'].intercalate (commands.map Command.shown)),
      faultOn? line = none := by
  intro line hline
  obtain ⟨i, raw, hraw, hblank, rfl⟩ := mem_sourceLines_iff.mp hline
  have hmem : ∃ c ∈ commands, c.shown = raw := by
    by_cases hne : commands = []
    · subst hne
      have : raw ∈ [([] : Text)] := List.mem_of_getElem? hraw
      rw [List.mem_singleton.mp this] at hblank
      exact absurd rfl hblank
    · rw [feedLines_shown hcodes hcompiled hne] at hraw
      exact List.mem_map.mp (List.mem_of_getElem? hraw)
  obtain ⟨c, hc, rfl⟩ := hmem
  obtain ⟨labels, code, hcode⟩ := hcodes c hc
  have hparse := parse_code_shown hcodes hcompiled hlegible hc
  simp only [faultOn?, hparse]
  cases hlower : c.operation.lower 0 with
  | ok _ => rfl
  | error cause =>
    have hok := lower_eq_ok_iff.mpr hcode
    rw [lower_of_error hlower labels] at hok
    cases hok

/-- **Commands written one under the other** are a source that is compiled to their code. -/
theorem compile_shown (test : Bool) {code : List Line}
    (hlowers : Lowers 0 (commands.map (·.operation)) code) :
    (∃ n, (compile test (['\n'].intercalate (commands.map Command.shown))).result = .ok n) ∧
      (compile test (['\n'].intercalate (commands.map Command.shown))).text =
        Text.ofLines (code.map Line.render) := by
  have hfaults := faultOn?_shown hcodes hcompiled hlegible
  obtain ⟨code', hlowers', htext, -, -, hresult⟩ :=
    lowers_of_completed test (['\n'].intercalate (commands.map Command.shown))
  rw [map_operation_completed hfaults] at hlowers'
  have hcode : code = code' := by
    rw [← operations_shown hcodes hcompiled hlegible] at hlowers
    exact hlowers.unique hlowers'
  rw [verdict, List.findSome?_eq_none_iff.mpr hfaults] at hresult
  exact ⟨⟨_, hresult⟩, hcode ▸ htext⟩

end Source

/-! ### The echo, the output and the reader agree -/

/-- Whether there is an echo changes nothing else of what a compilation leaves behind. -/
theorem compile_test_irrelevant (source : Text) :
    (compile true source).text = (compile false source).text ∧
      (compile true source).result = (compile false source).result ∧
      (compile true source).notices = (compile false source).notices := by
  obtain ⟨code, hlowers, htext, -, hnotices, hresult⟩ := lowers_of_completed true source
  obtain ⟨code', hlowers', htext', -, hnotices', hresult'⟩ := lowers_of_completed false source
  obtain rfl := hlowers.unique hlowers'
  exact ⟨htext.trans htext'.symm, hresult.trans hresult'.symm, hnotices.trans hnotices'.symm⟩

/-- **The echo of a compilation**, however it ends. It changes nothing of what is written, answered
or reported, and it is printed as it is. Its indented lines are, in order, the lines written. Its
other lines are the commands that were compiled before a fault: each is read as the operation that
it was echoed for, and as a source they are compiled without a fault to the same text. -/
theorem compile_echo_agrees (source : Text) :
    (compile true source).text = (compile false source).text ∧
    (compile true source).result = (compile false source).result ∧
    (compile true source).notices = (compile false source).notices ∧
    (compile false source).echo = [] ∧
    Text.unstyled (compile true source).echo = (compile true source).echo ∧
    ∃ echo : List Text, Text.feedLines (compile true source).echo = echo ++ [[]] ∧
      Text.feedLines (compile true source).text =
        (echo.filter isIndented).map (·.drop indentation.length) ++ [[]] ∧
      List.Forall₂ (fun line c => ∀ n, Command.parse line n = .ok (some ⟨c.operation, n⟩))
        (echo.filter (!isIndented ·)) (compiledOf (completed (sourceLines source))) ∧
      ∀ test,
        (∃ n, (compile test (['\n'].intercalate (echo.filter (!isIndented ·)))).result = .ok n) ∧
        (compile test (['\n'].intercalate (echo.filter (!isIndented ·)))).text =
          (compile true source).text := by
  obtain ⟨htext, hresult, hnotices⟩ := compile_test_irrelevant source
  obtain ⟨code, echo, hechoes, hecho, hwriter, -⟩ := echoes_of_completed true source
  obtain ⟨_, _, _, hnone, -⟩ := echoes_of_completed false source
  have hwritten : (compile true source).text = Text.ofLines (code.map Line.render) := by
    rw [Compilation.text, hwriter, Sink.text]
  have hfeed : ∀ line ∈ echo, '\n' ∉ line := fun line hline hmem =>
    absurd (hechoes.isInk_of_mem line hline _ hmem) (by decide)
  have hcodes : ∀ c ∈ compiledOf (completed (sourceLines source)),
      ∃ labels code, Codes labels c.operation code :=
    fun c hc => hechoes.codes_of_mem (List.mem_of_mem_filter hc)
  have hcompiled : ∀ c ∈ compiledOf (completed (sourceLines source)),
      c.operation.isCompiled = true := fun c hc => (List.mem_filter.mp hc).2
  have hlegible : ∀ c ∈ compiledOf (completed (sourceLines source)), c.operation.IsLegible :=
    fun c hc => isLegible_of_mem_completed (List.mem_of_mem_filter hc)
  refine ⟨htext, hresult, hnotices, ?_, ?_, echo, ?_, ?_, ?_, fun test => ?_⟩
  · rw [Compilation.echo, hnone]
    rfl
  · rw [Compilation.echo, hecho, if_pos rfl]
    exact hechoes.unstyled
  · rw [Compilation.echo, hecho, if_pos rfl]
    exact feedLines_ofLines hfeed
  · rw [hwritten, hechoes.indented]
    refine feedLines_ofLines fun line hline hmem => ?_
    obtain ⟨l, hl, rfl⟩ := List.mem_map.mp hline
    exact absurd ((readable_of_lowers hechoes.lowers l hl).1.ink '\n' hmem) (by decide)
  · rw [hechoes.others, List.forall₂_map_left_iff, List.forall₂_same]
    intro c hc
    obtain ⟨_, _, hcode⟩ := hcodes c hc
    exact parse_shown hcode (hcompiled c hc) (hlegible c hc)
  · have hlowers : Lowers 0 ((compiledOf (completed (sourceLines source))).map (·.operation))
        code := by
      have hops := lowers_compiled hechoes.lowers
      rw [List.filter_map] at hops
      exact hops
    rw [hechoes.others, hwritten]
    exact compile_shown hcodes hcompiled hlegible test hlowers

end HackStack.Stack
