import HackStack.Proofs.Assembling
import Mathlib.Data.Finset.Card

/-!
# What the symbols of an assembly source stand for

The assembler goes over a source twice and keeps a table of symbols. What comes out can
be said without the table. The operand of an address is a number if it is all digits.
Otherwise it is what its last declaration in the source makes it, wherever that stands,
else a symbol of the machine, else a variable, and the variables are numbered in the
order of their first use (`Resolves`). The table has just these values
(`operand_eq_ok_iff`).

A line is at fault if its operand is too large or cannot be read, or if its computation
cannot be read (`Faults`). A source is assembled if no line is at fault, and then each
instruction is that of its line (`Assembles`, `assemble_eq_ok_iff`). Otherwise the first
line at fault is reported (`assemble_eq_error_iff`).
-/

namespace HackStack.Text

/-! ### Lines -/

/-- A text cut into its lines. A return and the line feed behind it end a line together, every other
line break does by itself. -/
inductive Cut : Text → List Text → Prop
  | last {line : Text} : (∀ c ∈ line, isLineBreak c = false) → Cut line [line]
  | returnFeed {line rest : Text} {more : List Text} : (∀ c ∈ line, isLineBreak c = false) →
      Cut rest more → Cut (line ++ '\r' :: '\n' :: rest) (line :: more)
  | single {line rest : Text} {c : Char} {more : List Text} :
      (∀ c ∈ line, isLineBreak c = false) → isLineBreak c = true →
      (c = '\r' → rest.head? ≠ some '\n') → Cut rest more → Cut (line ++ c :: rest) (line :: more)

theorem unifyReturnsOnto_append (acc more t : Text) :
    unifyReturnsOnto (acc ++ more) t = more.reverse ++ unifyReturnsOnto acc t := by
  fun_induction unifyReturnsOnto acc t with
  | case1 acc => simp [unifyReturnsOnto]
  | case2 acc rest ih => rw [unifyReturnsOnto, ← ih, List.cons_append]
  | case3 acc rest hfeed ih => rw [unifyReturnsOnto, ← ih, List.cons_append]; exact hfeed
  | case4 acc c rest hreturnFeed hreturn ih =>
    rw [unifyReturnsOnto, ← ih, List.cons_append]
    · exact hreturnFeed
    · exact hreturn

theorem unifyReturns_cons_of_ne {c : Char} (h : c ≠ '\r') (rest : Text) :
    unifyReturns (c :: rest) = c :: unifyReturns rest := by
  unfold unifyReturns
  rw [unifyReturnsOnto]
  · exact unifyReturnsOnto_append [] [c] rest
  · exact fun _ hc => absurd hc h
  · exact h

theorem unifyReturns_returnFeed (rest : Text) :
    unifyReturns ('\r' :: '\n' :: rest) = '\n' :: unifyReturns rest :=
  unifyReturnsOnto_append [] ['\n'] rest

theorem unifyReturns_return {rest : Text} (h : rest.head? ≠ some '\n') :
    unifyReturns ('\r' :: rest) = '\n' :: unifyReturns rest := by
  unfold unifyReturns
  rw [unifyReturnsOnto]
  · exact unifyReturnsOnto_append [] ['\n'] rest
  · rintro _ rfl
    exact h rfl

/-- A character in front of a text belongs to its first line. -/
theorem Cut.cons {c : Char} (hc : isLineBreak c = false) {t : Text} {lines : List Text}
    (h : Cut t lines) : Cut (c :: t) (lines.modifyHead (c :: ·)) := by
  have hline {line : Text} (hline : ∀ d ∈ line, isLineBreak d = false) :
      ∀ d ∈ c :: line, isLineBreak d = false := List.forall_mem_cons.mpr ⟨hc, hline⟩
  cases h with
  | last h => exact .last (hline h)
  | returnFeed h hrest => exact .returnFeed (hline h) hrest
  | single h hbreak hfeed hrest => exact .single (hline h) hbreak hfeed hrest

/-- **The lines of a text** are the text cut at its line breaks. -/
theorem cut_lines (t : Text) : Cut t (lines t) := by
  unfold lines
  induction ([] : Text), t using unifyReturnsOnto.induct with
  | case1 acc => exact .last nofun
  | case2 acc rest ih =>
    rw [unifyReturns_returnFeed, List.splitOnP_cons_eq_if_modifyHead, if_pos (by decide)]
    exact @Cut.returnFeed [] rest _ nofun ih
  | case3 acc rest hfeed ih =>
    have hhead : rest.head? ≠ some '\n' := fun hhead =>
      hfeed rest.tail (List.cons_head?_tail hhead).symm
    rw [unifyReturns_return hhead, List.splitOnP_cons_eq_if_modifyHead, if_pos (by decide)]
    exact @Cut.single [] rest _ _ nofun (by decide) (fun _ => hhead) ih
  | case4 acc c rest _ hreturn ih =>
    rw [unifyReturns_cons_of_ne hreturn, List.splitOnP_cons_eq_if_modifyHead]
    split
    · rename_i hbreak
      exact @Cut.single [] rest _ _ nofun hbreak (fun hc => absurd hc hreturn) ih
    · rename_i hbreak
      exact ih.cons (Bool.eq_false_iff.mpr hbreak)

end HackStack.Text

namespace HackStack.Hack

/-- **The lines of a source** are those of the text that are not blank, each with its number there,
counted from one. -/
theorem mem_sourceLines_iff {source : Text} {l : SourceLine} :
    l ∈ sourceLines source ↔
      ∃ i raw, (Text.lines source)[i]? = some raw ∧ Text.code raw ≠ [] ∧
        l = ⟨i + 1, Line.ofCode (Text.code raw)⟩ := by
  rw [sourceLines, List.mem_map]
  constructor
  · rintro ⟨line, hline, rfl⟩
    obtain ⟨i, raw, hraw, hcode, rfl⟩ := CodeLine.mem_ofLines_iff.mp hline
    exact ⟨i, raw, hraw, hcode, rfl⟩
  · rintro ⟨i, raw, hraw, hcode, rfl⟩
    exact ⟨_, CodeLine.mem_ofLines_iff.mpr ⟨i, raw, hraw, hcode, rfl⟩, rfl⟩

/-- The lines of a source are in order. -/
theorem pairwise_number_sourceLines (source : Text) :
    (sourceLines source).Pairwise fun l m => l.number < m.number := by
  rw [sourceLines, List.pairwise_map]
  exact CodeLine.pairwise_number_ofLines (Text.lines source)

/-! ### What a symbol stands for -/

/-- A name that lines declare as a label. -/
def Declared (lines : List SourceLine) (name : Text) : Prop := ∃ l ∈ lines, l.line = .label name

/-- A name that is neither a number nor a label nor a symbol of the machine. -/
structure IsVariable (lines : List SourceLine) (name : Text) : Prop where
  not_digits : Text.isDigits name = false
  not_declared : ¬ Declared lines name
  not_predefined : predefined.lookup name = none

instance (lines : List SourceLine) (name : Text) : Decidable (Declared lines name) :=
  inferInstanceAs (Decidable (∃ l ∈ lines, l.line = .label name))

instance (lines : List SourceLine) (name : Text) : Decidable (IsVariable lines name) :=
  decidable_of_iff
    (Text.isDigits name = false ∧ ¬ Declared lines name ∧ predefined.lookup name = none)
    ⟨fun ⟨hdigits, hdeclared, hpredefined⟩ => ⟨hdigits, hdeclared, hpredefined⟩,
      fun h => ⟨h.not_digits, h.not_declared, h.not_predefined⟩⟩

/-- The symbols that lines refer to. -/
def symbolsIn (lines : List SourceLine) : List Text := lines.filterMap (·.line.symbol?)

/-- The variables of a source that are used on the lines `before`. -/
def variablesIn (lines before : List SourceLine) : Finset Text :=
  ((symbolsIn before).filter fun name => IsVariable lines name).toFinset

/-- What an operand stands for in a source. -/
inductive Resolves (lines : List SourceLine) : Text → Nat → Prop
  /-- Digits are a number. -/
  | number {operand : Text} {value : Nat} : Text.isDigits operand = true →
      Numeral.read .decimal operand = .ok value → Resolves lines operand value
  /-- A label is the number of instructions before its last declaration. -/
  | label {before after : List SourceLine} {number : Nat} {name : Text} :
      Text.isDigits name = false → lines = before ++ ⟨number, .label name⟩ :: after →
      ¬ Declared after name → Resolves lines name (instructionLines before).length
  /-- A symbol of the machine that is not declared is what it is for the machine. -/
  | predefined {name : Text} {value : Nat} : Text.isDigits name = false →
      ¬ Declared lines name → predefined.lookup name = some value → Resolves lines name value
  /-- A variable gets the address behind those of the variables that are used before its first
  use. -/
  | allocated {before after : List SourceLine} {number : Nat} {name : Text} :
      IsVariable lines name → lines = before ++ ⟨number, .address name⟩ :: after →
      (∀ l ∈ before, l.line ≠ .address name) →
      Resolves lines name (firstVariable + (variablesIn lines before).card)

/-! ### The table -/

section Known

variable {lines : List SourceLine} {name : Text}

/-- Of the declarations of a name one is the last. -/
theorem Declared.exists_last (h : Declared lines name) :
    ∃ before number after, lines = before ++ ⟨number, .label name⟩ :: after ∧
      ¬ Declared after name := by
  induction lines with
  | nil => obtain ⟨l, hl, -⟩ := h; cases hl
  | cons l more ih =>
    by_cases hmore : Declared more name
    · obtain ⟨before, number, after, rfl, hafter⟩ := ih hmore
      exact ⟨l :: before, number, after, rfl, hafter⟩
    · obtain ⟨m, hm, hline⟩ := h
      rcases List.mem_cons.mp hm with rfl | hm
      · obtain ⟨number, line⟩ := m
        cases hline
        exact ⟨[], number, more, rfl, hmore⟩
      · exact absurd ⟨m, hm, hline⟩ hmore

/-- **The last declaration counts**, and it beats the symbols that were there before. -/
theorem lookup_labelsOnto_last {before after : List SourceLine} (h : ¬ Declared after name)
    (table : Symbols) (number : Nat) :
    (labelsOnto table 0 (before ++ ⟨number, .label name⟩ :: after)).lookup name =
      some (instructionLines before).length := by
  rw [labelsOnto_append, labelsOnto,
    lookup_labelsOnto fun l hl hline => h ⟨l, hl, hline⟩, List.lookup_cons_self, Nat.zero_add]

theorem lookup_labelsOnto_of_not_declared (h : ¬ Declared lines name) (table : Symbols) :
    (labelsOnto table 0 lines).lookup name = table.lookup name :=
  lookup_labelsOnto (fun l hl hline => h ⟨l, hl, hline⟩) table 0

/-- The names that are left for variables. -/
theorem lookup_known_eq_none_iff :
    (labelsOnto predefined 0 lines).lookup name = none ↔
      ¬ Declared lines name ∧ predefined.lookup name = none := by
  constructor
  · intro h
    have hnone (hsome : (predefined.lookup name).isSome = true ∨ Declared lines name) : False := by
      have := isSome_lookup_labelsOnto hsome 0
      rw [h] at this
      cases this
    exact ⟨fun hdeclared => hnone (.inr hdeclared),
      Option.not_isSome_iff_eq_none.mp fun hsome => hnone (.inl hsome)⟩
  · rintro ⟨hdeclared, hpredefined⟩
    rw [lookup_labelsOnto_of_not_declared hdeclared, hpredefined]

end Known

section Variables

variable {lines : List SourceLine} {name : Text}

theorem symbol?_eq_some_iff {line : Line} :
    line.symbol? = some name ↔ line = .address name ∧ Text.isDigits name = false := by
  cases line with
  | label _ | compute _ => simp [Line.symbol?]
  | address operand =>
    simp only [Line.symbol?, Option.ite_none_left_eq_some, Option.some.injEq, Line.address.injEq,
      Bool.not_eq_true]
    constructor
    · rintro ⟨hdigits, rfl⟩
      exact ⟨rfl, hdigits⟩
    · rintro ⟨rfl, hdigits⟩
      exact ⟨hdigits, rfl⟩

/-- The symbols that lines refer to. -/
theorem mem_symbolsIn :
    name ∈ symbolsIn lines ↔ (∃ l ∈ lines, l.line = .address name) ∧ Text.isDigits name = false := by
  simp only [symbolsIn, List.mem_filterMap, symbol?_eq_some_iff]
  constructor
  · rintro ⟨l, hl, hline, hdigits⟩
    exact ⟨⟨l, hl, hline⟩, hdigits⟩
  · rintro ⟨⟨l, hl, hline⟩, hdigits⟩
    exact ⟨l, hl, hline, hdigits⟩

/-- The variables in the table are the ones of the source. -/
theorem variableNames_ofLines (lines : List SourceLine) :
    (SymbolTable.ofLines lines).variableNames =
      ((symbolsIn lines).filter fun name => IsVariable lines name).eraseDups := by
  rw [SymbolTable.ofLines, variableNames, symbolsIn]
  refine congrArg List.eraseDups (List.filter_congr fun name hname => ?_)
  have hdigits := (mem_symbolsIn.mp hname).2
  rw [Bool.eq_iff_iff, Option.isNone_iff_eq_none, lookup_known_eq_none_iff, decide_eq_true_iff]
  exact ⟨fun h => ⟨hdigits, h.1, h.2⟩, fun h => ⟨h.not_declared, h.not_predefined⟩⟩

/-- To erase repetitions leaves each name once. -/
theorem nodup_eraseDups (names : List Text) : names.eraseDups.Nodup := by
  induction hlength : names.length using Nat.strong_induction_on generalizing names with
  | _ n ih =>
    subst hlength
    cases names with
    | nil => exact List.nodup_nil
    | cons name more =>
      rw [List.eraseDups_cons, List.nodup_cons, List.mem_eraseDups]
      refine ⟨by simp, ih _ ?_ _ rfl⟩
      exact Nat.lt_succ_of_le (List.length_filter_le _ _)

theorem length_eraseDups (names : List Text) : names.eraseDups.length = names.toFinset.card := by
  rw [← List.toFinset_card_of_nodup (nodup_eraseDups names)]
  exact congrArg Finset.card (Finset.ext fun name => by simp)

/-- **Variables are numbered by their first use.** -/
theorem idxOf_variableNames {before after : List SourceLine} {number : Nat}
    (hvariable : IsVariable lines name) (hlines : lines = before ++ ⟨number, .address name⟩ :: after)
    (hfirst : ∀ l ∈ before, l.line ≠ .address name) :
    (SymbolTable.ofLines lines).variableNames.idxOf name = (variablesIn lines before).card := by
  have hsymbols : symbolsIn lines = symbolsIn before ++ name :: symbolsIn after := by
    have hsymbol : (Line.address name).symbol? = some name :=
      symbol?_eq_some_iff.mpr ⟨rfl, hvariable.not_digits⟩
    rw [hlines, symbolsIn, List.filterMap_append,
      List.filterMap_cons_some (f := fun l : SourceLine => l.line.symbol?) hsymbol]
    rfl
  have hbefore : name ∉ (symbolsIn before).filter fun name => IsVariable lines name := by
    intro hmem
    obtain ⟨⟨l, hl, hline⟩, -⟩ := mem_symbolsIn.mp (List.mem_of_mem_filter hmem)
    exact hfirst l hl hline
  rw [variableNames_ofLines, hsymbols, List.filter_append,
    List.filter_cons_of_pos (by simpa using hvariable), List.eraseDups_append, List.idxOf_append,
    if_neg (by rwa [List.mem_eraseDups]), length_eraseDups, variablesIn]
  -- the name itself opens what is new behind `before`
  rw [List.removeAll, List.filter_cons_of_pos (by rwa [Bool.not_eq_true', ← Bool.not_eq_true,
    List.elem_iff]), List.eraseDups_cons, List.idxOf_cons_self, Nat.zero_add]

/-- What is used is used for a first time. -/
theorem exists_first_use (h : ∃ l ∈ lines, l.line = .address name) :
    ∃ before number after, lines = before ++ ⟨number, .address name⟩ :: after ∧
      ∀ l ∈ before, l.line ≠ .address name := by
  have hfind : (lines.find? fun l => l.line == .address name).isSome = true :=
    List.find?_isSome.mpr (by simpa using h)
  obtain ⟨l, hl⟩ := Option.isSome_iff_exists.mp hfind
  obtain ⟨hline, before, after, hlines, hbefore⟩ := List.find?_eq_some_iff_append.mp hl
  obtain ⟨number, line⟩ := l
  obtain rfl : line = .address name := by simpa using hline
  exact ⟨before, number, after, hlines, fun m hm => by simpa using hbefore m hm⟩

end Variables

/-! ### Numbers -/

section Numbers

/-- No digit counts as a sign. -/
theorem plain_ne_minus {c : Char} (h : Text.isDigit c = true) : Numeral.plain c ≠ '-' := by
  unfold Numeral.plain
  split
  · rintro rfl
    exact absurd h (by decide)
  · split
    · decide
    · cases hvalue : Text.decimalValue? c with
      | none => decide
      | some d =>
        obtain ⟨z, hz, rfl⟩ := Option.map_eq_some_iff.mp hvalue
        have hrange := List.find?_some hz
        simp only [Bool.and_eq_true, decide_eq_true_eq] at hrange
        have hdigit : ∀ d < 10, Char.ofNat ('0'.toNat + d) ≠ '-' := by decide
        exact hdigit _ (by omega)

theorem signed_of_ne_minus {t : Text} (h : '-' ∉ t) : (Numeral.signed t).1 = 1 := by
  unfold Numeral.signed
  split
  · simp at h
  · rfl
  · rfl

/-- Digits are not read as a negative number. -/
theorem exists_nat_of_read {t : Text} {z : Int} (hdigits : Text.isDigits t = true)
    (h : Numeral.read .decimal t = .ok z) : ∃ n : Nat, z = n := by
  have hminus : '-' ∉ (t.map Numeral.plain).dropWhile Numeral.isPad := by
    intro hmem
    obtain ⟨c, hc, hplain⟩ := List.mem_map.mp ((List.dropWhile_sublist _).mem hmem)
    simp only [Text.isDigits, Bool.and_eq_true, List.all_eq_true] at hdigits
    exact plain_ne_minus (hdigits.2 c hc) hplain
  have hsign := signed_of_ne_minus hminus
  unfold Numeral.read at h
  generalize Numeral.signed ((t.map Numeral.plain).dropWhile Numeral.isPad) = s at h hsign
  obtain ⟨sign, numeral⟩ := s
  obtain rfl : sign = 1 := hsign
  simp only at h
  split at h
  · cases h
  · rename_i run _
    split at h
    · cases h
    · split at h
      · cases h
      · split at h
        · exact ⟨run.value, by rw [← Except.ok.inj h, Int.one_mul]⟩
        · cases h

end Numbers

/-! ### The table has the values of the source -/

section Table

variable {lines : List SourceLine} {operand name : Text} {v w : Nat}

theorem value_of_known (h : (labelsOnto predefined 0 lines).lookup name = some v) :
    (SymbolTable.ofLines lines).value name = v := by
  rw [SymbolTable.value, SymbolTable.ofLines, h, Option.getD_some]

theorem value_of_isVariable (h : IsVariable lines name) :
    (SymbolTable.ofLines lines).value name =
      firstVariable + (SymbolTable.ofLines lines).variableNames.idxOf name := by
  have hnone := lookup_known_eq_none_iff.mpr ⟨h.not_declared, h.not_predefined⟩
  rw [SymbolTable.value]
  simp only [SymbolTable.ofLines, hnone, Option.getD_none]

theorem operand_of_not_digits (table : SymbolTable) (h : Text.isDigits name = false) :
    table.operand name = .ok (table.value name) := by
  rw [SymbolTable.operand, if_neg (by simp [h])]

/-- What an operand stands for is in the table. -/
theorem operand_of_resolves (h : Resolves lines operand v) :
    (SymbolTable.ofLines lines).operand operand = .ok v := by
  cases h with
  | number hdigits hread =>
    rw [SymbolTable.operand, if_pos hdigits, hread]
    rfl
  | label hdigits hlines hlast =>
    rw [operand_of_not_digits _ hdigits, value_of_known]
    rw [hlines]
    exact lookup_labelsOnto_last hlast predefined _
  | predefined hdigits hdeclared hlookup =>
    rw [operand_of_not_digits _ hdigits, value_of_known]
    rw [lookup_labelsOnto_of_not_declared hdeclared, hlookup]
  | allocated hvariable hlines hfirst =>
    rw [operand_of_not_digits _ hvariable.not_digits, value_of_isVariable hvariable,
      idxOf_variableNames hvariable hlines hfirst]

/-- A symbol that is used stands for something. -/
theorem exists_resolves (hdigits : Text.isDigits name = false)
    (hused : ∃ l ∈ lines, l.line = .address name) : ∃ v, Resolves lines name v := by
  by_cases hdeclared : Declared lines name
  · obtain ⟨before, number, after, hlines, hlast⟩ := hdeclared.exists_last
    exact ⟨_, .label hdigits hlines hlast⟩
  · cases hlookup : predefined.lookup name with
    | some v => exact ⟨v, .predefined hdigits hdeclared hlookup⟩
    | none =>
      obtain ⟨before, number, after, hlines, hfirst⟩ := exists_first_use hused
      exact ⟨_, .allocated ⟨hdigits, hdeclared, hlookup⟩ hlines hfirst⟩

/-- **The table has what the operands of a source stand for.** -/
theorem operand_eq_ok_iff (hused : ∃ l ∈ lines, l.line = .address operand) :
    (SymbolTable.ofLines lines).operand operand = .ok v ↔ Resolves lines operand v := by
  refine ⟨fun h => ?_, operand_of_resolves⟩
  by_cases hdigits : Text.isDigits operand = true
  · rw [SymbolTable.operand, if_pos hdigits] at h
    cases hread : Numeral.read .decimal operand with
    | error e => rw [hread] at h; cases h
    | ok z =>
      obtain ⟨n, rfl⟩ := exists_nat_of_read hdigits hread
      rw [hread] at h
      cases h
      exact .number hdigits hread
  · obtain ⟨w, hw⟩ := exists_resolves (Bool.eq_false_iff.mpr hdigits) hused
    rw [operand_of_resolves hw] at h
    cases h
    exact hw

/-- The one fault of an operand is a number that cannot be read. -/
theorem operand_eq_error_iff {table : SymbolTable} {e : AssemblyError} :
    table.operand operand = .error e ↔ Text.isDigits operand = true ∧
      ∃ fault, Numeral.read .decimal operand = .error fault ∧ e = .numeral fault := by
  unfold SymbolTable.operand
  split
  · rename_i hdigits
    cases hread : Numeral.read .decimal operand with
    | ok z => simp [Except.map, Except.mapError]
    | error fault => simp [Except.map, Except.mapError, hdigits, eq_comm]
  · simp_all

/-- An operand stands for one thing only. -/
theorem Resolves.unique (hv : Resolves lines operand v) (hw : Resolves lines operand w) : v = w :=
  Except.ok.inj ((operand_of_resolves hv).symm.trans (operand_of_resolves hw))

theorem mem_variableNames_of_resolves (hname : IsVariable lines name)
    (h : Resolves lines name v) : name ∈ (SymbolTable.ofLines lines).variableNames := by
  cases h with
  | number hdigits _ => rw [hname.not_digits] at hdigits; cases hdigits
  | label _ hlines _ =>
    have hdeclared := hlines ▸ List.mem_append_right _ (List.mem_cons_self ..)
    exact absurd ⟨_, hdeclared, rfl⟩ hname.not_declared
  | predefined _ _ hlookup => rw [hname.not_predefined] at hlookup; cases hlookup
  | allocated _ hlines _ =>
    have hused := hlines ▸ List.mem_append_right _ (List.mem_cons_self ..)
    rw [variableNames_ofLines, List.mem_eraseDups, List.mem_filter, mem_symbolsIn]
    exact ⟨⟨⟨_, hused, rfl⟩, hname.not_digits⟩, by simpa using hname⟩

/-- **Variables have addresses of their own**: one each, and no two the same. -/
theorem Resolves.eq_iff {a b : Text} (ha : IsVariable lines a) (hb : IsVariable lines b)
    (hv : Resolves lines a v) (hw : Resolves lines b w) : v = w ↔ a = b := by
  have hvalue {name : Text} {n : Nat} (hname : IsVariable lines name)
      (hn : Resolves lines name n) :
      n = firstVariable + (SymbolTable.ofLines lines).variableNames.idxOf name := by
    have hoperand := operand_of_resolves hn
    rw [operand_of_not_digits _ hname.not_digits, value_of_isVariable hname] at hoperand
    exact (Except.ok.inj hoperand).symm
  rw [hvalue ha hv, hvalue hb hw, Nat.add_left_cancel_iff,
    List.idxOf_inj (mem_variableNames_of_resolves ha hv)]

end Table

/-! ### Instructions and faults -/

/-- The instruction that a line of a source becomes. -/
inductive Assembles (lines : List SourceLine) : SourceLine → Instruction → Prop
  | address {number : Nat} {operand : Text} {value : Nat} : Resolves lines operand value →
      value ≤ largestValue → Assembles lines ⟨number, .address operand⟩ ⟨.address value, number⟩
  | compute {number : Nat} {text : Text} {op : Operation} :
      decode text number = .ok ⟨op, number⟩ →
      Assembles lines ⟨number, .compute text⟩ ⟨op, number⟩

/-- The fault of a line of a source. -/
inductive Faults (lines : List SourceLine) : SourceLine → AssemblyError → Prop
  | tooLarge {number : Nat} {operand : Text} {value : Nat} : Resolves lines operand value →
      largestValue < value →
      Faults lines ⟨number, .address operand⟩ (.valueTooLarge number value)
  | numeral {number : Nat} {operand : Text} {fault : Numeral.Error} :
      Text.isDigits operand = true → Numeral.read .decimal operand = .error fault →
      Faults lines ⟨number, .address operand⟩ (.numeral fault)
  | compute {number : Nat} {text : Text} {e : AssemblyError} : decode text number = .error e →
      Faults lines ⟨number, .compute text⟩ e

section Instructions

variable {lines : List SourceLine} {l : SourceLine}

theorem Assembles.line_eq {i : Instruction} (h : Assembles lines l i) : i.line = l.number := by
  cases h <;> rfl

/-- The instruction of a computation carries the number of its line. -/
theorem line_of_decode {text : Text} {line : Int} {i : Instruction}
    (h : decode text line = .ok i) : i.line = line := by
  unfold decode at h
  simp only at h
  split at h
  · cases h
  · split at h
    · cases h
    · split at h
      · cases h
      · rw [← Except.ok.inj h]

theorem not_isDeclaration_of_mem (h : l ∈ instructionLines lines) : l.line.isDeclaration = false := by
  simpa using (List.mem_filter.mp h).2

/-- **A line becomes its instruction.** -/
theorem instruction_eq_ok_iff (hl : l ∈ instructionLines lines) {i : Instruction} :
    (SymbolTable.ofLines lines).instruction l = .ok i ↔ Assembles lines l i := by
  have hdeclaration := not_isDeclaration_of_mem hl
  have hmem : l ∈ lines := List.mem_of_mem_filter hl
  obtain ⟨number, line⟩ := l
  cases line with
  | label name => cases hdeclaration
  | compute text =>
    constructor
    · intro h
      obtain ⟨op, line⟩ := i
      obtain rfl : line = number := line_of_decode h
      exact .compute h
    · rintro ⟨⟩
      assumption
  | address operand =>
    have hoperand {v : Nat} := operand_eq_ok_iff (v := v) ⟨_, hmem, rfl⟩
    simp only [SymbolTable.instruction]
    constructor
    · intro h
      split at h
      · cases h
      · rename_i value hvalue
        split at h
        · cases h
        · rename_i hle
          cases h
          exact .address (hoperand.mp hvalue) (Nat.le_of_not_lt hle)
    · rintro (⟨hvalue, hle⟩ | _)
      simp only [hoperand.mpr hvalue]
      exact if_neg (Nat.not_lt.mpr hle)

/-- **A line at fault is refused with its fault.** -/
theorem instruction_eq_error_iff (hl : l ∈ instructionLines lines) {e : AssemblyError} :
    (SymbolTable.ofLines lines).instruction l = .error e ↔ Faults lines l e := by
  have hdeclaration := not_isDeclaration_of_mem hl
  have hmem : l ∈ lines := List.mem_of_mem_filter hl
  obtain ⟨number, line⟩ := l
  cases line with
  | label name => cases hdeclaration
  | compute text => exact ⟨fun h => .compute h, fun h => by cases h; assumption⟩
  | address operand =>
    have hoperand {v : Nat} := operand_eq_ok_iff (v := v) ⟨_, hmem, rfl⟩
    simp only [SymbolTable.instruction]
    constructor
    · intro h
      split at h
      · rename_i fault hfault
        cases h
        obtain ⟨hdigits, fault, hread, rfl⟩ := operand_eq_error_iff.mp hfault
        exact .numeral hdigits hread
      · rename_i value hvalue
        split at h
        · rename_i hlarge
          cases h
          exact .tooLarge (hoperand.mp hvalue) hlarge
        · cases h
    · intro h
      cases h with
      | tooLarge hvalue hlarge =>
        simp only [hoperand.mpr hvalue]
        exact if_pos hlarge
      | numeral hdigits hread =>
        simp only [operand_eq_error_iff.mpr ⟨hdigits, _, hread, rfl⟩]

end Instructions

/-! ### Whole sources -/

section MapM

variable {α β ε : Type} {f : α → Except ε β}

/-- A list with a fault in it is read up to the first one, which is reported. -/
theorem mapM_eq_error_iff {xs : List α} {e : ε} :
    xs.mapM f = .error e ↔ ∃ before x after, xs = before ++ x :: after ∧
      (∀ y ∈ before, ∀ e', f y ≠ .error e') ∧ f x = .error e := by
  induction xs with
  | nil =>
    refine ⟨nofun, ?_⟩
    rintro ⟨before, x, after, h, -⟩
    exact absurd h.symm (List.append_ne_nil_of_right_ne_nil before (List.cons_ne_nil x after))
  | cons x xs ih =>
    rw [List.mapM_cons]
    cases hx : f x with
    | error e' =>
      constructor
      · intro h
        cases h
        exact ⟨[], x, xs, rfl, nofun, hx⟩
      · rintro ⟨before, z, after, hcons, hbefore, hz⟩
        cases before with
        | nil =>
          cases hcons
          rw [hx] at hz
          cases hz
          rfl
        | cons y before =>
          cases hcons
          exact absurd hx (hbefore x (List.mem_cons_self ..) e')
    | ok y =>
      have hmapM : (Except.ok y >>= fun y => xs.mapM f >>= fun ys => pure (y :: ys)) =
          (xs.mapM f).map (y :: ·) := by cases xs.mapM f <;> rfl
      have herror : (xs.mapM f).map (y :: ·) = .error e ↔ xs.mapM f = .error e := by
        cases xs.mapM f <;> simp [Except.map]
      rw [hmapM, herror, ih]
      constructor
      · rintro ⟨before, z, after, rfl, hbefore, hz⟩
        refine ⟨x :: before, z, after, rfl, List.forall_mem_cons.mpr ⟨?_, hbefore⟩, hz⟩
        intro e' he'
        rw [hx] at he'
        cases he'
      · rintro ⟨before, z, after, hcons, hbefore, hz⟩
        cases before with
        | nil =>
          cases hcons
          rw [hx] at hz
          cases hz
        | cons w before =>
          cases hcons
          exact ⟨before, z, after, rfl, fun v hv => hbefore v (List.mem_cons_of_mem x hv), hz⟩

end MapM

/-- **A source is assembled** line by line, if each line has an instruction. -/
theorem assemble_eq_ok_iff {source : Text} {program : Array Instruction} :
    assemble source = .ok program ↔ List.Forall₂ (Assembles (sourceLines source))
      (instructionLines (sourceLines source)) program.toList := by
  have hmap (r : Except AssemblyError (List Instruction)) :
      r.map List.toArray = .ok program ↔ r = .ok program.toList := by
    cases r with
    | error e => exact ⟨nofun, nofun⟩
    | ok is =>
      simp only [Except.map, Except.ok.injEq]
      exact ⟨fun h => h ▸ rfl, fun h => h ▸ Array.toArray_toList⟩
  rw [assemble, hmap, mapM_eq_ok_iff]
  -- a line belongs to the source, so that its operand is used in there
  have hmem : ∀ l ∈ instructionLines (sourceLines source),
      l ∈ instructionLines (sourceLines source) := fun _ => id
  constructor
  · intro h
    exact ((List.forall₂_and_left _ _).mpr ⟨hmem, h⟩).imp fun l i hli =>
      (instruction_eq_ok_iff hli.1).mp hli.2
  · intro h
    exact ((List.forall₂_and_left _ _).mpr ⟨hmem, h⟩).imp fun l i hli =>
      (instruction_eq_ok_iff hli.1).mpr hli.2

/-- The instructions of a program are in the order of the lines that they carry. -/
theorem pairwise_line_of_assemble {source : Text} {program : Array Instruction}
    (h : assemble source = .ok program) :
    (program.toList.map (·.line)).Pairwise (· < ·) := by
  have hlines : (instructionLines (sourceLines source)).map (fun l => (l.number : Int)) =
      program.toList.map (·.line) := by
    rw [← List.forall₂_eq_eq_eq, List.forall₂_map_left_iff, List.forall₂_map_right_iff]
    exact (assemble_eq_ok_iff.mp h).imp fun l i hli => hli.line_eq.symm
  rw [← hlines, List.pairwise_map]
  exact ((pairwise_number_sourceLines source).sublist List.filter_sublist).imp Int.ofNat_lt.mpr

/-- **Otherwise the first line at fault is reported.** -/
theorem assemble_eq_error_iff {source : Text} {e : AssemblyError} :
    assemble source = .error e ↔
      ∃ before l after, instructionLines (sourceLines source) = before ++ l :: after ∧
        (∀ m ∈ before, ∀ e', ¬ Faults (sourceLines source) m e') ∧
        Faults (sourceLines source) l e := by
  have hmap (r : Except AssemblyError (List Instruction)) :
      r.map List.toArray = .error e ↔ r = .error e := by
    cases r with
    | error e => simp [Except.map]
    | ok is => exact ⟨nofun, nofun⟩
  rw [assemble, hmap, mapM_eq_error_iff]
  refine exists_congr fun before => exists_congr fun l => exists_congr fun after =>
    and_congr_right fun hlines => ?_
  have hmem : ∀ m ∈ before ++ l :: after, m ∈ instructionLines (sourceLines source) :=
    fun m hm => hlines ▸ hm
  refine and_congr ?_ (instruction_eq_error_iff (hmem l (by simp)))
  refine forall₂_congr fun m hm => forall_congr' fun e' => not_congr ?_
  exact instruction_eq_error_iff (hmem m (List.mem_append_left _ hm))

/-- **What a source is assembled to.** The lines of a text are cut at its line breaks, and those that
are not blank are the lines of the source, with their numbers counted from one. The source is
assembled if each line other than a declaration becomes an instruction, and then the program is
these instructions in order, each with the number of its line. Otherwise the first line at fault is
reported. An operand stands for the number that it is, for the place of its last declaration, for
what the machine defines, or for a variable; two variables have the same address only if they
have the same name. -/
theorem assemble_resolution (source : Text) :
    Text.Cut source (Text.lines source) ∧
    (∀ l, l ∈ sourceLines source ↔ ∃ i raw, (Text.lines source)[i]? = some raw ∧
      Text.code raw ≠ [] ∧ l = ⟨i + 1, Line.ofCode (Text.code raw)⟩) ∧
    ((sourceLines source).Pairwise fun l m => l.number < m.number) ∧
    (∀ program, assemble source = .ok program ↔ List.Forall₂ (Assembles (sourceLines source))
      (instructionLines (sourceLines source)) program.toList) ∧
    (∀ program, assemble source = .ok program →
      (program.toList.map (·.line)).Pairwise (· < ·)) ∧
    (∀ e, assemble source = .error e ↔
      ∃ before l after, instructionLines (sourceLines source) = before ++ l :: after ∧
        (∀ m ∈ before, ∀ e', ¬ Faults (sourceLines source) m e') ∧
        Faults (sourceLines source) l e) ∧
    (∀ operand v w, Resolves (sourceLines source) operand v →
      Resolves (sourceLines source) operand w → v = w) ∧
    ∀ a b v w, IsVariable (sourceLines source) a → IsVariable (sourceLines source) b →
      Resolves (sourceLines source) a v → Resolves (sourceLines source) b w → (v = w ↔ a = b) :=
  ⟨Text.cut_lines source, fun _ => mem_sourceLines_iff, pairwise_number_sourceLines source,
    fun _ => assemble_eq_ok_iff, fun _ => pairwise_line_of_assemble,
    fun _ => assemble_eq_error_iff, fun _ _ _ => Resolves.unique, fun _ _ _ _ => Resolves.eq_iff⟩

-- `SP` is declared behind its first use, and then is the place of that declaration
example : (assemble "@SP\n@x\n(SP)\n@y\n@x\n@SCREEN".toList).map operationsOf =
    .ok [.address 2, .address 16, .address 17, .address 16, .address 16384] := rfl

end HackStack.Hack
