import HackStack.Hack.Assembler

/-!
# Written assembly

Lines of assembly that are made of visible ASCII characters without slashes are read as
they were written: a text of such lines, each closed by a line feed, has just these lines
as its source lines, numbered from one (`sourceLines_ofLines`). The last line need not be
closed (`sourceLines_intercalate`).
-/

namespace HackStack.Hack

/-! ### Visible characters -/

/-- A visible ASCII character other than a slash. -/
def isInk (c : Char) : Bool := 0x21 ≤ c.toNat && c.toNat ≤ 0x7e && c != '/'

section Ink

variable {c : Char}

theorem toNat_of_isInk (h : isInk c = true) : 0x21 ≤ c.toNat ∧ c.toNat ≤ 0x7e := by
  simp only [isInk, Bool.and_eq_true, decide_eq_true_eq] at h
  exact h.1

theorem ne_slash_of_isInk (h : isInk c = true) : c ≠ '/' := by
  simp only [isInk, Bool.and_eq_true, bne_iff_ne] at h
  exact h.2

/-- Visible characters lie outside the ranges of blanks and line breaks. -/
theorem inRanges_of_isInk (h : isInk c = true) {ranges : List (Nat × Nat)}
    (hranges : ∀ r ∈ ranges, r.2 < 0x21 ∨ 0x7e < r.1) : Text.inRanges ranges c = false := by
  have := toNat_of_isInk h
  rw [Text.inRanges, List.any_eq_false]
  intro r hr
  simp only [Bool.and_eq_true, decide_eq_true_eq]
  have := hranges r hr
  omega

theorem isBlank_of_isInk (h : isInk c = true) : Text.isBlank c = false :=
  inRanges_of_isInk h (by decide)

theorem isLineBreak_of_isInk (h : isInk c = true) : Text.isLineBreak c = false :=
  inRanges_of_isInk h (by decide)

theorem ne_return_of_isInk (h : isInk c = true) : c ≠ '\r' := by
  rintro rfl
  exact absurd h (by decide)

theorem isInk_of_isDigit (h : c.isDigit = true) : isInk c = true := by
  have hrange : 48 ≤ c.toNat ∧ c.toNat ≤ 57 := Char.isDigit_iff_toNat.mp h
  have hslash : c ≠ '/' := by
    rintro rfl
    simp at hrange
  simp only [isInk, Bool.and_eq_true, decide_eq_true_eq, bne_iff_ne]
  exact ⟨by omega, hslash⟩

end Ink

/-! ### Visible texts -/

section Text

variable {t : Text}

theorem stripStart_of_isInk (h : ∀ c ∈ t, isInk c = true) : Text.stripStart t = t := by
  cases t with
  | nil => rfl
  | cons c rest =>
    have hc := isBlank_of_isInk (h c (List.mem_cons_self ..))
    rw [Text.stripStart, List.dropWhile_cons_of_neg (by simp [hc])]

/-- Text without slashes that starts and ends with no blank is code as it stands. -/
theorem code_eq_self (hslash : '/' ∉ t) (hstart : Text.stripStart t = t)
    (hend : Text.stripStart t.reverse = t.reverse) : Text.code t = t := by
  have hcomment : ¬ ['/', '/'] <:+: t := fun hslashes =>
    hslash (hslashes.subset (List.mem_cons_self ..))
  rw [Text.code, Text.beforeComment_eq_self hcomment, Text.strip, hstart, Text.stripEnd, hend,
    List.reverse_reverse]

/-- Visible text is code as it stands. -/
theorem code_of_isInk (h : ∀ c ∈ t, isInk c = true) : Text.code t = t :=
  code_eq_self (fun hslash => ne_slash_of_isInk (h '/' hslash) rfl) (stripStart_of_isInk h)
    (stripStart_of_isInk fun c hc => h c (List.mem_reverse.mp hc))

/-- A text without carriage returns has nothing to unify. -/
theorem unifyReturnsOnto_of_not_mem (acc : Text) (h : '\r' ∉ t) :
    Text.unifyReturnsOnto acc t = acc.reverse ++ t := by
  fun_induction Text.unifyReturnsOnto acc t with
  | case1 acc => simp
  | case2 acc rest => simp at h
  | case3 acc rest => simp at h
  | case4 acc c rest _ _ ih =>
    rw [ih fun hmem => h (List.mem_cons_of_mem c hmem)]
    simp

end Text

/-- A text without carriage returns is split at its line breaks as it stands. -/
theorem lines_of_not_mem {t : Text} (h : '\r' ∉ t) :
    Text.lines t = t.splitOnP Text.isLineBreak := by
  rw [Text.lines, Text.unifyReturns, unifyReturnsOnto_of_not_mem [] h, List.reverse_nil,
    List.nil_append]

theorem return_not_mem_ofLines {lines : List Text} (h : ∀ l ∈ lines, ∀ c ∈ l, isInk c = true) :
    '\r' ∉ Text.ofLines lines := by
  simp only [Text.ofLines, List.mem_flatMap, List.mem_append, List.mem_singleton, not_exists,
    not_and, not_or]
  intro l hl
  exact ⟨fun hmem => ne_return_of_isInk (h l hl '\r' hmem) rfl, by decide⟩

/-- Visible lines are found again in the text that they make. A last line is empty. -/
theorem lines_ofLines {lines : List Text} (h : ∀ l ∈ lines, ∀ c ∈ l, isInk c = true) :
    Text.lines (Text.ofLines lines) = lines ++ [[]] := by
  rw [lines_of_not_mem (return_not_mem_ofLines h)]
  induction lines with
  | nil => rfl
  | cons l more ih =>
    rw [Text.ofLines_cons, List.splitOnP_append_cons_of_forall_mem
      (fun c hc => isLineBreak_of_isInk (h l (List.mem_cons_self ..) c hc)) '\n' (by decide),
      ih fun l' hl' => h l' (List.mem_cons_of_mem l hl'), List.cons_append]

/-! ### Lines of assembly -/

/-- A line that is recognised as it is written. -/
structure Line.IsClear (l : Line) : Prop where
  ink : ∀ c ∈ l.render, isInk c = true
  ne_nil : l.render ≠ []
  ofCode : Line.ofCode l.render = l
  isLabel : isLabel l.render = l.isDeclaration

instance (l : Line) : Decidable l.IsClear :=
  decidable_of_iff
    (l.render.all isInk = true ∧ l.render ≠ [] ∧ Line.ofCode l.render = l ∧
      isLabel l.render = l.isDeclaration)
    ⟨fun ⟨hink, hne, hcode, hlabel⟩ => ⟨List.all_eq_true.mp hink, hne, hcode, hlabel⟩,
      fun h => ⟨List.all_eq_true.mpr h.ink, h.ne_nil, h.ofCode, h.isLabel⟩⟩

theorem Line.isClear_address {operand : Text} (h : ∀ c ∈ operand, isInk c = true) :
    (Line.address operand).IsClear where
  ink := by
    rintro c (_ | ⟨_, hc⟩)
    · rfl
    · exact h c hc
  ne_nil := List.cons_ne_nil _ _
  ofCode := Line.ofCode_render_address operand
  isLabel := rfl

theorem Line.isClear_label {name : Text} (h : ∀ c ∈ name, isInk c = true) :
    (Line.label name).IsClear where
  ink := by
    intro c hc
    simp only [Line.render, List.cons_append, List.mem_cons, List.mem_append, List.not_mem_nil,
      or_false] at hc
    rcases hc with rfl | hc | rfl
    · rfl
    · exact h c hc
    · rfl
  ne_nil := List.cons_ne_nil _ _
  ofCode := Line.ofCode_render_label name
  isLabel := rfl

theorem isInk_of_mem_render {lines : List Line} (h : ∀ l ∈ lines, l.IsClear) :
    ∀ t ∈ lines.map Line.render, ∀ c ∈ t, isInk c = true := by
  intro t ht
  obtain ⟨l, hl, rfl⟩ := List.mem_map.mp ht
  exact (h l hl).ink

/-- Lines with their numbers, the first of which is given. -/
def numberFrom (n : Nat) : List Line → List SourceLine
  | [] => []
  | l :: more => ⟨n, l⟩ :: numberFrom (n + 1) more

theorem numberFrom_append (n : Nat) (lines more : List Line) :
    numberFrom n (lines ++ more) = numberFrom n lines ++ numberFrom (n + lines.length) more := by
  induction lines generalizing n with
  | nil => rfl
  | cons l lines ih =>
    rw [List.cons_append, numberFrom, ih, numberFrom, List.cons_append, List.length_cons,
      Nat.add_assoc, Nat.add_comm 1]

/-- **Clear lines are read as they are written.** -/
theorem sourceLines_ofLines {lines : List Line} (h : ∀ l ∈ lines, l.IsClear) :
    sourceLines (Text.ofLines (lines.map Line.render)) = numberFrom 1 lines := by
  have hink := isInk_of_mem_render h
  rw [sourceLines, lines_ofLines hink, CodeLine.ofLines]
  generalize 1 = n
  induction lines generalizing n with
  | nil => rfl
  | cons l more ih =>
    have hl := h l (List.mem_cons_self ..)
    have hline : CodeLine.ofLine? l.render n = some ⟨n, l.render⟩ := by
      rw [CodeLine.ofLine?, code_of_isInk hl.ink, if_neg (by simpa using hl.ne_nil)]
    have hmore := ih (fun l' hl' => h l' (List.mem_cons_of_mem l hl'))
      (fun t ht => hink t (List.mem_cons_of_mem _ ht)) (n + 1)
    rw [List.map_cons, List.cons_append, List.zipIdx_cons]
    simp only [List.filterMap_cons, hline, List.map_cons]
    rw [hmore, hl.ofCode, numberFrom]

/-! ### The end of a text -/

/-- A line feed at the end of a text adds no line to its source. -/
theorem sourceLines_append_feed {t : Text} (h : '\r' ∉ t) :
    sourceLines (t ++ ['\n']) = sourceLines t := by
  have hlines : Text.lines (t ++ ['\n']) = Text.lines t ++ [[]] := by
    have hfeed : '\r' ∉ t ++ ['\n'] := by simpa using h
    rw [lines_of_not_mem hfeed, lines_of_not_mem h, List.splitOnP_append_cons _ _ (by decide)]
    rfl
  rw [sourceLines, hlines, CodeLine.ofLines, List.zipIdx_append, List.filterMap_append]
  exact congrArg _ (List.append_nil _)

/-- Lines that are each closed by a line feed are lines with feeds between them, and one more. -/
theorem ofLines_eq_intercalate {lines : List Text} (h : lines ≠ []) :
    Text.ofLines lines = ['\n'].intercalate lines ++ ['\n'] := by
  induction lines with
  | nil => exact absurd rfl h
  | cons l more ih =>
    cases more with
    | nil => simp
    | cons l' more =>
      rw [Text.ofLines_cons, ih (List.cons_ne_nil _ _), List.intercalate_cons_cons]
      simp

/-- **The last line may be open**: visible lines with line feeds between them are read like lines
that are each closed by one. -/
theorem sourceLines_intercalate {lines : List Text} (h : ∀ l ∈ lines, ∀ c ∈ l, isInk c = true) :
    sourceLines (['\n'].intercalate lines) = sourceLines (Text.ofLines lines) := by
  by_cases hne : lines = []
  · subst hne
    rfl
  · have hjoined := ofLines_eq_intercalate hne
    have hreturn : '\r' ∉ ['\n'].intercalate lines := by
      have := return_not_mem_ofLines h
      rw [hjoined] at this
      exact fun hmem => this (List.mem_append_left _ hmem)
    rw [hjoined, sourceLines_append_feed hreturn]

end HackStack.Hack
