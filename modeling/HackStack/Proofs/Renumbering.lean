import HackStack.Proofs.Grammar
import Mathlib.Logic.Relation

/-!
# The layout of a source

Blanks around the code of a line, a comment behind it and lines without code have no
meaning. An edit of a line that only concerns these leaves the code of the line as it is
(`LineEdit.code_eq`), and when lines without code are put in between, the lines of code
stay the same but for their numbers (`Relaid.numberedFrom`).

A compilation uses the number of a line for no more than to name it: if the lines of code
are numbered anew, so are the warnings and the fault, and nothing else changes
(`compile_moved`).
-/

namespace HackStack

namespace Text

/-! ### Edits of a line -/

/-- A text of blanks only. -/
def Blank (t : Text) : Prop := ∀ c ∈ t, isBlank c = true

instance (t : Text) : Decidable (Blank t) :=
  decidable_of_iff (t.all isBlank = true) List.all_eq_true

/-- A line that holds no more than blanks and a comment. -/
inductive Void : Text → Prop
  | blank (blanks : Text) : Blank blanks → Void blanks
  | comment (blanks text : Text) : Blank blanks → Void (blanks ++ '/' :: '/' :: text)

/-- An edit of the layout of a line. -/
inductive LineEdit : Text → Text → Prop
  /-- Blanks before the code, among those that are there. -/
  | before (lead blanks rest : Text) : Blank lead → Blank blanks →
      LineEdit (lead ++ rest) (lead ++ blanks ++ rest)
  /-- Blanks behind the code, among those that are there. -/
  | behind (front blanks trail comment : Text) :
      beforeComment (front ++ trail ++ comment) = front ++ trail → Blank trail → Blank blanks →
      LineEdit (front ++ trail ++ comment) (front ++ blanks ++ trail ++ comment)
  /-- Blanks at the end of the line. -/
  | atEnd (line blanks : Text) : Blank blanks → LineEdit line (line ++ blanks)
  /-- A comment behind all that the line holds. -/
  | comment (line text : Text) : LineEdit line (line ++ ' ' :: '/' :: '/' :: text)

section Code

variable {u v w t blanks : Text}

theorem Blank.append (hu : Blank u) (hv : Blank v) : Blank (u ++ v) :=
  List.forall_mem_append.mpr ⟨hu, hv⟩

theorem Blank.slash_not_mem (h : Blank u) : '/' ∉ u :=
  fun hmem => absurd (h '/' hmem) (by decide)

theorem Blank.head {c : Char} (h : Blank (c :: u)) (t : Text) : (c :: t).head? ≠ some '/' := by
  intro hslash
  cases hslash
  exact h.slash_not_mem List.mem_cons_self

theorem beforeComment_of_blank (h : Blank u) : beforeComment u = u :=
  beforeComment_eq_self fun hslashes => h.slash_not_mem (hslashes.subset List.mem_cons_self)

theorem strip_blank_append (h : Blank blanks) (t : Text) : strip (blanks ++ t) = strip t := by
  rw [strip, stripStart_append h, strip]

theorem strip_append_blank (t : Text) (h : Blank blanks) : strip (t ++ blanks) = strip t := by
  obtain ⟨left, right, hparts, hleft, hright⟩ := exists_append_strip t
  have hblanks : Blank (right ++ blanks) := Blank.append hright h
  have hall := strip_append hleft hblanks (fun c => head_strip (t := t)) fun c => last_strip
  rwa [← List.append_assoc, ← hparts] at hall

/-- No comment starts within blanks. -/
theorem beforeComment_blank_append (h : Blank blanks) (t : Text) :
    beforeComment (blanks ++ t) = blanks ++ beforeComment t := by
  induction blanks with
  | nil => rfl
  | cons c blanks ih =>
    rw [List.cons_append, beforeComment, ih fun d hd => h d (List.mem_cons_of_mem c hd)]
    · rfl
    · rintro rest rfl -
      exact h.slash_not_mem List.mem_cons_self

theorem beforeComment_cons_of_ne_nil {c : Char} (h : beforeComment (c :: u) ≠ []) :
    beforeComment (c :: u) = c :: beforeComment u := by
  rw [beforeComment]
  rintro rest rfl rfl
  exact h rfl

/-- What stands before the comment stays there whatever follows it, but for a slash. -/
theorem beforeComment_append (h : beforeComment (u ++ v) = u ++ w) (ht : t.head? ≠ some '/') :
    beforeComment v = w ∧ beforeComment (u ++ t) = u ++ beforeComment t := by
  induction u with
  | nil => exact ⟨h, rfl⟩
  | cons c u ih =>
    have hcons : beforeComment (c :: (u ++ v)) = c :: beforeComment (u ++ v) :=
      beforeComment_cons_of_ne_nil (by rw [← List.cons_append, h]; simp)
    rw [List.cons_append, hcons, List.cons_append, List.cons.injEq] at h
    obtain ⟨hv, hu⟩ := ih h.2
    refine ⟨hv, ?_⟩
    rw [List.cons_append, beforeComment, hu]
    · rfl
    · -- two slashes would have started the comment before
      rintro rest rfl hslash
      cases u with
      | nil => exact ht (by rw [← List.nil_append t, hslash]; rfl)
      | cons d u =>
        cases hslash
        simp [beforeComment] at hcons

/-- What is put behind a line is before the comment of the line, or in it. -/
theorem beforeComment_append_cases (line : Text) (ht : t.head? ≠ some '/') :
    beforeComment (line ++ t) = beforeComment line ∨
      beforeComment (line ++ t) = beforeComment line ++ beforeComment t := by
  fun_induction beforeComment line with
  | case1 => exact .inr rfl
  | case2 rest => exact .inl rfl
  | case3 c rest hslashes ih =>
    have hcons : beforeComment (c :: (rest ++ t)) = c :: beforeComment (rest ++ t) := by
      rw [beforeComment]
      rintro more rfl hslash
      cases rest with
      | nil => exact ht (by rw [← List.nil_append t, hslash]; rfl)
      | cons d rest =>
        cases hslash
        exact hslashes rest rfl rfl
    rw [List.cons_append, hcons]
    exact ih.imp (congrArg _) (congrArg _)

theorem code_append (line : Text) (ht : t.head? ≠ some '/') (hblank : Blank (beforeComment t)) :
    code (line ++ t) = code line := by
  rw [code, code]
  rcases beforeComment_append_cases line ht with heq | heq
  · rw [heq]
  · rw [heq, strip_append_blank _ hblank]

end Code

theorem Void.code_eq {line : Text} (h : Void line) : code line = [] := by
  cases h with
  | blank _ hblank =>
    have hstrip := strip_blank_append hblank []
    rw [List.append_nil] at hstrip
    rw [code, beforeComment_of_blank hblank, hstrip]
    rfl
  | comment _ _ hblank =>
    rw [code, beforeComment_blank_append hblank, strip_blank_append hblank]
    rfl

/-- **An edit of the layout** of a line leaves its code as it is. -/
theorem LineEdit.code_eq {line line' : Text} (h : LineEdit line line') :
    code line' = code line := by
  cases h with
  | before lead blanks rest hlead hblanks =>
    have hboth := hlead.append hblanks
    rw [code, code, beforeComment_blank_append hboth, beforeComment_blank_append hlead,
      strip_blank_append hboth, strip_blank_append hlead]
  | behind front blanks trail comment hbefore htrail hblanks =>
    cases blanks with
    | nil => rw [List.append_nil]
    | cons c blanks =>
      have hboth : Blank (c :: blanks ++ trail) := hblanks.append htrail
      obtain ⟨hrest, hfront⟩ := beforeComment_append (v := trail ++ comment) (w := trail)
        (by rw [← List.append_assoc, hbefore]) (hblanks.head (blanks ++ (trail ++ comment)))
      have hafter : beforeComment (front ++ (c :: blanks) ++ trail ++ comment) =
          front ++ (c :: blanks ++ trail) := by
        have hblank := beforeComment_blank_append hblanks (trail ++ comment)
        rw [hrest] at hblank
        rw [List.append_assoc, List.append_assoc, ← hblank]
        exact hfront
      rw [code, code, hbefore, hafter, strip_append_blank _ hboth, strip_append_blank _ htrail]
  | atEnd line blanks hblanks =>
    cases blanks with
    | nil => rw [List.append_nil]
    | cons c blanks =>
      exact code_append line (hblanks.head blanks) (by rwa [beforeComment_of_blank hblanks])
  | comment line text =>
    have hspace : Blank [' '] := by decide
    refine code_append line (hspace.head _) ?_
    rwa [show ' ' :: '/' :: '/' :: text = [' '] ++ '/' :: '/' :: text from rfl,
      beforeComment_blank_append hspace, beforeComment]

/-- Any edits of the layout of a line, one after the other. -/
def LineEdits : Text → Text → Prop := Relation.ReflTransGen LineEdit

theorem LineEdits.code_eq {line line' : Text} (h : LineEdits line line') :
    code line' = code line := by
  induction h with
  | refl => rfl
  | tail _ hedit ih => rw [hedit.code_eq, ih]

/-! ### Edits of a source -/

/-- The lines of a command source. A line feed at the end of the last line starts no further one. -/
def physicalLines (source : Text) : List Text :=
  if (feedLines source).getLast? = some [] then (feedLines source).dropLast else feedLines source

/-- **Edits of the layout** of lines that make other lines of them, numbered from the first argument
on: lines without code are put in between, and lines that were there are edited. The numbers are
those that the old lines have got. -/
inductive Relaid : Nat → List Text → List Text → List Nat → Prop
  | nil (n : Nat) : Relaid n [] [] []
  | insert {n : Nat} {line : Text} {old new : List Text} {numbers : List Nat} : Void line →
      Relaid (n + 1) old new numbers → Relaid n old (line :: new) numbers
  | edit {n : Nat} {line line' : Text} {old new : List Text} {numbers : List Nat} :
      LineEdits line line' → Relaid (n + 1) old new numbers →
      Relaid n (line :: old) (line' :: new) (n :: numbers)

/-- Each old line is found, edited, at the number that it has got. -/
theorem Relaid.exists_edit {n i : Nat} {old new : List Text} {numbers : List Nat} {line : Text}
    (h : Relaid n old new numbers) (hline : old[i]? = some line) :
    ∃ k line', numbers[i]? = some (n + k) ∧ new[k]? = some line' ∧ LineEdits line line' := by
  induction h generalizing i with
  | nil => cases hline
  | insert hvoid _ ih =>
    obtain ⟨k, line', hnumber, hnew, hedits⟩ := ih hline
    exact ⟨k + 1, line', by rw [hnumber, Nat.add_right_comm, Nat.add_assoc], hnew, hedits⟩
  | edit hedits _ ih =>
    cases i with
    | zero => cases hline; exact ⟨0, _, rfl, rfl, hedits⟩
    | succ i =>
      obtain ⟨k, line', hnumber, hnew, hedits⟩ := ih hline
      refine ⟨k + 1, line', ?_, hnew, hedits⟩
      rw [List.getElem?_cons_succ, hnumber, Nat.add_right_comm, Nat.add_assoc]

end Text

/-! ### Lines with other numbers -/

/-- A line of code at another place. -/
def CodeLine.moved (place : Nat → Nat) (l : CodeLine) : CodeLine :=
  { l with number := place l.number }

namespace CodeLine

/-- The lines of code in lines that are numbered from `n` on. -/
def numberedFrom (n : Nat) (lines : List Text) : List CodeLine :=
  (lines.zipIdx n).filterMap fun (line, number) => ofLine? line number

theorem numberedFrom_cons (n : Nat) (line : Text) (more : List Text) :
    numberedFrom n (line :: more) = (ofLine? line n).toList ++ numberedFrom (n + 1) more := by
  simp only [numberedFrom, List.zipIdx_cons, List.filterMap_cons]
  cases ofLine? line n <;> rfl

theorem ofLine?_of_void {line : Text} (h : Text.code line = []) (n : Nat) :
    ofLine? line n = none := by
  rw [ofLine?, h]
  rfl

theorem ofLine?_moved {line line' : Text} (h : Text.code line' = Text.code line)
    (place : Nat → Nat) (n : Nat) :
    ofLine? line' (place n) = (ofLine? line n).map (moved place) := by
  rw [ofLine?, ofLine?, h]
  split <;> rfl

end CodeLine

/-- **Edits of the layout** leave the lines of code as they are, but for their numbers. -/
theorem Text.Relaid.numberedFrom {n k : Nat} {old new : List Text} {numbers : List Nat}
    (h : Relaid n old new numbers) {place : Nat → Nat}
    (hplace : ∀ i number, numbers[i]? = some number → place (k + i) = number) :
    CodeLine.numberedFrom n new = (CodeLine.numberedFrom k old).map (CodeLine.moved place) := by
  induction h generalizing k with
  | nil => rfl
  | insert hvoid _ ih =>
    rw [CodeLine.numberedFrom_cons, CodeLine.ofLine?_of_void hvoid.code_eq]
    exact ih hplace
  | @edit n _ _ _ _ _ hedits _ ih =>
    have hfirst : place k = n := hplace 0 n rfl
    have hmore := ih (k := k + 1) fun i number hnumber => by
      rw [Nat.add_assoc, Nat.add_comm 1]
      exact hplace (i + 1) number hnumber
    rw [CodeLine.numberedFrom_cons, CodeLine.numberedFrom_cons, List.map_append, hmore, ← hfirst,
      CodeLine.ofLine?_moved hedits.code_eq]
    cases CodeLine.ofLine? _ k <;> rfl

/-- A notice in which another place is named. -/
def Notice.moved (place : Nat → Nat) : Notice → Notice
  | .commandSkipped line kind => .commandSkipped (place line.toNat) kind
  | notice => notice

namespace Stack

theorem sourceLines_eq (source : Text) :
    sourceLines source = CodeLine.numberedFrom 1 (Text.physicalLines source) := by
  rw [sourceLines, CodeLine.ofLines, Text.physicalLines]
  split
  · rename_i hlast
    obtain ⟨lines, hlines⟩ := List.getLast?_eq_some_iff.mp hlast
    rw [hlines, List.dropLast_concat, List.zipIdx_append, List.filterMap_append]
    exact List.append_nil _
  · rfl

/-- A command at another place. -/
def Command.moved (place : Nat → Nat) (c : Command) : Command :=
  { c with line := place c.line.toNat }

/-- A failure at another place. -/
def Failure.moved (place : Nat → Nat) : Failure → Failure
  | .diagnostic d => .diagnostic { d with line := d.line.map fun n => (place n.toNat : Int) }
  | f => f

theorem moved_onLine (place : Nat → Nat) (f : Failure) (n : Int) :
    (f.onLine n).moved place = f.onLine (place n.toNat) := by
  cases f <;> rfl

/-! ### Reading at another place -/

section Reading

variable (m n : Int)

theorem nameOperand_number (word : Text) (operands : List Text) :
    nameOperand word operands n = (nameOperand word operands m).mapError (Failure.onLine n) := by
  unfold nameOperand
  cases operands with
  | nil => rfl
  | cons name _ =>
    cases name with
    | nil => rfl
    | cons _ _ => rfl

theorem readIndex_number (t : Text) :
    readIndex t n = (readIndex t m).mapError (Failure.onLine n) := by
  unfold readIndex
  split
  · cases Numeral.natural t <;> rfl
  · rfl

theorem indexOperand_number (word : Text) (operands : List Text) :
    indexOperand word operands n = (indexOperand word operands m).mapError (Failure.onLine n) := by
  unfold indexOperand
  split
  · split
    · rfl
    · exact readIndex_number m n _
  · rfl

theorem operation_mapError (k : Keyword) (name : Text) (index : Except Failure Nat)
    (g : Failure → Failure) :
    k.operation name (index.mapError g) = (k.operation name index).mapError g := by
  cases k with
  | push | pop | function | call => cases index <;> rfl
  | label | goto | ifGoto => rfl

theorem ofWords_number (word : Text) (operands : List Text) :
    Operation.ofWords word operands n =
      (Operation.ofWords word operands m).mapError (Failure.onLine n) := by
  unfold Operation.ofWords
  split
  · rfl
  · split
    · rfl
    · split
      · rfl
      · rw [nameOperand_number m n]
        cases nameOperand word operands m with
        | error e => rfl
        | ok name =>
          rw [indexOperand_number m n]
          exact operation_mapError _ name _ _

/-- **What is read on a line** depends on its number only in that the number is named. -/
theorem parse_number (text : Text) :
    Command.parse text n =
      ((Command.parse text m).map (Option.map fun c => { c with line := n })).mapError
        (Failure.onLine n) := by
  rcases parse_cases text with ⟨-, hparse⟩ | hparse | hparse
  · rw [hparse, hparse]
    rfl
  · rw [hparse, hparse]
    rfl
  · rw [hparse, hparse, operationOf, ofWords_number m n, operationOf]
    cases Operation.ofWords _ _ m <;> rfl

end Reading

/-- What is read on a line at another place. -/
theorem parse_moved (place : Nat → Nat) (text : Text) (n : Nat) :
    Command.parse text (place n) =
      ((Command.parse text n).map (Option.map (Command.moved place))).mapError
        (Failure.moved place) := by
  have hsame := parse_number n n text
  rw [parse_number n (place n)]
  cases hparse : Command.parse text n with
  | error e =>
    rw [hparse] at hsame
    have honLine : e = e.onLine n := Except.error.inj hsame
    have hmoved := moved_onLine place e n
    rw [← honLine] at hmoved
    exact congrArg Except.error hmoved.symm
  | ok command =>
    cases command with
    | none => rfl
    | some c =>
      have hline : c.line = n := (operationOf_of_parse hparse).1
      simp [Except.map, Except.mapError, Command.moved, hline]

namespace Progress

variable (place : Nat → Nat) (test : Bool)

/-- The state in which other places were named. -/
def moved (p : Progress) : Progress := { p with notices := p.notices.map (Notice.moved place) }

/-- **One command** at another place. -/
theorem command_moved (p : Progress) (c : Command) :
    (p.moved place).command test (c.moved place) =
      ((p.command test c).1.mapError (Failure.moved place), (p.command test c).2.moved place) := by
  have hwrote (answer : Except Failure (List Text) × Writer) :
      wrote test (c.moved place) p.echo (p.notices.map (Notice.moved place)) answer =
        ((wrote test c p.echo p.notices answer).1.mapError (Failure.moved place),
          (wrote test c p.echo p.notices answer).2.moved place) := by
    obtain ⟨result, w⟩ := answer
    cases result with
    | error e => simp only [wrote, Except.mapError, moved_onLine]; rfl
    | ok code => rfl
  obtain ⟨op, line⟩ := c
  cases op with
  | arithmetic _ | push _ _ | pop _ _ => exact hwrote _
  | label _ | goto _ | ifGoto _ | function _ _ | call _ _ | ret =>
    simp [command, moved, Command.moved, Except.mapError, Notice.moved, Command.kind]

/-- **All lines** at other places. -/
theorem lines_moved (p : Progress) (code : List CodeLine) :
    (p.moved place).lines test (code.map (CodeLine.moved place)) =
      ((p.lines test code).1.mapError (Failure.moved place),
        (p.lines test code).2.moved place) := by
  induction code generalizing p with
  | nil => rfl
  | cons line more ih =>
    rw [List.map_cons, lines, lines]
    have hparse : Command.parse (line.moved place).code (line.moved place).number =
        ((Command.parse line.code line.number).map (Option.map (Command.moved place))).mapError
          (Failure.moved place) := parse_moved place line.code line.number
    rw [hparse]
    cases Command.parse line.code line.number with
    | error e => rfl
    | ok command =>
      cases command with
      | none => exact ih p
      | some c =>
        simp only [Except.map, Except.mapError, Option.map_some, command_moved]
        obtain ⟨result, p'⟩ := p.command test c
        cases result with
        | error e => rfl
        | ok => exact ih p'

theorem close_moved (p : Progress) : (p.moved place).close = p.close.moved place := by
  obtain ⟨w, echo, notices⟩ := p
  cases hclosed : w.closed <;> simp [moved, close, Writer.close, hclosed, Notice.moved]

end Progress

/-- **A compilation of lines at other places** ends as before, but for the places that are named. -/
theorem compile_moved {source source' : Text} {place : Nat → Nat}
    (h : sourceLines source' = (sourceLines source).map (CodeLine.moved place)) (test : Bool) :
    compile test source' =
      ⟨(compile test source).result.mapError (Failure.moved place),
        (compile test source).final.moved place⟩ := by
  let start : Progress :=
    { Progress.start with notices := #[.commandsFound (sourceLines source).length] }
  have hstart : start.moved place = start := by simp [start, Progress.moved, Notice.moved]
  have hlines := start.lines_moved place test (sourceLines source)
  rw [hstart] at hlines
  rw [compile_eq, compile_eq, h, List.length_map]
  rw [hlines]
  obtain ⟨result, p⟩ := start.lines test (sourceLines source)
  cases result with
  | error e => simp only [Except.mapError, Progress.close_moved]
  | ok => simp only [Except.mapError, Progress.close_moved]; rfl

/-- **The layout of a source has no meaning.** When blanks are put around the code of lines,
comments behind them and lines without code in between, then the same text is written and echoed,
and the answer and the warnings are the same but for the lines that they name. These are the lines
where the lines that were named before have come to stand. -/
theorem compile_relaid {source source' : Text} {numbers : List Nat}
    (h : Text.Relaid 1 (Text.physicalLines source) (Text.physicalLines source') numbers)
    (test : Bool) :
    let place := fun n => numbers.getD (n - 1) 0
    (compile test source').text = (compile test source).text ∧
    (compile test source').echo = (compile test source).echo ∧
    (compile test source').result = (compile test source).result.mapError (Failure.moved place) ∧
    (compile test source').notices = (compile test source).notices.map (Notice.moved place) ∧
    ∀ i line, (Text.physicalLines source)[i]? = some line →
      ∃ k line', place (i + 1) = k + 1 ∧ (Text.physicalLines source')[k]? = some line' ∧
        Text.LineEdits line line' := by
  intro place
  have hlines : sourceLines source' = (sourceLines source).map (CodeLine.moved place) := by
    rw [sourceLines_eq, sourceLines_eq]
    refine h.numberedFrom fun i number hnumber => ?_
    simp [place, hnumber]
  have hcompile := compile_moved hlines test
  refine ⟨?_, ?_, ?_, ?_, fun i line hline => ?_⟩
  · rw [hcompile]
    rfl
  · rw [hcompile]
    rfl
  · rw [hcompile]
  · rw [hcompile]
    exact Array.toList_map
  · obtain ⟨k, line', hnumber, hnew, hedits⟩ := h.exists_edit hline
    refine ⟨k, line', ?_, hnew, hedits⟩
    simp [place, hnumber, Nat.add_comm]

/-- A comment above, blanks and a blank line in between move the line with too many words and the
one that is skipped. -/
theorem compile_relaid_three_lines :
    let source := "push constant 7\nlabel L// loop\nadd one two three".toList
    let source' := ("// start\n\t push constant 7 // seven\n\n" ++
      "label L \t// loop\nadd one two three //\n").toList
    Text.Relaid 1 (Text.physicalLines source) (Text.physicalLines source') [2, 4, 5] ∧
      (compile true source').echo = (compile true source).echo ∧
      (compile true source').result = .error (failAt 5 (.tooManyWords "add one two three".toList)) ∧
      .commandSkipped 4 .label ∈ (compile true source').notices := by
  intro source source'
  have hold : Text.physicalLines source =
      ["push constant 7".toList, "label L// loop".toList, "add one two three".toList] := by
    decide +kernel
  have hnew : Text.physicalLines source' =
      ["// start".toList, "\t push constant 7 // seven".toList, [], "label L \t// loop".toList,
        "add one two three //".toList] := by
    decide +kernel
  have hrelaid : Text.Relaid 1 (Text.physicalLines source) (Text.physicalLines source')
      [2, 4, 5] := by
    rw [hold, hnew]
    refine .insert (.comment [] _ (by decide)) (.edit ?_ (.insert (.blank _ (by decide))
      (.edit (.single ?_) (.edit (.single (.comment _ [])) (.nil _)))))
    · exact .tail (.single (.before [] ['\t', ' '] _ (by decide) (by decide)))
        (.comment _ " seven".toList)
    · exact .behind "label L".toList [' ', '\t'] [] "// loop".toList (by decide) (by decide)
        (by decide)
  obtain ⟨-, hecho, hresult, hnotices, -⟩ := compile_relaid hrelaid true
  refine ⟨hrelaid, hecho, ?_, ?_⟩
  · rw [hresult]
    decide +kernel
  · rw [hnotices]
    decide +kernel

end Stack

end HackStack
