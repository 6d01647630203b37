import HackStack.Proofs.Decimals
import HackStack.Proofs.Output
import Mathlib.Data.Nat.Digits.Defs

/-!
# The grammar of commands

What is read on a line can be said without the way it is read. The code of a line is what
stands before its comment, without the blanks at its ends (`IsCodeOf`), and its words are
its pieces between single spaces (`IsCut`). The words alone decide what comes of the line:
a command, a diagnostic of some category, or a number that is too long (`Grammar`). The
rules of the grammar exclude each other, so their order does not matter: where several
things are wrong with a line, the conditions of the rules say which one counts.

The reader keeps to the grammar (`describes_of_grammar`), the grammar says something of
all words (`exists_grammar`), and so it says of each line just what is read there. Nothing
of this depends on the number of the line. But if a caller gives a number that is too long
to be written, no diagnostic can name it (`Reading.DescribesAt`).
-/

namespace HackStack.Text

/-! ### The code of a line -/

section Strip

variable {t left right : Text}

theorem stripStart_of_head (h : ∀ c, t.head? = some c → isBlank c = false) : stripStart t = t := by
  cases t with
  | nil => rfl
  | cons c rest => rw [stripStart, List.dropWhile_cons_of_neg (by simp [h c rfl])]

theorem head_stripStart {c : Char} (h : (stripStart t).head? = some c) : isBlank c = false := by
  have := List.head?_dropWhile_not isBlank t
  rw [stripStart] at h
  rwa [h] at this

theorem stripStart_append (h : ∀ c ∈ left, isBlank c = true) (t : Text) :
    stripStart (left ++ t) = stripStart t :=
  List.dropWhile_append_of_pos h

theorem stripEnd_append (h : ∀ c ∈ right, isBlank c = true) (t : Text) :
    stripEnd (t ++ right) = stripEnd t := by
  rw [stripEnd, List.reverse_append, stripStart_append fun c hc => h c (List.mem_reverse.mp hc),
    stripEnd]

/-- Blanks are taken off a text that starts and ends with none. -/
theorem strip_append (hleft : ∀ c ∈ left, isBlank c = true)
    (hright : ∀ c ∈ right, isBlank c = true) (hhead : ∀ c, t.head? = some c → isBlank c = false)
    (hlast : ∀ c, t.getLast? = some c → isBlank c = false) : strip (left ++ t ++ right) = t := by
  have hend : stripEnd t = t := by
    rw [stripEnd, stripStart_of_head (by simpa using hlast), List.reverse_reverse]
  cases t with
  | nil =>
    rw [strip, List.append_nil, stripStart_append hleft, ← List.append_nil right,
      stripStart_append hright]
    rfl
  | cons c t =>
    have hstart : stripStart (c :: t ++ right) = c :: t ++ right := stripStart_of_head hhead
    rw [strip, List.append_assoc, stripStart_append hleft, hstart, stripEnd_append hright, hend]

/-- What is taken off a text is blank. -/
theorem exists_append_strip (t : Text) :
    ∃ left right, t = left ++ strip t ++ right ∧ (∀ c ∈ left, isBlank c = true) ∧
      ∀ c ∈ right, isBlank c = true := by
  have hblank (u : Text) : ∀ c ∈ u.takeWhile isBlank, isBlank c = true :=
    List.all_eq_true.mp List.all_takeWhile
  have hstart (u : Text) : u = u.takeWhile isBlank ++ stripStart u :=
    List.takeWhile_append_dropWhile.symm
  refine ⟨t.takeWhile isBlank, ((stripStart t).reverse.takeWhile isBlank).reverse, ?_, hblank t,
    fun c hc => hblank _ c (List.mem_reverse.mp hc)⟩
  have hend : stripStart t =
      strip t ++ ((stripStart t).reverse.takeWhile isBlank).reverse := by
    rw [strip, stripEnd, ← List.reverse_append, ← hstart, List.reverse_reverse]
  rw [List.append_assoc, ← hend]
  exact hstart t

theorem head_strip {c : Char} (h : (strip t).head? = some c) : isBlank c = false := by
  rw [strip, ← stripStart_stripEnd (stripStart_stripStart t)] at h
  exact head_stripStart h

theorem last_strip {c : Char} (h : (strip t).getLast? = some c) : isBlank c = false := by
  rw [strip, stripEnd, List.getLast?_reverse] at h
  exact head_stripStart h

end Strip

/-- A text cut into pieces at every occurrence of a character. -/
structure IsCut (sep : Char) (t : Text) (pieces : List Text) : Prop where
  ne_nil : pieces ≠ []
  not_mem : ∀ piece ∈ pieces, sep ∉ piece
  joined : [sep].intercalate pieces = t

theorem isCut_iff {sep : Char} {t : Text} {pieces : List Text} :
    IsCut sep t pieces ↔ pieces = t.splitOn sep := by
  constructor
  · rintro ⟨hne, hmem, rfl⟩
    exact (List.splitOn_intercalate sep hmem hne).symm
  · rintro rfl
    exact ⟨List.splitOn_ne_nil sep t, fun _ => not_mem_of_mem_splitOn, List.intercalate_splitOn sep⟩

/-- A text in the digits `0` to `9`. -/
def IsPlainNumeral (t : Text) : Prop := t ≠ [] ∧ ∀ c ∈ t, '0' ≤ c ∧ c ≤ '9'

/-- The value of digits by their places: the last one counts ones, the one before it tens. -/
def placeValue (t : Text) : Nat := Nat.ofDigits 10 (t.reverse.map fun c => c.toNat - '0'.toNat)

theorem isPlainDigits_iff {t : Text} : isPlainDigits t = true ↔ IsPlainNumeral t := by
  have hdigit (c : Char) : c.isDigit = true ↔ '0' ≤ c ∧ c ≤ '9' := by
    rw [Char.isDigit_iff_toNat]
    rfl
  simp only [isPlainDigits, IsPlainNumeral, Bool.and_eq_true, Bool.not_eq_true',
    List.isEmpty_eq_false_iff, List.all_eq_true, hdigit, ne_eq]

theorem ofDigits_eq_placeValue (t : Text) : Numeral.ofDigits t = placeValue t := by
  rw [Numeral.ofDigits, placeValue, Nat.ofDigits_eq_foldr, List.foldr_map, List.foldr_reverse]
  congr 1
  funext v c
  simp only [Nat.cast_id]
  omega

end HackStack.Text

namespace HackStack.Stack

/-! ### The grammar -/

/-- What may come of reading a line with code. -/
inductive Reading where
  /-- A command of a kind with its operands. -/
  | command (kind : Kind) (operand1 : Option Text) (operand2 : Option Nat)
  /-- A diagnostic of a category. -/
  | refused (category : Category)
  /-- A number of more digits than can be read. -/
  | tooLong (digits : Nat)
  deriving DecidableEq, Repr

/-- An answer that is as foreseen. A command carries the number of the line, and a diagnostic names
it and gives no other number. -/
def Reading.Describes (n : Int) : Reading → Except Failure (Option Command) → Prop
  | .command kind operand1 operand2, answer => ∃ c : Command, answer = .ok (some c) ∧
      c.kind = kind ∧ c.operand1? = operand1 ∧ c.operand2? = operand2 ∧ c.line = n
  | .refused category, answer => ∃ d : Diagnostic, answer = .error (.diagnostic d) ∧
      d.category = category ∧ d.line = some n ∧ d.cause.index? = none
  | .tooLong digits, answer => answer = .error (.numeral (.tooLong digits))

/-- An answer that is as foreseen where a caller gives the number of the line. A diagnostic cannot
name a number that is too long to be written, and then the answer is that it is. -/
def Reading.DescribesAt (n : Int) (o : Reading) (answer : Except Failure (Option Command)) : Prop :=
  match o, Numeral.isWritable n with
  | .refused _, false => answer = .error (.numeral .unwritable)
  | o, _ => o.Describes n answer

/-- The kind of command that a keyword starts. -/
def Keyword.kind : Keyword → Kind
  | .push => .push
  | .pop => .pop
  | .label => .label
  | .goto => .goto
  | .ifGoto => .ifGoto
  | .function => .function
  | .call => .call

/-- Whether a keyword takes a number behind its name. -/
def Keyword.takesIndex : Keyword → Bool
  | .push | .pop | .function | .call => true
  | .label | .goto | .ifGoto => false

/-- A word that may start a command. -/
inductive IsFirstWord : Text → Prop
  | arithmetic (op : Arithmetic) : IsFirstWord op.mnemonic
  | ret : IsFirstWord returnWord
  | keyword (k : Keyword) : IsFirstWord k.text

/-- **The grammar of commands**: what the words of a line stand for. -/
inductive Grammar : List Text → Reading → Prop
  | tooManyWords {words : List Text} : 3 < words.length →
      Grammar words (.refused .malformedCommand)
  /-- What follows an arithmetic word does not count. -/
  | arithmetic (op : Arithmetic) {rest : List Text} : rest.length ≤ 2 →
      Grammar (op.mnemonic :: rest) (.command .arithmetic (some op.mnemonic) none)
  | ret {rest : List Text} : rest.length ≤ 2 →
      Grammar (returnWord :: rest) (.command .ret none none)
  | unknownWord {word : Text} {rest : List Text} : rest.length ≤ 2 → ¬ IsFirstWord word →
      Grammar (word :: rest) (.refused .unknownCommand)
  | noName (k : Keyword) : Grammar [k.text] (.refused .missingOperand)
  /-- Two spaces behind a keyword leave its name empty. -/
  | emptyName (k : Keyword) {rest : List Text} : rest.length ≤ 1 →
      Grammar (k.text :: [] :: rest) (.refused .missingOperand)
  /-- What follows the name does not count where no number is taken. -/
  | name {k : Keyword} {name : Text} {rest : List Text} : k.takesIndex = false → name ≠ [] →
      rest.length ≤ 1 → Grammar (k.text :: name :: rest) (.command k.kind (some name) none)
  | noIndex {k : Keyword} {name : Text} : k.takesIndex = true → name ≠ [] →
      Grammar [k.text, name] (.refused .invalidOperand)
  | badIndex {k : Keyword} {name index : Text} : k.takesIndex = true → name ≠ [] →
      ¬ Text.IsPlainNumeral index → Grammar [k.text, name, index] (.refused .invalidOperand)
  | index {k : Keyword} {name index : Text} : k.takesIndex = true → name ≠ [] →
      Text.IsPlainNumeral index → index.length ≤ 4300 →
      Grammar [k.text, name, index] (.command k.kind (some name) (some (Text.placeValue index)))
  | tooLong {k : Keyword} {name index : Text} : k.takesIndex = true → name ≠ [] →
      Text.IsPlainNumeral index → 4300 < index.length →
      Grammar [k.text, name, index] (.tooLong index.length)

/-! ### Words -/

section Words

variable {rest : List Text} {n : Int}

theorem ofWords_mnemonic (op : Arithmetic) :
    Operation.ofWords op.mnemonic rest n = .ok (.arithmetic op) := by
  simp only [Operation.ofWords, Arithmetic.ofText?_mnemonic]

theorem ofWords_return : Operation.ofWords returnWord rest n = .ok .ret := rfl

theorem ofWords_unknown {word : Text} (h : ¬ IsFirstWord word) :
    Operation.ofWords word rest n = .error (failAt n (.unknownWord word)) := by
  have harithmetic : Arithmetic.ofText? word = none :=
    Option.eq_none_iff_forall_ne_some.mpr fun op hop =>
      h (Arithmetic.ofText?_eq_some_iff.mp hop ▸ .arithmetic op)
  have hkeyword : Keyword.ofText? word = none :=
    Option.eq_none_iff_forall_ne_some.mpr fun k hk =>
      h (Keyword.ofText?_eq_some_iff.mp hk ▸ .keyword k)
  have hreturn : (word == returnWord) = false := by
    rw [beq_eq_false_iff_ne]
    rintro rfl
    exact h .ret
  simp only [Operation.ofWords, harithmetic, hreturn, hkeyword]
  rfl

theorem ofWords_text (k : Keyword) :
    Operation.ofWords k.text rest n = (do
      let name ← nameOperand k.text rest n
      k.operation name (indexOperand k.text rest n)) := by
  have harithmetic : Arithmetic.ofText? k.text = none := by cases k <;> rfl
  have hreturn : (k.text == returnWord) = false := by cases k <;> rfl
  simp only [Operation.ofWords, harithmetic, hreturn, Keyword.ofText?_text]
  rfl

theorem ofWords_name (k : Keyword) {name : Text} (h : name ≠ []) :
    Operation.ofWords k.text (name :: rest) n =
      k.operation name (indexOperand k.text (name :: rest) n) := by
  have hname : nameOperand k.text (name :: rest) n = .ok name := by simp [nameOperand, h]
  rw [ofWords_text, hname]
  rfl

end Words

section Keyword

variable {k : Keyword} {name : Text}

theorem operation_of_name (h : k.takesIndex = false) (index : Except Failure Nat) :
    ∃ op, k.operation name index = .ok op ∧ op.kind = k.kind ∧ op.operand1? = some name ∧
      op.operand2? = none := by
  cases k with
  | label | goto | ifGoto => exact ⟨_, rfl, rfl, rfl, rfl⟩
  | push | pop | function | call => cases h

theorem operation_of_index (h : k.takesIndex = true) (i : Nat) :
    ∃ op, k.operation name (.ok i) = .ok op ∧ op.kind = k.kind ∧ op.operand1? = some name ∧
      op.operand2? = some i := by
  cases k with
  | push | pop | function | call => exact ⟨_, rfl, rfl, rfl, rfl⟩
  | label | goto | ifGoto => cases h

theorem operation_of_error (h : k.takesIndex = true) (f : Failure) :
    k.operation name (.error f) = .error f := by
  cases k with
  | push | pop | function | call => rfl
  | label | goto | ifGoto => cases h

end Keyword

section Index

variable {index : Text} (word name : Text) (n : Int)

theorem indexOperand_of_isPlainNumeral (h : Text.IsPlainNumeral index) :
    indexOperand word [name, index] n =
      if 4300 < index.length then .error (.numeral (.tooLong index.length))
      else .ok (Text.placeValue index) := by
  have hempty : index.isEmpty = false := List.isEmpty_eq_false_iff.mpr h.1
  simp only [indexOperand, hempty, readIndex, Text.isPlainDigits_iff.mpr h, Numeral.natural,
    Text.ofDigits_eq_placeValue, Numeral.digitLimit]
  by_cases hlong : 4300 < index.length <;> simp [hlong, Except.mapError]

/-- Anything but plain digits is refused. The wording depends on whether there is anything. -/
theorem exists_cause_indexOperand (h : ¬ Text.IsPlainNumeral index) :
    ∃ cause, indexOperand word [name, index] n = .error (failAt n cause) ∧
      cause.category = .invalidOperand ∧ cause.index? = none := by
  by_cases hempty : index = []
  · exact ⟨.noIndex word, by simp [indexOperand, hempty], rfl, rfl⟩
  · refine ⟨.notNumeric index, ?_, rfl, rfl⟩
    have hplain : ¬ Text.isPlainDigits index = true := mt Text.isPlainDigits_iff.mp h
    simp [indexOperand, hempty, readIndex, hplain]

end Index

/-! ### Lines -/

/-- A line of up to three words is what these stand for. -/
theorem parse_of_splitOn {line word : Text} {rest : List Text} (hcode : Text.code line ≠ [])
    (hwords : (Text.code line).splitOn ' ' = word :: rest) (hlength : rest.length ≤ 2) (n : Int) :
    Command.parse line n = (Operation.ofWords word rest n).map fun op => some ⟨op, n⟩ := by
  have hempty : (Text.code line).isEmpty = false := List.isEmpty_eq_false_iff.mpr hcode
  have hfew : ¬ maxWords < (word :: rest).length := by
    simp only [maxWords, List.length_cons]
    omega
  simp only [Command.parse, hempty, hwords, if_neg hfew]
  rfl

section Describes

variable {n : Int} {r : Except Failure Operation}

theorem describes_command {op : Operation} (h : r = .ok op) :
    (Reading.command op.kind op.operand1? op.operand2?).Describes n
      (r.map fun op => some ⟨op, n⟩) :=
  h ▸ ⟨⟨op, n⟩, rfl, rfl, rfl, rfl, rfl⟩

theorem describes_refused {cause : Cause} (h : r = .error (failAt n cause))
    (hindex : cause.index? = none) :
    (Reading.refused cause.category).Describes n (r.map fun op => some ⟨op, n⟩) :=
  h ▸ ⟨⟨cause, some n⟩, rfl, rfl, rfl, hindex⟩

/-- What is left of a diagnostic that gives no number but its line. -/
theorem failure_of_index?_eq_none {d : Diagnostic} (hline : d.line = some n)
    (hindex : d.cause.index? = none) :
    d.failure = if Numeral.isWritable n then .diagnostic d else .numeral .unwritable := by
  simp only [Diagnostic.failure, Diagnostic.isWritable, hline, hindex, Option.all_some,
    Option.all_none, Bool.and_true]

/-- Writing an answer out changes it only if it has to name a number that is too long. -/
theorem Reading.Describes.written {o : Reading} {answer : Except Failure (Option Command)}
    (h : o.Describes n answer) : o.DescribesAt n (answer.mapError Failure.written) := by
  cases o with
  | command kind operand1 operand2 =>
    obtain ⟨c, rfl, hc⟩ := h
    exact ⟨c, rfl, hc⟩
  | refused category =>
    obtain ⟨d, rfl, hcategory, hline, hindex⟩ := h
    have hfailure := failure_of_index?_eq_none hline hindex
    unfold Reading.DescribesAt
    cases hn : Numeral.isWritable n with
    | true =>
      rw [if_pos hn] at hfailure
      exact ⟨d, congrArg Except.error hfailure, hcategory, hline, hindex⟩
    | false =>
      rw [if_neg (by simp [hn])] at hfailure
      exact congrArg Except.error hfailure
  | tooLong digits =>
    cases h
    rfl

/-- An answer is foreseen in one way only. -/
theorem Reading.Describes.unique {o o' : Reading} {answer : Except Failure (Option Command)}
    (h : o.Describes n answer) (h' : o'.Describes n answer) : o = o' := by
  cases o with
  | command kind operand1 operand2 =>
    obtain ⟨c, rfl, rfl, rfl, rfl, -⟩ := h
    cases o' with
    | command => obtain ⟨c', heq, rfl, rfl, rfl, -⟩ := h'; cases heq; rfl
    | refused => obtain ⟨d, heq, -⟩ := h'; cases heq
    | tooLong => cases h'
  | refused category =>
    obtain ⟨d, rfl, rfl, -⟩ := h
    cases o' with
    | command => obtain ⟨c, heq, -⟩ := h'; cases heq
    | refused => obtain ⟨d', heq, rfl, -⟩ := h'; cases heq; rfl
    | tooLong => cases h'
  | tooLong digits =>
    cases h
    cases o' with
    | command => obtain ⟨c, heq, -⟩ := h'; cases heq
    | refused => obtain ⟨d, heq, -⟩ := h'; cases heq
    | tooLong => cases h'; rfl

end Describes

/-- **The reader keeps to the grammar.** -/
theorem describes_of_grammar {words : List Text} {o : Reading} (h : Grammar words o) {line : Text}
    (hcode : Text.code line ≠ []) (hwords : (Text.code line).splitOn ' ' = words) (n : Int) :
    o.Describes n (Command.parse line n) := by
  cases h with
  | tooManyWords hmany =>
    have hempty : (Text.code line).isEmpty = false := List.isEmpty_eq_false_iff.mpr hcode
    have hparse : Command.parse line n = .error (failAt n (.tooManyWords (Text.code line))) := by
      simp only [Command.parse, hempty, hwords, maxWords, if_pos hmany]
      rfl
    exact ⟨⟨.tooManyWords (Text.code line), some n⟩, hparse, rfl, rfl, rfl⟩
  | arithmetic op hrest =>
    rw [parse_of_splitOn hcode hwords hrest]
    exact describes_command (ofWords_mnemonic op)
  | ret hrest =>
    rw [parse_of_splitOn hcode hwords hrest]
    exact describes_command ofWords_return
  | unknownWord hrest hword =>
    rw [parse_of_splitOn hcode hwords hrest]
    exact describes_refused (ofWords_unknown hword) rfl
  | noName k =>
    have hnone : Operation.ofWords k.text [] n = .error (failAt n (.noArgument k.text)) :=
      ofWords_text k
    rw [parse_of_splitOn hcode hwords (by simp)]
    exact describes_refused hnone rfl
  | @emptyName k rest hrest =>
    have hnone : Operation.ofWords k.text ([] :: rest) n = .error (failAt n (.noArgument k.text)) :=
      ofWords_text k
    rw [parse_of_splitOn hcode hwords (Nat.succ_le_succ hrest)]
    exact describes_refused hnone rfl
  | name hk hname hrest =>
    rw [parse_of_splitOn hcode hwords (Nat.succ_le_succ hrest)]
    obtain ⟨op, hop, hkind, hfirst, hsecond⟩ := operation_of_name hk _
    rw [← hkind, ← hfirst, ← hsecond]
    exact describes_command ((ofWords_name _ hname).trans hop)
  | @noIndex k name hk hname =>
    have hnone : Operation.ofWords k.text [name] n = .error (failAt n (.noIndex k.text)) :=
      (ofWords_name k hname).trans (operation_of_error hk _)
    rw [parse_of_splitOn hcode hwords (by simp)]
    exact describes_refused hnone rfl
  | @badIndex k name index hk hname hindex =>
    rw [parse_of_splitOn hcode hwords (by simp)]
    obtain ⟨cause, hcause, hcategory, hnone⟩ := exists_cause_indexOperand k.text name n hindex
    rw [← hcategory]
    refine describes_refused ((ofWords_name _ hname).trans ?_) hnone
    rw [hcause, operation_of_error hk]
  | @index k name index hk hname hindex hlength =>
    rw [parse_of_splitOn hcode hwords (by simp)]
    obtain ⟨op, hop, hkind, hfirst, hsecond⟩ := operation_of_index hk (Text.placeValue index)
    rw [← hkind, ← hfirst, ← hsecond]
    refine describes_command ((ofWords_name _ hname).trans ?_)
    rw [indexOperand_of_isPlainNumeral _ _ _ hindex, if_neg (Nat.not_lt.mpr hlength), hop]
  | tooLong hk hname hindex hlength =>
    rw [parse_of_splitOn hcode hwords (by simp), ofWords_name _ hname,
      indexOperand_of_isPlainNumeral _ _ _ hindex, if_pos hlength, operation_of_error hk]
    rfl

/-- **The grammar says something of all words.** -/
theorem exists_grammar {words : List Text} (h : words ≠ []) : ∃ o, Grammar words o := by
  obtain ⟨word, rest, rfl⟩ := List.exists_cons_of_ne_nil h
  by_cases hmany : 3 < (word :: rest).length
  · exact ⟨_, .tooManyWords hmany⟩
  have hrest : rest.length ≤ 2 := by
    rw [List.length_cons] at hmany
    omega
  by_cases hword : IsFirstWord word
  · cases hword with
    | arithmetic op => exact ⟨_, .arithmetic op hrest⟩
    | ret => exact ⟨_, .ret hrest⟩
    | keyword k =>
      cases rest with
      | nil => exact ⟨_, .noName k⟩
      | cons name rest =>
        have hmore : rest.length ≤ 1 := by simpa using hrest
        by_cases hname : name = []
        · subst hname
          exact ⟨_, .emptyName k hmore⟩
        cases hk : k.takesIndex with
        | false => exact ⟨_, .name hk hname hmore⟩
        | true =>
          match rest, hmore with
          | [], _ => exact ⟨_, .noIndex hk hname⟩
          | [index], _ =>
            by_cases hindex : Text.IsPlainNumeral index
            · by_cases hlength : index.length ≤ 4300
              · exact ⟨_, .index hk hname hindex hlength⟩
              · exact ⟨_, .tooLong hk hname hindex (Nat.lt_of_not_le hlength)⟩
            · exact ⟨_, .badIndex hk hname hindex⟩
  · exact ⟨_, .unknownWord hrest hword⟩

end HackStack.Stack
