import HackStack.Cli.Compiler
import HackStack.Proofs.Transcript

/-!
# The line that reports a fault

A fault in a file is reported in a line with the path of the file, the number of the line at fault
and the reason. How it comes out is up to the printer, of which only this is supposed: a text comes
out as it is, or it loses its control sequences (`IsEcho`). A sequence does not go on across a
colon or a space (`unstyled_append_cons`), so that each part of the line loses its own.

The number and the reason have none (`plain_reason`): texts in a reason are keywords and names of
segments, or stand between quotes, where an escape is given by its code point. Only the path may be
printed otherwise than it is spelt (`IsEcho.errorLine_reported`).
-/

namespace HackStack.Text

/-! ### Control sequences -/

/-- A character that is no part of a control sequence. -/
def isSeparator (c : Char) : Bool :=
  c != controlStart && c != '[' && !isParameter c && !c.isAlpha

theorem unstyledOnto_of_some {t rest : Text} (h : afterControl? t = some rest) (acc : Text) :
    unstyledOnto acc t = unstyledOnto acc rest := by
  rw [unstyledOnto]
  split
  · rename_i h'
    rw [h] at h'
    cases h'
    rfl
  · rename_i h'
    rw [h] at h'
    cases h'

theorem unstyledOnto_of_none {c : Char} {rest : Text} (h : afterControl? (c :: rest) = none)
    (acc : Text) : unstyledOnto acc (c :: rest) = unstyledOnto (c :: acc) rest := by
  rw [unstyledOnto]
  split
  · rename_i h'
    rw [h] at h'
    cases h'
  · rfl

theorem unstyledOnto_append (acc base t : Text) :
    unstyledOnto (acc ++ base) t = base.reverse ++ unstyledOnto acc t := by
  induction acc, t using unstyledOnto.induct with
  | case1 acc t rest h _ ih => rw [unstyledOnto_of_some h, unstyledOnto_of_some h, ih]
  | case2 acc h =>
    rw [unstyledOnto_of_not_mem List.not_mem_nil, unstyledOnto_of_not_mem List.not_mem_nil]
    simp
  | case3 acc c rest h ih => rw [unstyledOnto_of_none h, unstyledOnto_of_none h, ← ih]; rfl

section Separator

variable {c : Char} (hc : isSeparator c = true)

include hc

theorem ne_of_isSeparator : c ≠ controlStart ∧ c ≠ '[' ∧ isParameter c = false ∧
    c.isAlpha = false := by
  simp only [isSeparator, Bool.and_eq_true, bne_iff_ne, Bool.not_eq_true'] at hc
  exact ⟨hc.1.1.1, hc.1.1.2, hc.1.2, hc.2⟩

/-- A control sequence at the start of a text ends before a separator. -/
theorem afterControl?_append_cons (t rest : Text) :
    afterControl? (t ++ c :: rest) = (afterControl? t).map (· ++ c :: rest) := by
  obtain ⟨hstart, hbracket, hparameter, halpha⟩ := ne_of_isSeparator hc
  match t with
  | [] => exact afterControl?_cons_of_ne hstart rest
  | [d] => simp [afterControl?, hbracket]
  | d :: e :: more =>
    by_cases he : e = '['
    · subst he
      by_cases hd : d = controlStart
      · subst hd
        simp only [afterControl?, List.cons_append, beq_self_eq_true, if_true]
        rw [List.dropWhile_append]
        cases hdrop : more.dropWhile isParameter with
        | nil => simp [hparameter, halpha]
        | cons letter tail =>
          simp only [List.isEmpty_cons, Bool.false_eq_true, if_false, List.cons_append]
          split <;> simp
      · rw [afterControl?_cons_of_ne hd, List.cons_append, afterControl?_cons_of_ne hd]
        rfl
    · simp [afterControl?, he]

theorem unstyledOnto_append_cons (acc t rest : Text) :
    unstyledOnto acc (t ++ c :: rest) = unstyledOnto acc t ++ c :: unstyled rest := by
  induction acc, t using unstyledOnto.induct with
  | case1 acc t rest' h _ ih =>
    rw [unstyledOnto_of_some h, ← ih]
    refine unstyledOnto_of_some ?_ acc
    rw [afterControl?_append_cons hc, h]
    rfl
  | case2 acc h =>
    have hnone := afterControl?_cons_of_ne (ne_of_isSeparator hc).1 rest
    rw [List.nil_append, unstyledOnto_of_none hnone, unstyledOnto_of_not_mem List.not_mem_nil,
      ← List.nil_append (c :: acc), unstyledOnto_append, unstyled]
    simp
  | case3 acc d more h ih =>
    rw [unstyledOnto_of_none h, ← ih, List.cons_append]
    refine unstyledOnto_of_none ?_ acc
    rw [← List.cons_append, afterControl?_append_cons hc, h]
    rfl

/-- **Separators split the styling**: what stands before one and what stands after it lose their
control sequences apart from each other. -/
theorem unstyled_append_cons (t rest : Text) :
    unstyled (t ++ c :: rest) = unstyled t ++ c :: unstyled rest :=
  unstyledOnto_append_cons hc [] t rest

end Separator

/-! ### Texts between quotes -/

theorem eq_digitChar_of_mem_toDigits {base n : Nat} {c : Char} (h : c ∈ Nat.toDigits base n) :
    ∃ d, c = Nat.digitChar d := by
  have hcore (fuel n : Nat) (acc : Text) (hc : c ∈ Nat.toDigitsCore base fuel n acc) :
      (∃ d, c = Nat.digitChar d) ∨ c ∈ acc := by
    induction fuel generalizing n acc with
    | zero => exact .inr hc
    | succ fuel ih =>
      rw [Nat.toDigitsCore] at hc
      split at hc
      · rcases List.mem_cons.mp hc with rfl | hacc
        · exact .inl ⟨_, rfl⟩
        · exact .inr hacc
      · rcases ih _ _ hc with hd | hmem
        · exact .inl hd
        · rcases List.mem_cons.mp hmem with rfl | hacc
          · exact .inl ⟨_, rfl⟩
          · exact .inr hacc
  exact (hcore _ n [] h).resolve_right List.not_mem_nil

theorem digitChar_ne_controlStart (d : Nat) : Nat.digitChar d ≠ controlStart := by
  by_cases h : d < 16
  · exact (by decide : ∀ d < 16, Nat.digitChar d ≠ controlStart) d h
  · unfold Nat.digitChar
    iterate 16 rw [if_neg (by omega)]
    decide

theorem not_mem_toDigits (base n : Nat) : controlStart ∉ Nat.toDigits base n := fun h => by
  obtain ⟨d, hd⟩ := eq_digitChar_of_mem_toDigits h
  exact digitChar_ne_controlStart d hd.symm

theorem not_mem_hexadecimal (width n : Nat) : controlStart ∉ hexadecimal width n := by
  rw [hexadecimal, List.leftpad, List.mem_append, not_or]
  refine ⟨fun h => absurd (List.eq_of_mem_replicate h) (by decide), not_mem_toDigits 16 n⟩

theorem not_mem_codePointEscape (c : Char) : controlStart ∉ codePointEscape c := by
  have hfirst {letter : Char} (hletter : controlStart ≠ letter) (width : Nat) :
      controlStart ∉ backslash :: letter :: hexadecimal width c.toNat := by
    simp only [List.mem_cons, not_or]
    exact ⟨by decide, hletter, not_mem_hexadecimal width c.toNat⟩
  unfold codePointEscape
  split
  · exact hfirst (by decide) 2
  · split
    · exact hfirst (by decide) 4
    · exact hfirst (by decide) 8

theorem not_mem_escape {quote : Char} (hquote : quote ≠ controlStart) (c : Char) :
    controlStart ∉ escape quote c := by
  unfold escape
  split
  · rename_i hc
    have hne : controlStart ≠ c := by
      rcases Bool.or_eq_true_iff.mp hc with h | h
      · exact fun heq => hquote ((beq_iff_eq.mp h) ▸ heq.symm)
      · exact fun heq => absurd (heq.trans (beq_iff_eq.mp h)) (by decide)
    simp only [List.mem_cons, List.not_mem_nil, or_false, not_or]
    exact ⟨by decide, hne⟩
  · repeat' split
    · decide
    · decide
    · decide
    · rename_i hprintable
      rw [List.mem_singleton]
      rintro rfl
      exact absurd hprintable (by decide)
    · exact not_mem_codePointEscape c

/-- **Between quotes there is no escape**: it is given by its code point. -/
theorem not_mem_quoted (t : Text) : controlStart ∉ quoted t := by
  have hquote : quoteFor t ≠ controlStart := by
    unfold quoteFor
    split <;> decide
  have hinner : controlStart ∉ t.flatMap (escape (quoteFor t)) := fun h => by
    obtain ⟨c, -, hc⟩ := List.mem_flatMap.mp h
    exact not_mem_escape hquote c hc
  simp only [quoted, List.cons_append, List.mem_cons, List.mem_append, List.not_mem_nil, or_false,
    not_or]
  exact ⟨hquote.symm, hinner, hquote.symm⟩

end HackStack.Text

namespace HackStack.Cli

open Stack (Cause)

/-! ### Messages -/

/-- A piece of a message without an escape. -/
def Plain (s : String) : Prop := Text.controlStart ∉ s.toList

instance (s : String) : Decidable (Plain s) := inferInstanceAs (Decidable (_ ∉ s.toList))

theorem Plain.append {a b : String} (ha : Plain a) (hb : Plain b) : Plain (a ++ b) := by
  rw [Plain, String.toList_append, List.mem_append, not_or]
  exact ⟨ha, hb⟩

theorem plain_shown (t : Text) : Plain (Text.shown t) := by
  rw [Plain, Text.shown, String.toList_ofList]
  exact Text.not_mem_quoted t

theorem plain_repr (n : Nat) : Plain (Nat.repr n) := by
  rw [Plain, Nat.repr, String.toList_ofList]
  exact Text.not_mem_toDigits 10 n

theorem plain_toString (i : Int) : Plain (toString i) := by
  cases i with
  | ofNat n => exact plain_repr n
  | negSucc n =>
    have hminus : Plain "-" := by decide
    exact hminus.append (plain_repr (n + 1))

theorem plain_keyword (k : Stack.Keyword) : Plain (String.ofList k.text) := by
  cases k <;> decide

theorem plain_segment (s : Stack.Segment) : Plain (String.ofList s.name) := by
  cases s with
  | based base => cases base <;> decide
  | constant | temp | pointer | static => decide

/-- The reasons for faults have no escapes. -/
theorem plain_reason {cause : Cause} (h : cause.IsReported) : Plain cause.reason := by
  cases h with
  | tooManyWords line => exact .append (by decide) (plain_shown line)
  | unknownWord word => exact .append (by decide) (plain_shown word)
  | noArgument k => exact (plain_keyword k).append (by decide)
  | noIndex k => exact (plain_keyword k).append (by decide)
  | notNumeric t => exact .append (by decide) (plain_shown t)
  | indexTooLarge s index limit =>
    have hindex : Plain (String.ofList s.name ++ " index " ++ toString index) :=
      ((plain_segment s).append (by decide)).append (plain_toString index)
    exact (hindex.append (by decide)).append (plain_toString limit)
  | unknownSegment name => exact .append (by decide) (plain_shown name)
  | popConstant => decide

/-! ### Printing -/

/-- What is supposed of how texts come out on an output. -/
inductive IsEcho (print : String → String) : Prop
  /-- A terminal is sent every text as it is. -/
  | terminal : (∀ s, print s = s) → IsEcho print
  /-- Any other output is sent texts without their control sequences. -/
  | elsewhere : (∀ s, print s = unstyled s) → IsEcho print

theorem isEcho_onto (output errors : Bool) : IsEcho (Printer.onto output errors).errors := by
  cases errors with
  | true => exact .terminal fun _ => rfl
  | false => exact .elsewhere fun _ => rfl

theorem unstyled_of_plain {s : String} (h : Plain s) : unstyled s = s := by
  rw [unstyled, Text.unstyled_eq_self h, String.ofList_toList]

/-- What stands before a separator and what stands after it lose their sequences apart from each
other. -/
theorem unstyled_append {a b sep : String} {c : Char} (hsep : sep.toList = [c])
    (hc : Text.isSeparator c = true) :
    unstyled (a ++ sep ++ b) = unstyled a ++ sep ++ unstyled b := by
  have hsplit : (a ++ sep ++ b).toList = a.toList ++ c :: b.toList := by
    simp [String.toList_append, hsep]
  rw [unstyled, hsplit, Text.unstyled_append_cons hc, ← List.singleton_append, String.ofList_append,
    String.ofList_append, ← hsep, String.ofList_toList, ← String.append_assoc]
  rfl

section Echo

variable {print : String → String} (hprint : IsEcho print)

include hprint

theorem IsEcho.of_plain {s : String} (h : Plain s) : print s = s := by
  cases hprint with
  | terminal hall => exact hall s
  | elsewhere hall => rw [hall, unstyled_of_plain h]

theorem IsEcho.append {a b sep : String} {c : Char} (hsep : sep.toList = [c])
    (hc : Text.isSeparator c = true) : print (a ++ sep ++ b) = print a ++ sep ++ print b := by
  cases hprint with
  | terminal hall => rw [hall, hall, hall]
  | elsewhere hall => rw [hall, hall, hall, unstyled_append hsep hc]

/-- **The line that reports a diagnostic**: only the path may lose control sequences. -/
theorem IsEcho.errorLine_reported (source : Files.Path) (line : Int) {cause : Cause}
    (h : cause.IsReported) :
    print (errorLine (Compiler.named source ++ ":" ++ toString line ++ ": " ++ cause.reason)) =
      "Error: " ++ print (Compiler.named source) ++ ":" ++ toString line ++ ": " ++ cause.reason
        ++ "\n" := by
  have hrest : Plain (toString line ++ ": " ++ cause.reason ++ "\n") :=
    (((plain_toString line).append (by decide)).append (plain_reason h)).append (by decide)
  have herror : "Error: " = "Error:" ++ " " := by decide
  calc print (errorLine (Compiler.named source ++ ":" ++ toString line ++ ": " ++ cause.reason))
    _ = print ("Error:" ++ " " ++ (Compiler.named source ++ ":"
          ++ (toString line ++ ": " ++ cause.reason ++ "\n"))) := by
        rw [errorLine, herror]
        simp only [String.append_assoc]
    _ = print "Error:" ++ " " ++ (print (Compiler.named source) ++ ":"
          ++ print (toString line ++ ": " ++ cause.reason ++ "\n")) := by
        rw [hprint.append rfl (by decide), hprint.append rfl (by decide)]
    _ = _ := by
        rw [hprint.of_plain hrest, hprint.of_plain (by decide), herror]
        simp only [String.append_assoc]

end Echo

end HackStack.Cli
