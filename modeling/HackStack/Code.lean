import HackStack.Text.Blank

/-!
# Lines of code

Both languages have the same layout: two slashes start a comment that goes to the
end of the line, blanks around the code do not count, and a line without code is
dropped. The lines that remain keep the numbers they have in the source, counted
from one.
-/

namespace HackStack

/-- What stands before the first two slashes. -/
def Text.beforeComment : Text → Text
  | [] => []
  | '/' :: '/' :: _ => []
  | c :: rest => c :: Text.beforeComment rest

/-- What stands before a comment starts as the text does. -/
theorem Text.head_beforeComment {c d : Char} {rest u : Text}
    (h : Text.beforeComment (c :: rest) = d :: u) : d = c := by
  unfold Text.beforeComment at h
  split at h <;> simp_all

/-- What stands before a comment has no two slashes in a row. -/
theorem Text.not_isInfix_beforeComment (t : Text) : ¬ ['/', '/'] <:+: Text.beforeComment t := by
  fun_induction Text.beforeComment t with
  | case1 => simp
  | case2 => simp
  | case3 c rest hslashes ih =>
    rw [List.infix_cons_iff]
    rintro (⟨tail, htail⟩ | hinfix)
    · -- then the text itself started with two slashes
      simp only [List.cons_append, List.nil_append, List.cons.injEq] at htail
      cases rest with
      | nil => simp [Text.beforeComment] at htail
      | cons d more =>
        exact hslashes more htail.1.symm (by rw [Text.head_beforeComment htail.2.symm])
    · exact ih hinfix

/-- A text without two slashes in a row has no comment. -/
theorem Text.beforeComment_eq_self {t : Text} (h : ¬ ['/', '/'] <:+: t) :
    Text.beforeComment t = t := by
  fun_induction Text.beforeComment t with
  | case1 => rfl
  | case2 rest => exact absurd (List.IsPrefix.isInfix ⟨rest, rfl⟩) h
  | case3 c rest _ ih => rw [ih fun hinfix => h (List.infix_cons hinfix)]

/-- The code of a line: what stands before a comment, without blanks around it. -/
def Text.code (line : Text) : Text := Text.strip (Text.beforeComment line)

/-- Code is its own code. -/
theorem Text.code_code (line : Text) : Text.code (Text.code line) = Text.code line := by
  have hnone : ¬ ['/', '/'] <:+: Text.code line := fun h =>
    Text.not_isInfix_beforeComment line (h.trans (Text.strip_isInfix _))
  rw [Text.code, Text.beforeComment_eq_self hnone]
  exact Text.strip_strip _

/-- A line of code with its number in the source. -/
structure CodeLine where
  number : Nat
  code : Text
  deriving DecidableEq, Repr

/-- The line of code that a numbered line holds, if any. -/
def CodeLine.ofLine? (line : Text) (number : Nat) : Option CodeLine :=
  if (Text.code line).isEmpty then none else some ⟨number, Text.code line⟩

/-- The lines that hold code, numbered by their places from one. -/
def CodeLine.ofLines (lines : List Text) : List CodeLine :=
  (lines.zipIdx 1).filterMap fun (line, number) => CodeLine.ofLine? line number

/-- **The lines of code** are the lines that are not blank, each with its place, counted from
one. -/
theorem CodeLine.mem_ofLines_iff {lines : List Text} {line : CodeLine} :
    line ∈ CodeLine.ofLines lines ↔
      ∃ i raw, lines[i]? = some raw ∧ Text.code raw ≠ [] ∧ line = ⟨i + 1, Text.code raw⟩ := by
  rw [CodeLine.ofLines, List.mem_filterMap]
  constructor
  · rintro ⟨⟨raw, n⟩, hmem, hline⟩
    obtain ⟨hn, hraw⟩ := List.mem_zipIdx_iff_le_and_getElem?_sub.mp hmem
    simp only [CodeLine.ofLine?] at hline
    split at hline
    · cases hline
    · rename_i hcode
      cases hline
      refine ⟨n - 1, raw, hraw, by simpa using hcode, ?_⟩
      rw [Nat.sub_add_cancel hn]
  · rintro ⟨i, raw, hraw, hcode, rfl⟩
    refine ⟨(raw, i + 1), ?_, ?_⟩
    · exact List.mem_zipIdx_iff_le_and_getElem?_sub.mpr ⟨Nat.le_add_left 1 i, hraw⟩
    · simp [CodeLine.ofLine?, hcode]

/-- The lines of code are in their order. -/
theorem CodeLine.pairwise_number_ofLines (lines : List Text) :
    (CodeLine.ofLines lines).Pairwise fun l m => l.number < m.number := by
  rw [CodeLine.ofLines, List.pairwise_filterMap]
  have hindices : (lines.zipIdx 1).Pairwise fun a b => a.2 < b.2 := by
    rw [← List.pairwise_map (f := Prod.snd), List.zipIdx_map_snd]
    exact List.pairwise_lt_range'
  refine hindices.imp fun {a b} hlt l hl m hm => ?_
  have hnumber : ∀ {raw : Text} {n : Nat} {k : CodeLine},
      CodeLine.ofLine? raw n = some k → k.number = n := by
    intro raw n k hk
    unfold CodeLine.ofLine? at hk
    split at hk <;> cases hk
    rfl
  rw [hnumber hl, hnumber hm]
  exact hlt

end HackStack
