/-!
# Texts

A text is the list of its characters, so that every scanner of the library is a
recursion over the data. This module has the cuts that the readers share: at the
first and at the last occurrence of a separator, the test for membership in a table
of character ranges, and the order of texts.
-/

namespace HackStack

/-- A text, character by character. -/
abbrev Text := List Char

namespace Text

/-- What stands before the first `sep`: the whole text when there is none. -/
def before (sep : Char) (t : Text) : Text := t.takeWhile (· != sep)

/-- What stands after the first `sep`: nothing when there is none. -/
def after (sep : Char) (t : Text) : Text := (t.dropWhile (· != sep)).drop 1

/-- What stands before the last `sep`: nothing when there is none. -/
def beforeLast (sep : Char) (t : Text) : Text := (after sep t.reverse).reverse

/-- What stands after the last `sep`: the whole text when there is none. -/
def afterLast (sep : Char) (t : Text) : Text := (before sep t.reverse).reverse

/-- Membership in a table of inclusive ranges of code points. -/
def inRanges (ranges : List (Nat × Nat)) (c : Char) : Bool :=
  ranges.any fun r => r.1 ≤ c.toNat && c.toNat ≤ r.2

/-- Whether a text is not after another in the order of their code points, in which a text goes
before its continuations. -/
def notAfter : Text → Text → Bool
  | [], _ => true
  | _ :: _, [] => false
  | c :: s, d :: t => c.toNat < d.toNat || (c == d && notAfter s t)

/-- Lines written one under the other, each closed by a line feed. -/
def ofLines (lines : List Text) : Text := lines.flatMap fun l => l ++ ['\n']

/-! ### Laws of the cuts -/

section Cut

variable {sep : Char} {t : Text}

theorem all_bne (h : sep ∉ t) : ∀ c ∈ t, (c != sep) = true := by
  intro c hc
  have hne : c ≠ sep := fun heq => h (heq ▸ hc)
  simpa using hne

/-- A text is cut at a separator that has none before it. -/
theorem before_append (h : sep ∉ t) (rest : Text) : before sep (t ++ sep :: rest) = t := by
  rw [before, List.takeWhile_append_of_pos (all_bne h), List.takeWhile_cons_of_neg (by simp),
    List.append_nil]

theorem after_append (h : sep ∉ t) (rest : Text) : after sep (t ++ sep :: rest) = rest := by
  rw [after, List.dropWhile_append_of_pos (all_bne h), List.dropWhile_cons_of_neg (by simp)]
  rfl

end Cut

/-- No piece of a text that is cut at a character has this character. -/
theorem not_mem_of_mem_splitOn {sep : Char} {t piece : Text} (h : piece ∈ t.splitOn sep) :
    sep ∉ piece := by
  induction t generalizing piece with
  | nil =>
    rw [List.splitOn_nil, List.mem_singleton] at h
    rw [h]
    exact List.not_mem_nil
  | cons c rest ih =>
    rw [List.splitOn, List.splitOnP_cons_eq_if_modifyHead] at h
    split at h
    · cases h with
      | head => exact List.not_mem_nil
      | tail _ hmore => exact ih hmore
    · rename_i hc
      -- the character goes in front of the first of the pieces that follow
      have hne : sep ≠ c := fun heq => hc (by simp [heq])
      change piece ∈ (rest.splitOn sep).modifyHead (c :: ·) at h
      cases hpieces : rest.splitOn sep with
      | nil => rw [hpieces] at h; cases h
      | cons first more =>
        rw [hpieces] at h ih
        cases h with
        | head => simp [hne, ih (List.mem_cons_self ..)]
        | tail _ hmore => exact ih (List.mem_cons_of_mem _ hmore)

@[simp]
theorem ofLines_nil : ofLines [] = [] := rfl

@[simp]
theorem ofLines_cons (line : Text) (more : List Text) :
    ofLines (line :: more) = line ++ '\n' :: ofLines more := by
  simp [ofLines]

@[simp]
theorem ofLines_append (first second : List Text) :
    ofLines (first ++ second) = ofLines first ++ ofLines second := by
  simp [ofLines]

end Text

end HackStack
