import HackStack.Text.Basic

/-!
# Blanks

The characters that count as space around a line of code: the white space of
Unicode together with the four information separators `U+001C` to `U+001F`.
`strip` removes them at both ends of a text and leaves those inside alone.
-/

namespace HackStack.Text

/-- The ranges of the blank characters. -/
def blankRanges : List (Nat × Nat) :=
  [(0x09, 0x0d), (0x1c, 0x20), (0x85, 0x85), (0xa0, 0xa0), (0x1680, 0x1680), (0x2000, 0x200a),
   (0x2028, 0x2029), (0x202f, 0x202f), (0x205f, 0x205f), (0x3000, 0x3000)]

/-- Whether a character is blank. -/
def isBlank (c : Char) : Bool := inRanges blankRanges c

/-- A text without the blanks at its start. -/
def stripStart (t : Text) : Text := t.dropWhile isBlank

/-- A text without the blanks at its end. -/
def stripEnd (t : Text) : Text := (stripStart t.reverse).reverse

/-- A text without the blanks at either end. -/
def strip (t : Text) : Text := stripEnd (stripStart t)

/-! ### Stripping is done once -/

theorem stripStart_stripStart (t : Text) : stripStart (stripStart t) = stripStart t := by
  induction t with
  | nil => rfl
  | cons c rest ih =>
    by_cases h : isBlank c = true
    · simpa [stripStart, List.dropWhile_cons, h] using ih
    · simp [stripStart, h]

theorem stripEnd_stripEnd (t : Text) : stripEnd (stripEnd t) = stripEnd t := by
  simp [stripEnd, stripStart_stripStart]

/-- What starts with no blank still does after blanks are taken off its end. -/
theorem stripStart_stripEnd {t : Text} (h : stripStart t = t) :
    stripStart (stripEnd t) = stripEnd t := by
  cases t with
  | nil => rfl
  | cons c rest =>
    have hc : isBlank c = false := by
      cases hb : isBlank c with
      | false => rfl
      | true =>
        have hlen := congrArg List.length h
        have := (List.dropWhile_sublist (p := isBlank) (l := rest)).length_le
        simp [stripStart, hb] at hlen
        omega
    have hend : stripEnd (c :: rest) = c :: stripEnd rest := by
      simp [stripEnd, stripStart, List.dropWhile_append, hc]
    rw [hend]
    simp [stripStart, hc]

/-- What is left is a stretch of the text. -/
theorem strip_isInfix (t : Text) : strip t <:+: t := by
  have hend : ∀ u : Text, stripEnd u <+: u := fun u => by
    have := (List.dropWhile_suffix (l := u.reverse) isBlank)
    simpa [stripEnd, stripStart] using List.reverse_prefix.2 this
  exact (hend (stripStart t)).isInfix.trans (List.dropWhile_suffix isBlank).isInfix

/-- Stripping a second time changes nothing. -/
theorem strip_strip (t : Text) : strip (strip t) = strip t := by
  simp only [strip]
  rw [stripStart_stripEnd (stripStart_stripStart t), stripEnd_stripEnd]

end HackStack.Text
