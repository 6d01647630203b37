import HackStack.Text.Basic

/-!
# Styled text

A text that is printed may hold control sequences, which set the style of what follows
on a terminal. Such a sequence is an escape and an opening bracket, then any number of
digits, semicolons and question marks, and a letter that ends it. `unstyled` is the text
without them. An escape that starts no whole sequence stays.
-/

namespace HackStack.Text

/-- The escape that starts a control sequence. -/
def controlStart : Char := '\x1b'

/-- Whether a character is a parameter of a control sequence. -/
def isParameter (c : Char) : Bool := c == ';' || c == '?' || c.isDigit

/-- What follows the control sequence that a text starts with. -/
def afterControl? : Text → Option Text
  | c :: '[' :: rest =>
    if c == controlStart then
      match rest.dropWhile isParameter with
      | letter :: rest => if letter.isAlpha then some rest else none
      | [] => none
    else none
  | _ => none

/-- What follows a control sequence is shorter. -/
theorem length_afterControl?_lt {t rest : Text} (h : afterControl? t = some rest) :
    rest.length < t.length := by
  unfold afterControl? at h
  split at h
  · rename_i c more
    split at h
    · split at h
      · rename_i letter tail hdrop
        have hle : (letter :: tail).length ≤ more.length :=
          hdrop ▸ (List.dropWhile_sublist isParameter).length_le
        split at h
        · cases h
          simp only [List.length_cons] at hle ⊢
          omega
        · cases h
      · cases h
    · cases h
  · cases h

/-- Put a text without its control sequences after the reversed text `acc`. -/
def unstyledOnto (acc : Text) (t : Text) : Text :=
  match h : afterControl? t with
  | some rest =>
    have := length_afterControl?_lt h
    unstyledOnto acc rest
  | none =>
    match t with
    | [] => acc.reverse
    | c :: rest => unstyledOnto (c :: acc) rest
termination_by t.length

/-- A text without its control sequences. -/
def unstyled (t : Text) : Text := unstyledOnto [] t

/-- A text that does not start with an escape starts with no control sequence. -/
theorem afterControl?_cons_of_ne {c : Char} (h : c ≠ controlStart) (rest : Text) :
    afterControl? (c :: rest) = none := by
  unfold afterControl?
  split
  · rename_i heq
    cases heq
    rw [if_neg (by simpa using h)]
  · rfl

theorem unstyledOnto_of_not_mem {t : Text} (h : controlStart ∉ t) (acc : Text) :
    unstyledOnto acc t = acc.reverse ++ t := by
  induction t generalizing acc with
  | nil => simp [unstyledOnto, afterControl?]
  | cons c rest ih =>
    simp only [List.mem_cons, not_or] at h
    rw [unstyledOnto]
    split
    · rename_i heq
      rw [afterControl?_cons_of_ne (Ne.symm h.1)] at heq
      cases heq
    · simp only [ih h.2]
      simp

/-- A text without an escape is left as it is. -/
theorem unstyled_eq_self {t : Text} (h : controlStart ∉ t) : unstyled t = t :=
  unstyledOnto_of_not_mem h []

end HackStack.Text
