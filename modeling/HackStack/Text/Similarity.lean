import HackStack.Text.Basic

/-!
# Similarity of texts

How alike two texts are is told by the characters that they have in common. These are
the longest block that stands in both of them, and then what the parts before it and
the parts after it have in common in the same way. Of several longest blocks the first
one counts, by its place in the first text and then by its place in the second.

A text is close to a word when at least three fifths of the characters of the two are
in common. `closest` are the few that a misspelt word may have been meant for.
-/

namespace HackStack.Text

/-- The length of the start that two texts have in common. -/
def commonStart : Text → Text → Nat
  | c :: s, d :: t => if c == d then commonStart s t + 1 else 0
  | _, _ => 0

/-- A block of characters that stands in two texts: its places there, and its length. -/
structure Block where
  left : Nat
  right : Nat
  length : Nat
  deriving DecidableEq, Repr

/-- The longer of two blocks: the first if they are of one length. -/
def Block.longer (b c : Block) : Block := if b.length < c.length then c else b

/-- The longest block at each pair of places in two texts, place by place. -/
def blocks (s t : Text) : List Block :=
  (List.range s.length).flatMap fun i =>
    (List.range t.length).map fun j => ⟨i, j, commonStart (s.drop i) (t.drop j)⟩

/-- The longest block that stands in two texts. -/
def longestBlock (s t : Text) : Block := (blocks s t).foldl Block.longer ⟨0, 0, 0⟩

/-- The longest of some blocks is one of them. -/
theorem foldl_longer_mem (b : Block) (bs : List Block) :
    bs.foldl Block.longer b = b ∨ bs.foldl Block.longer b ∈ bs := by
  induction bs generalizing b with
  | nil => exact .inl rfl
  | cons c more ih =>
    have hc : b.longer c = b ∨ b.longer c = c := by
      simp only [Block.longer]
      split
      · exact .inr rfl
      · exact .inl rfl
    simp only [List.foldl_cons, List.mem_cons]
    rcases ih (b.longer c) with h | h
    · rw [h]
      exact hc.imp_right .inl
    · exact .inr (.inr h)

/-- A block that is not empty starts inside the first text. -/
theorem left_longestBlock_lt {s t : Text} (h : 0 < (longestBlock s t).length) :
    (longestBlock s t).left < s.length := by
  rcases foldl_longer_mem ⟨0, 0, 0⟩ (blocks s t) with hb | hb
  · rw [longestBlock, hb] at h
    exact absurd h (Nat.lt_irrefl 0)
  · simp only [blocks, List.mem_flatMap, List.mem_map, List.mem_range] at hb
    obtain ⟨i, hi, j, -, hij⟩ := hb
    simp only [longestBlock, blocks, ← hij]
    exact hi

/-- The number of characters that two texts have in common. -/
def common (s t : Text) : Nat :=
  let b := longestBlock s t
  if h : 0 < b.length then
    have := left_longestBlock_lt h
    common (s.take b.left) (t.take b.right) + b.length
      + common (s.drop (b.left + b.length)) (t.drop (b.right + b.length))
  else 0
termination_by s.length
decreasing_by
  all_goals
    have hlength : 0 < (longestBlock s t).length := h
    simp only [List.length_take, List.length_drop]
    omega

/-- Whether so many characters in common make two texts close, when they have so many in
all. -/
def isLarge (common total : Nat) : Bool := 3 * total ≤ 10 * common

/-- Whether a text is close to a word. Texts of very different lengths never are, and
need not be looked at. -/
def isClose (word t : Text) : Bool :=
  let total := t.length + word.length
  isLarge (min t.length word.length) total && isLarge (common t word) total

/-- Whether one text is at least as close to a word as another. Of two that are equally
close the later in the order of texts goes first. -/
def atLeastAsClose (word s t : Text) : Bool :=
  let p := common s word * (t.length + word.length)
  let q := common t word * (s.length + word.length)
  q < p || (p == q && notAfter t s)

/-- The texts that are closest to a word, at most `limit` of them. -/
def closest (limit : Nat) (word : Text) (candidates : List Text) : List Text :=
  ((candidates.filter (isClose word)).mergeSort (atLeastAsClose word)).take limit

end HackStack.Text
