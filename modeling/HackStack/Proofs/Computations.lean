import HackStack.Hack.Decode
import Mathlib.Data.Int.Bitwise
import Mathlib.Data.List.Nodup
import Mathlib.Data.Set.List

/-!
# The grammar of computations

An instruction is written `dest=comp;jump`, and what `comp` may be is told here by formulas
over the registers and the memory cell, which have a text and a meaning of their own. The
arithmetic unit has eighteen operations, ten of them on `A`; with the memory cell in the
place of `A` these make twenty-eight formulas, and an operator that commutes lets its
operands be exchanged (`Formula.IsWritten`).

The reader replaces `M` by `A`, looks the text up and turns it around if need be. That this
neither takes a formula for another nor accepts one that is none comes from the eighteen
texts: in none of them does `A` stand twice, so a text that has both letters is no
operation once they are one (`exists_formula_of_ofWritten?`).
-/

namespace HackStack.Word

/-! ### Bitwise operations -/

theorem ldiff_add_and (m n : Nat) : Nat.ldiff m n + (m &&& n) = m := by
  induction m using Nat.binaryRec generalizing n with
  | zero => simp [Nat.ldiff]
  | bit b m ih =>
    induction n using Nat.bitCasesOn with
    | bit c n =>
      rw [Nat.ldiff_bit, Nat.land_bit, Nat.bit_val, Nat.bit_val, Nat.bit_val]
      have := ih n
      cases b <;> cases c <;> simp <;> omega

theorem land_eq (x y : Int) : land x y = Int.land x y := by
  have hdiff (m n : Nat) : m - (m &&& n) = Nat.ldiff m n := by
    have := ldiff_add_and m n
    omega
  cases x <;> cases y <;> simp [land, Int.land, hdiff]

theorem lor_eq (x y : Int) : lor x y = Int.lor x y := by
  rw [lor, land_eq]
  cases x <;> cases y <;> rfl

theorem int_land_comm (x y : Int) : Int.land x y = Int.land y x := by
  cases x <;> cases y <;> simp [Int.land, Nat.land_comm, Nat.lor_comm]

theorem int_lor_comm (x y : Int) : Int.lor x y = Int.lor y x := by
  cases x <;> cases y <;> simp [Int.lor, Nat.land_comm, Nat.lor_comm]

end HackStack.Word

namespace HackStack.Hack

/-! ### Formulas -/

/-- What a formula is made of: two numbers, two registers and the memory cell at `A`. -/
inductive Atom where
  | zero
  | one
  | d
  | a
  | m
  deriving DecidableEq, Repr

namespace Atom

def letter : Atom → Char
  | .zero => '0'
  | .one => '1'
  | .d => 'D'
  | .a => 'A'
  | .m => 'M'

def value (d a m : Int) : Atom → Int
  | .zero => 0
  | .one => 1
  | .d => d
  | .a => a
  | .m => m

/-- The memory cell in the place of `A`. -/
def withMemory : Atom → Atom
  | .a => .m
  | x => x

end Atom

/-- The formulas that can be written with at most one operator. -/
inductive Formula where
  | atom (x : Atom)
  | neg (x : Atom)
  | not (x : Atom)
  | add (x y : Atom)
  | sub (x y : Atom)
  | and (x y : Atom)
  | or (x y : Atom)
  deriving DecidableEq, Repr

namespace Formula

/-- How a formula is written. -/
def text : Formula → Text
  | .atom x => [x.letter]
  | .neg x => ['-', x.letter]
  | .not x => ['!', x.letter]
  | .add x y => [x.letter, '+', y.letter]
  | .sub x y => [x.letter, '-', y.letter]
  | .and x y => [x.letter, '&', y.letter]
  | .or x y => [x.letter, '|', y.letter]

/-- What a formula means, where `m` is in the memory cell. -/
def eval (d a m : Int) : Formula → Int
  | .atom x => x.value d a m
  | .neg x => -x.value d a m
  | .not x => ~~~x.value d a m
  | .add x y => x.value d a m + y.value d a m
  | .sub x y => x.value d a m - y.value d a m
  | .and x y => Int.land (x.value d a m) (y.value d a m)
  | .or x y => Int.lor (x.value d a m) (y.value d a m)

/-- The formula on the memory cell in the place of `A`. -/
def withMemory : Formula → Formula
  | .atom x => .atom x.withMemory
  | .neg x => .neg x.withMemory
  | .not x => .not x.withMemory
  | .add x y => .add x.withMemory y.withMemory
  | .sub x y => .sub x.withMemory y.withMemory
  | .and x y => .and x.withMemory y.withMemory
  | .or x y => .or x.withMemory y.withMemory

/-- The formula with its operands exchanged, where the operator commutes. -/
def exchange? : Formula → Option Formula
  | .add x y => some (.add y x)
  | .and x y => some (.and y x)
  | .or x y => some (.or y x)
  | _ => none

theorem eval_exchange {f g : Formula} (h : f.exchange? = some g) (d a m : Int) :
    g.eval d a m = f.eval d a m := by
  cases f with
  | add x y => obtain rfl := Option.some.inj h; exact Int.add_comm _ _
  | and x y => obtain rfl := Option.some.inj h; exact Word.int_land_comm _ _
  | or x y => obtain rfl := Option.some.inj h; exact Word.int_lor_comm _ _
  | atom | neg | not | sub => cases h

theorem value_withMemory (d a m : Int) (x : Atom) :
    x.withMemory.value d a m = x.value d m m := by
  cases x <;> rfl

theorem eval_withMemory (d a m : Int) (f : Formula) :
    f.withMemory.eval d a m = f.eval d m m := by
  cases f <;> simp only [withMemory, eval, value_withMemory]

theorem exchange?_withMemory (f : Formula) :
    f.withMemory.exchange? = f.exchange?.map withMemory := by
  cases f <;> rfl

/-- No formula has one of the signs that stand between the parts of an instruction. -/
theorem not_mem_text (f : Formula) {c : Char} (h : c = '=' ∨ c = ';') : c ∉ f.text := by
  have hletter (x : Atom) : c ≠ x.letter := by
    rcases h with rfl | rfl <;> cases x <;> decide
  cases f <;> rcases h with rfl | rfl <;> simp [text, hletter]

end Formula

/-! ### The operations as formulas -/

/-- The formula of an operation. -/
def Computation.formula : Computation → Formula
  | .zero => .atom .zero
  | .one => .atom .one
  | .minusOne => .neg .one
  | .d => .atom .d
  | .a => .atom .a
  | .notD => .not .d
  | .notA => .not .a
  | .negD => .neg .d
  | .negA => .neg .a
  | .succD => .add .d .one
  | .succA => .add .a .one
  | .predD => .sub .d .one
  | .predA => .sub .a .one
  | .add => .add .d .a
  | .subA => .sub .d .a
  | .subD => .sub .a .d
  | .and => .and .d .a
  | .or => .or .d .a

/-- The formulas that an instruction can compute, first those of the operations themselves and
then those on the memory cell. -/
def Formula.computable : List Formula :=
  Computation.all.map (·.formula) ++
    (Computation.all.filter (·.text.contains 'A')).map (·.formula.withMemory)

example : Formula.computable.length = 28 ∧ Formula.computable.Nodup := by decide

/-- A formula that may stand in an instruction: one that can be computed, with its operands in
either order if the operator commutes. -/
def Formula.IsWritten (f : Formula) : Prop :=
  f ∈ Formula.computable ∨ ∃ g ∈ Formula.computable, g.exchange? = some f

/-- The formulas that stand for an operation on the registers. -/
def Computation.forms (c : Computation) : List Formula := c.formula :: c.formula.exchange?.toList

namespace Computation

theorem mem_all (c : Computation) : c ∈ all := by
  cases c <;> decide

theorem text_formula (c : Computation) : c.formula.text = c.text := by
  cases c <;> rfl

theorem eval_formula (c : Computation) (d a m : Int) : c.formula.eval d a m = c.eval d a := by
  cases c with
  | and => exact (Word.land_eq d a).symm
  | or => exact (Word.lor_eq d a).symm
  | _ => rfl

/-- Operations differ already in what they make of two numbers. -/
theorem eq_of_eval_eq {c c' : Computation} (h : ∀ d a, c.eval d a = c'.eval d a) : c = c' := by
  have hnodup : (all.map (·.eval 20 6)).Nodup := by decide
  exact List.inj_on_of_nodup_map hnodup (mem_all c) (mem_all c') (h 20 6)

section Forms

variable {c : Computation} {f : Formula}

theorem eval_of_mem_forms (h : f ∈ c.forms) (d a m : Int) : f.eval d a m = c.eval d a := by
  rw [← eval_formula c d a m]
  rcases List.mem_cons.mp h with rfl | hexchanged
  · rfl
  · exact Formula.eval_exchange (Option.mem_toList.mp hexchanged) d a m

theorem ofWritten?_of_mem_forms (h : f ∈ c.forms) : ofWritten? f.text = some c := by
  revert f
  cases c <;> decide

theorem not_mem_of_mem_forms (h : f ∈ c.forms) : 'M' ∉ f.text := by
  revert f
  cases c <;> decide

theorem count_le_of_mem_forms (h : f ∈ c.forms) : f.text.count 'A' ≤ 1 := by
  revert f
  cases c <;> decide

/-- An operation whose operator commutes has a second formula, which is its text turned around. -/
theorem exists_form_reverse (h : c.text.any isCommutative = true) :
    ∃ f ∈ c.forms, f.text = c.text.reverse := by
  cases c with
  | succD | succA | add | and | or =>
    exact ⟨_, List.mem_cons_of_mem _ (List.mem_cons_self ..), rfl⟩
  | _ => exact absurd h (by decide)

/-- What the reader takes for an operation is a formula of it. -/
theorem ofWritten?_eq_some_iff {t : Text} :
    ofWritten? t = some c ↔ ∃ f ∈ c.forms, f.text = t := by
  constructor
  · intro h
    unfold ofWritten? at h
    split at h
    · rename_i c' hfound
      obtain rfl := Option.some.inj h
      exact ⟨c'.formula, List.mem_cons_self .., by
        rw [text_formula, ofText?_eq_some_iff.mp hfound]⟩
    · split at h
      · rename_i x s y _
        split at h
        · rename_i hcommutes
          have htext : [y, s, x] = c.text := ofText?_eq_some_iff.mp h
          have hmem : s ∈ c.text := by
            rw [← htext]
            simp
          obtain ⟨f, hf, hreverse⟩ :=
            exists_form_reverse (List.any_eq_true.mpr ⟨s, hmem, hcommutes⟩)
          refine ⟨f, hf, ?_⟩
          rw [hreverse, ← htext]
          rfl
        · cases h
      · cases h
  · rintro ⟨f, hf, rfl⟩
    exact ofWritten?_of_mem_forms hf

end Forms

end Computation

/-! ### Formulas on the memory cell -/

theorem readsMemory_iff {t : Text} : readsMemory t = true ↔ 'M' ∈ t := List.contains_iff_mem

/-- A text with one letter in the place of another. -/
def replaced (x y : Char) (t : Text) : Text := t.map fun c => if c == x then y else c

theorem withoutMemory_eq_replaced (t : Text) : withoutMemory t = replaced 'M' 'A' t := rfl

section Replaced

variable {x y : Char} {t : Text}

theorem replaced_eq_self (h : x ∉ t) : replaced x y t = t := by
  refine (List.map_congr_left ?_).trans (List.map_id t)
  intro c hc
  have hne : c ≠ x := fun heq => h (heq ▸ hc)
  simp [hne]

/-- A letter that is new to the text can be taken back. -/
theorem replaced_replaced (h : y ∉ t) : replaced y x (replaced x y t) = t := by
  rw [replaced, replaced, List.map_map]
  refine (List.map_congr_left ?_).trans (List.map_id t)
  intro c hc
  have hne : c ≠ y := fun heq => h (heq ▸ hc)
  by_cases hx : c = x <;> simp [hx, hne]

end Replaced

theorem Formula.text_withMemory (f : Formula) : f.withMemory.text = replaced 'A' 'M' f.text := by
  have hletter (x : Atom) : x.withMemory.letter = if x.letter == 'A' then 'M' else x.letter := by
    cases x <;> rfl
  cases f <;> simp [withMemory, text, replaced, hletter]

/-- Where one letter replaces the other, it stands for both. -/
theorem count_withoutMemory (t : Text) :
    (withoutMemory t).count 'A' = t.count 'A' + t.count 'M' := by
  induction t with
  | nil => rfl
  | cons c t ih =>
    rw [withoutMemory, List.map_cons, ← withoutMemory, List.count_cons, ih, List.count_cons,
      List.count_cons]
    by_cases hM : c = 'M'
    · simp [hM]
      omega
    · simp [hM]
      omega

namespace Formula

/-- A formula without `A` is the same on the memory cell. -/
theorem withMemory_eq_self {f : Formula} (h : 'A' ∉ f.text) : f.withMemory = f := by
  have hatom (x : Atom) (hx : 'A' ≠ x.letter) : x.withMemory = x := by
    cases x with
    | a => exact absurd rfl hx
    | _ => rfl
  cases f <;> simp_all [text, withMemory]

theorem mem_computable_iff {f : Formula} :
    f ∈ computable ↔ ∃ c : Computation, f = c.formula ∨ f = c.formula.withMemory := by
  rw [computable, List.mem_append, List.mem_map, List.mem_map]
  constructor
  · rintro (⟨c, -, rfl⟩ | ⟨c, -, rfl⟩)
    · exact ⟨c, .inl rfl⟩
    · exact ⟨c, .inr rfl⟩
  · rintro ⟨c, rfl | rfl⟩
    · exact .inl ⟨c, c.mem_all, rfl⟩
    · by_cases hA : 'A' ∈ c.text
      · exact .inr ⟨c, List.mem_filter.mpr ⟨c.mem_all, List.contains_iff_mem.mpr hA⟩, rfl⟩
      · rw [← c.text_formula] at hA
        exact .inl ⟨c, c.mem_all, (withMemory_eq_self hA).symm⟩

/-- Operands may as well be exchanged before the memory cell takes the place of `A`. -/
theorem isWritten_iff {f : Formula} :
    f.IsWritten ↔ ∃ c : Computation, ∃ g ∈ c.forms, f = g ∨ f = g.withMemory := by
  simp only [IsWritten, mem_computable_iff, Computation.forms, List.mem_cons, Option.mem_toList]
  constructor
  · rintro (⟨c, hf⟩ | ⟨g, ⟨c, rfl | rfl⟩, hexchange⟩)
    · exact ⟨c, c.formula, .inl rfl, hf⟩
    · exact ⟨c, f, .inr hexchange, .inl rfl⟩
    · rw [exchange?_withMemory, Option.map_eq_some_iff] at hexchange
      obtain ⟨g, hg, rfl⟩ := hexchange
      exact ⟨c, g, .inr hg, .inr rfl⟩
  · rintro ⟨c, g, rfl | hg, rfl | rfl⟩
    · exact .inl ⟨c, .inl rfl⟩
    · exact .inl ⟨c, .inr rfl⟩
    · exact .inr ⟨c.formula, ⟨c, .inl rfl⟩, hg⟩
    · refine .inr ⟨c.formula.withMemory, ⟨c, .inr rfl⟩, ?_⟩
      rw [exchange?_withMemory, hg]
      rfl

end Formula

/-- A text that the reader takes for an operation has `A` or `M` at most once. -/
theorem not_mem_of_ofWritten? {t : Text} {c : Computation}
    (h : Computation.ofWritten? (withoutMemory t) = some c) (hM : 'M' ∈ t) : 'A' ∉ t := by
  obtain ⟨f, hf, htext⟩ := Computation.ofWritten?_eq_some_iff.mp h
  have hcount := Computation.count_le_of_mem_forms hf
  rw [htext, count_withoutMemory] at hcount
  have hpos := List.count_pos_iff.mpr hM
  exact List.count_eq_zero.mp (by omega)

/-- What the reader takes for an operation is a formula that may be written, and the operation
computes what the formula means. -/
theorem exists_formula_of_ofWritten? {t : Text} {c : Computation}
    (h : Computation.ofWritten? (withoutMemory t) = some c) :
    ∃ f : Formula, f.IsWritten ∧ t = f.text ∧
      ∀ d a m, c.eval d (if readsMemory t then m else a) = f.eval d a m := by
  obtain ⟨g, hg, htext⟩ := Computation.ofWritten?_eq_some_iff.mp h
  by_cases hM : 'M' ∈ t
  · refine ⟨g.withMemory, Formula.isWritten_iff.mpr ⟨c, g, hg, .inr rfl⟩, ?_, fun d a m => ?_⟩
    · rw [Formula.text_withMemory, htext, withoutMemory_eq_replaced,
        replaced_replaced (not_mem_of_ofWritten? h hM)]
    · rw [if_pos (readsMemory_iff.mpr hM), Formula.eval_withMemory, Computation.eval_of_mem_forms hg]
  · refine ⟨g, Formula.isWritten_iff.mpr ⟨c, g, hg, .inl rfl⟩, ?_, fun d a m => ?_⟩
    · rw [htext, withoutMemory_eq_replaced, replaced_eq_self hM]
    · rw [if_neg (mt readsMemory_iff.mp hM), Computation.eval_of_mem_forms hg]

/-- A formula that may be written is taken for the operation that computes what it means. -/
theorem ofWritten?_of_isWritten {f : Formula} {c : Computation} (hf : f.IsWritten)
    (hmeans : ∀ d a m, c.eval d (if readsMemory f.text then m else a) = f.eval d a m) :
    Computation.ofWritten? (withoutMemory f.text) = some c := by
  obtain ⟨c', g, hg, hfg⟩ := Formula.isWritten_iff.mp hf
  have hM := Computation.not_mem_of_mem_forms hg
  have htext : withoutMemory f.text = g.text := by
    rw [withoutMemory_eq_replaced]
    rcases hfg with rfl | rfl
    · exact replaced_eq_self hM
    · rw [Formula.text_withMemory, replaced_replaced hM]
  -- with the same number in `A` and in the memory cell it does not matter which is read
  have heval (d a : Int) : f.eval d a a = g.eval d a a := by
    rcases hfg with rfl | rfl
    · rfl
    · exact Formula.eval_withMemory d a a g
  have hsame : c = c' := by
    refine Computation.eq_of_eval_eq fun d a => ?_
    have := hmeans d a a
    rwa [ite_self, heval, Computation.eval_of_mem_forms hg] at this
  rw [htext, hsame]
  exact Computation.ofWritten?_of_mem_forms hg

/-! ### The parts of an instruction -/

/-- The operation that a computation means, and whether it is on the memory cell. -/
structure Means (comp : Text) (c : Computation) (memory : Bool) : Prop where
  /-- Without its spaces, the computation is a formula, and the operation computes its value. -/
  formula : ∃ f : Formula, f.IsWritten ∧ comp.filter (· != ' ') = f.text ∧
    ∀ d a m, c.eval d (if memory then m else a) = f.eval d a m
  memory_iff : memory = true ↔ 'M' ∈ comp

theorem mem_squeezed_iff {t : Text} {c : Char} (hc : c ≠ ' ') :
    c ∈ t.filter (· != ' ') ↔ c ∈ t := by
  simp [hc]

theorem readsMemory_squeezed (comp : Text) :
    readsMemory (comp.filter (· != ' ')) = true ↔ 'M' ∈ comp :=
  readsMemory_iff.trans (mem_squeezed_iff (by decide))

section Means

variable {comp : Text} {c : Computation} {memory : Bool}

theorem means_iff :
    Means comp c memory ↔
      Computation.ofWritten? (withoutMemory (comp.filter (· != ' '))) = some c ∧
        memory = readsMemory (comp.filter (· != ' ')) := by
  constructor
  · rintro ⟨⟨f, hf, htext, hmeans⟩, hmemory⟩
    obtain rfl : memory = readsMemory (comp.filter (· != ' ')) :=
      Bool.eq_iff_iff.mpr (hmemory.trans (readsMemory_squeezed comp).symm)
    rw [htext] at hmeans ⊢
    exact ⟨ofWritten?_of_isWritten hf hmeans, rfl⟩
  · rintro ⟨hfound, rfl⟩
    exact ⟨exists_formula_of_ofWritten? hfound, readsMemory_squeezed comp⟩

theorem Means.not_mem (h : Means comp c memory) (hM : 'M' ∈ comp) : 'A' ∉ comp := by
  rw [← mem_squeezed_iff (by decide)] at hM ⊢
  exact not_mem_of_ofWritten? (means_iff.mp h).1 hM

theorem Means.plain (h : Means comp c memory) : '=' ∉ comp ∧ ';' ∉ comp := by
  obtain ⟨f, -, htext, -⟩ := h.formula
  rw [← mem_squeezed_iff (c := '=') (by decide), ← mem_squeezed_iff (c := ';') (by decide), htext]
  exact ⟨f.not_mem_text (.inl rfl), f.not_mem_text (.inr rfl)⟩

end Means

/-- A text is the parts of an instruction. The destination and its equals sign may be missing,
and so may the jump and its semicolon; a part that is missing is nothing. -/
def Written (text dest comp jump : Text) : Prop :=
  ∃ rest, (text = dest ++ '=' :: rest ∨ text = rest ∧ dest = []) ∧
    (rest = comp ++ ';' :: jump ∨ rest = comp ∧ jump = [])

/-- The parts of an instruction that is cut at the last equals sign and the first semicolon
after it. -/
structure Parts (text dest comp jump : Text) : Prop where
  written : Written text dest comp jump
  comp_plain : '=' ∉ comp ∧ ';' ∉ comp
  jump_plain : '=' ∉ jump

section Decode

variable {text dest comp jump : Text}

/-- What may be written leaves no choice where to cut the text. -/
theorem Written.parts {c : Computation} {memory : Bool} {condition : Jump}
    (h : Written text dest comp jump) (hcomp : Means comp c memory)
    (hjump : jump = condition.text) : Parts text dest comp jump := by
  refine ⟨h, hcomp.plain, ?_⟩
  rw [hjump]
  cases condition <;> decide

end Decode

/-! ### Line numbers from a caller -/

section Written

variable {text dest comp jump : Text} {n : Int}

end Written

end HackStack.Hack
