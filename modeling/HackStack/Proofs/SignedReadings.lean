import HackStack.Proofs.Processor
import Mathlib.Data.Int.ModEq

/-!
# Signed readings

The low bits of an integer, read in two's complement, are the one number that has room in
so many bits and has the same low bits (`reads_iff`). A mask and a look at the sign bit
find it (`signedAt_eq_masked`). That holds at every width. A reading is computed with a
power of two, though, and a width whose power has more digits than an integer can have has
none that is computed (`signedAt?_eq_ok_iff`).

A narrow reading may be taken from a wide one (`signedAt_signedAt_of_le`), and a wide
reading of a narrow one changes nothing (`signedAt_signedAt_of_ge`). The arithmetic unit
may work on the readings of its operands or on the operands themselves: the low bits of
its result are the same (`Computation.eval_signed`).
-/

namespace HackStack.Word

/-! ### The number that the low bits stand for -/

/-- In two's complement of so many bits, the low bits of `x` stand for `v`: it has room in them,
one of them being for the sign, and its low bits are those of `x`. -/
structure Reads (bits : Nat) (x v : Int) : Prop where
  le : -2 ^ (bits - 1) ≤ v
  lt : v < 2 ^ (bits - 1)
  modEq : v ≡ x [ZMOD 2 ^ bits]

section Reading

variable {bits : Nat} (h : 1 ≤ bits)

include h

/-- With a bit for the sign there are as many negative numbers as others. -/
theorem pow_eq_double : ((Nat.pow 2 bits : Nat) : Int) = 2 * 2 ^ (bits - 1) := by
  obtain ⟨n, rfl⟩ := Nat.exists_eq_add_of_le' h
  rw [Nat.pow_eq, Nat.cast_pow, Nat.cast_two, Nat.add_sub_cancel, pow_succ']

/-- **The signed reading** is the only number that the low bits stand for. -/
theorem reads_iff (x v : Int) : Reads bits x v ↔ v = signedAt bits x := by
  have hpos : 0 < Nat.pow 2 bits := Nat.two_pow_pos bits
  have hpow := pow_eq_double h
  rw [eq_comm, signedAt, Int.bmod_eq_iff hpos, hpow]
  constructor
  · rintro ⟨hle, hlt, hmod⟩
    refine ⟨by omega, by omega, ?_⟩
    rw [← hpow]
    simpa using hmod.symm.dvd
  · rintro ⟨hle, hlt, hdvd⟩
    refine ⟨by omega, by omega, ?_⟩
    rw [← hpow] at hdvd
    exact (Int.modEq_iff_dvd.mpr (by simpa using hdvd)).symm

theorem reads_signedAt (x : Int) : Reads bits x (signedAt bits x) := (reads_iff h x _).mpr rfl

/-- Integers with the same reading have the same low bits. -/
theorem modEq_of_signedAt_eq {x y : Int} (heq : signedAt bits x = signedAt bits y) :
    x ≡ y [ZMOD 2 ^ bits] := by
  have hx := (reads_signedAt h x).modEq
  rw [heq] at hx
  exact hx.symm.trans (reads_signedAt h y).modEq

end Reading

/-! ### Masks -/

/-- A mask leaves the remainder. -/
theorem land_mask (bits : Nat) (x : Int) : land x (2 ^ bits - 1) = x % 2 ^ bits := by
  have hmask : (2 ^ bits - 1 : Int) = (2 ^ bits - 1 : Nat) := by
    rw [Nat.cast_sub Nat.one_le_two_pow, Nat.cast_pow, Nat.cast_two, Nat.cast_one]
  rw [hmask]
  cases x with
  | ofNat m =>
    have hand : m &&& (2 ^ bits - 1) = m % 2 ^ bits := Nat.and_two_pow_sub_one_eq_mod m bits
    change ((m &&& (2 ^ bits - 1) : Nat) : Int) = (m : Int) % 2 ^ bits
    rw [hand, Int.natCast_emod, Nat.cast_pow, Nat.cast_two]
  | negSucc m =>
    have hand : (2 ^ bits - 1) &&& m = m % 2 ^ bits := by
      rw [Nat.and_comm, Nat.and_two_pow_sub_one_eq_mod]
    have hlt : m % 2 ^ bits < 2 ^ bits := Nat.mod_lt m (Nat.two_pow_pos bits)
    change ((2 ^ bits - 1 - ((2 ^ bits - 1) &&& m) : Nat) : Int) = Int.negSucc m % 2 ^ bits
    rw [Int.negSucc_emod m (Int.pow_pos (by decide)), hand, Nat.cast_sub (by omega), ← hmask,
      Int.natCast_emod, Nat.cast_pow, Nat.cast_two]

/-- The number that a mask leaves, less a power of two if the sign bit is set. -/
def masked (bits : Nat) (x : Int) : Int :=
  let low := land x (2 ^ bits - 1)
  if 2 ^ (bits - 1) ≤ low then low - 2 ^ bits else low

/-- **The signed reading is found** by a mask and the sign bit. -/
theorem signedAt_eq_masked {bits : Nat} (h : 1 ≤ bits) (x : Int) :
    signedAt bits x = masked bits x := by
  have hdouble := pow_eq_double h
  have hpow : ((Nat.pow 2 bits : Nat) : Int) = 2 ^ bits := by
    rw [Nat.pow_eq, Nat.cast_pow, Nat.cast_two]
  have hhalf : (((Nat.pow 2 bits : Nat) : Int) + 1) / 2 = 2 ^ (bits - 1) := by omega
  rw [signedAt, Int.bmod_def, hhalf, hpow, masked, land_mask]
  by_cases hsign : x % 2 ^ bits < 2 ^ (bits - 1)
  · rw [if_pos hsign, if_neg (Int.not_le.mpr hsign)]
  · rw [if_neg hsign, if_pos (Int.not_lt.mp hsign)]

/-! ### Readings of readings -/

section Widths

variable {n m : Nat}

/-- A narrow reading may be taken from a wide one. -/
theorem signedAt_signedAt_of_le (h : n ≤ m) (x : Int) :
    signedAt n (signedAt m x) = signedAt n x :=
  Int.bmod_bmod_of_dvd (Nat.pow_dvd_pow 2 h)

/-- A narrow reading has room in more bits. -/
theorem signedAt_signedAt_of_ge (hm : 1 ≤ m) (h : m ≤ n) (x : Int) :
    signedAt n (signedAt m x) = signedAt m x := by
  obtain ⟨hle, hlt, -⟩ := reads_signedAt hm x
  have hpow : (2 : Int) ^ (m - 1) ≤ 2 ^ (n - 1) := by
    exact_mod_cast Nat.pow_le_pow_right (by decide) (Nat.sub_le_sub_right h 1)
  have hreads : Reads n (signedAt m x) (signedAt m x) := ⟨by omega, by omega, rfl⟩
  exact ((reads_iff (hm.trans h) _ _).mp hreads).symm

end Widths

/-! ### Readings that can be computed -/

/-- A width that can be computed with: there is a sign bit, and the power of two is an integer. -/
def IsWidth (bits : Int) : Prop := 1 ≤ bits ∧ bits ≤ largestExponent

theorem signedAt?_of_isWidth {bits : Int} (h : IsWidth bits) (x : Int) :
    signedAt? bits x = .ok (signedAt bits.toNat x) := by
  obtain ⟨hpos, hmax⟩ := h
  have hbits : (bits.toNat : Int) = bits := Int.toNat_of_nonneg (by omega)
  have hread : signedAt? (bits.toNat : Int) x = .ok (signedAt bits.toNat x) :=
    signedAt?_ofNat x (by omega) (by omega)
  rwa [hbits] at hread

/-- At all other widths there is no answer. -/
theorem exists_error_of_not_isWidth {bits : Int} (h : ¬ IsWidth bits) (x : Int) :
    ∃ e, signedAt? bits x = .error e := by
  unfold signedAt?
  by_cases hpos : bits < 1
  · exact ⟨_, if_pos hpos⟩
  · have hmax : largestExponent < bits := by
      unfold IsWidth at h
      omega
    exact ⟨_, (if_neg hpos).trans (if_pos hmax)⟩

/-- **A reading is computed** at these widths, and it is the number that the low bits stand for. -/
theorem signedAt?_eq_ok_iff {bits x v : Int} :
    signedAt? bits x = .ok v ↔ IsWidth bits ∧ Reads bits.toNat x v := by
  by_cases h : IsWidth bits
  · have hpos : 1 ≤ bits.toNat := by
      have := h.1
      omega
    rw [signedAt?_of_isWidth h, reads_iff hpos, and_iff_right h, Except.ok.injEq, eq_comm]
  · obtain ⟨e, he⟩ := exists_error_of_not_isWidth h x
    rw [he]
    exact ⟨nofun, fun hv => absurd hv.1 h⟩

/-- At the width of a word the reading is always there. -/
theorem signedAt?_width (x : Int) : signedAt? width x = .ok (signed x) :=
  signedAt?_of_isWidth ⟨by decide, by decide⟩ x

end HackStack.Word

namespace HackStack.Hack

open Word

/-- **The arithmetic unit** gives the same low bits for integers as for their signed readings. -/
theorem Computation.eval_signed (c : Computation) (d y : Int) :
    c.eval (signed d) (signed y) ≡ c.eval d y [ZMOD 2 ^ width] := by
  have hwords : BitVec.ofInt 16 (c.eval (signed d) (signed y)) = BitVec.ofInt 16 (c.eval d y) := by
    rw [c.ofInt_eval, c.ofInt_eval, ofInt_signed, ofInt_signed]
  have hsigned : signed (c.eval (signed d) (signed y)) = signed (c.eval d y) := by
    rw [← toInt_ofInt_eq_signed, hwords, toInt_ofInt_eq_signed]
  exact modEq_of_signedAt_eq (by decide) hsigned

/-- **Signed readings are canonical.** At every width with a sign bit the reading is the one number
that the low bits stand for, and a mask finds it. It is computed at exactly the widths up to the
largest exponent of a power of two. There a narrow reading of a wide one is the narrow reading of
the integer, and a wide reading of a narrow one is the narrow one. And each operation of the
arithmetic unit gives the same low bits for the readings of its operands as for the operands. -/
theorem signed_reading_canonical (x : Int) :
    (∀ bits : Nat, 1 ≤ bits → signedAt bits x = masked bits x ∧
      ∀ v, Reads bits x v ↔ v = signedAt bits x) ∧
    (∀ bits v : Int, signedAt? bits x = .ok v ↔
      (1 ≤ bits ∧ bits ≤ largestExponent) ∧ Reads bits.toNat x v) ∧
    (∀ n m : Int, 1 ≤ n → n ≤ m → m ≤ largestExponent →
      (signedAt? m x).bind (signedAt? n) = signedAt? n x) ∧
    (∀ n m : Int, 1 ≤ m → m ≤ n → n ≤ largestExponent →
      (signedAt? m x).bind (signedAt? n) = signedAt? m x) ∧
    ∀ (c : Computation) (y : Int), ∃ d' y', signedAt? width x = .ok d' ∧
      signedAt? width y = .ok y' ∧ c.eval d' y' ≡ c.eval x y [ZMOD 2 ^ 16] := by
  refine ⟨fun bits h => ⟨signedAt_eq_masked h x, reads_iff h x⟩, fun bits v => signedAt?_eq_ok_iff,
    fun n m hn hle hm => ?_, fun n m hm hle hn => ?_, fun c y => ?_⟩
  · have hwide : IsWidth m := ⟨hn.trans hle, hm⟩
    have hnarrow : IsWidth n := ⟨hn, hle.trans hm⟩
    rw [signedAt?_of_isWidth hwide, Except.bind, signedAt?_of_isWidth hnarrow,
      signedAt?_of_isWidth hnarrow, signedAt_signedAt_of_le (Int.toNat_le_toNat hle)]
  · have hnarrow : IsWidth m := ⟨hm, hle.trans hn⟩
    have hwide : IsWidth n := ⟨hm.trans hle, hn⟩
    rw [signedAt?_of_isWidth hnarrow, Except.bind, signedAt?_of_isWidth hwide,
      signedAt_signedAt_of_ge (by omega) (Int.toNat_le_toNat hle)]
  · exact ⟨signed x, signed y, signedAt?_width x, signedAt?_width y, c.eval_signed x y⟩

/-- The reading of 32896 has the sign bit set at both widths, sixteen and eight. -/
theorem signed_reading_of_two_sign_bits :
    (1 ≤ (8 : Int) ∧ (8 : Int) ≤ 16 ∧ (16 : Int) ≤ largestExponent) ∧
    signedAt? 16 32896 = .ok (-32640) ∧ Reads 16 32896 (-32640) ∧ masked 16 32896 = -32640 ∧
    (signedAt? 16 32896).bind (signedAt? 8) = .ok (-128) ∧
    (signedAt? 8 32896).bind (signedAt? 16) = .ok (-128) := by
  obtain ⟨hevery, hread, hnarrow, hwiden, -⟩ := signed_reading_canonical 32896
  obtain ⟨hmasked, hreads⟩ := hevery 16 (by decide)
  have hword : signedAt? 16 32896 = .ok (-32640) := by decide
  have hbyte : signedAt? 8 32896 = .ok (-128) := by decide
  have hstands : Reads 16 32896 (-32640) := ((hread 16 _).mp hword).2
  refine ⟨by decide, hword, hstands, ?_, ?_, ?_⟩
  · rw [← hmasked, ← (hreads _).mp hstands]
  · rw [hnarrow 8 16 (by decide) (by decide) (by decide), hbyte]
  · rw [hwiden 16 8 (by decide) (by decide) (by decide), hbyte]

/-- At a width whose power of two is no integer that there can be, the low bits still stand for a
number, but it is not computed. -/
theorem signed_reading_too_wide :
    1 ≤ (1180591620717411303424 : Int) ∧ Reads 1180591620717411303424 5 5 ∧
    signedAt? 1180591620717411303424 5 = .error .tooManyDigits := by
  have hreading : signedAt 1180591620717411303424 5 = 5 := signedAt_of_fits (by decide)
  exact ⟨by decide, (reads_iff (by decide) 5 5).mpr hreading.symm, by decide⟩

end HackStack.Hack
