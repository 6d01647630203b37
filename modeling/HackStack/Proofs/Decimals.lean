import HackStack.Numeral

/-!
# Decimal digits

A natural number is written in plain digits, without a zero too many at the front, and a
negative one with a sign before them. So a reader that takes digits of any script and
marks of other bases gives the integer back (`read_decimal_int`), unless there are more
digits than an integer may be read from. So does a reader of plain digits
(`natural_decimal`), and what it has read is not longer when it is written again
(`length_decimal_of_natural`). An integer can be written if it is small enough
(`isWritable_of_natAbs_le`).
-/

namespace HackStack.Numeral

theorem decimal_natCast (n : Nat) : decimal (n : Int) = Nat.toDigits 10 n := rfl

/-- Different numbers are written differently. -/
theorem decimal_natCast_inj {m n : Nat} (h : decimal (m : Int) = decimal (n : Int)) : m = n := by
  rw [decimal_natCast, decimal_natCast] at h
  rw [← Nat.ofDigitChars_ten_toDigits (n := m), h, Nat.ofDigitChars_ten_toDigits]

/-- A natural number is written in plain digits. -/
theorem isDigit_of_mem_decimal {n : Nat} {c : Char} (h : c ∈ decimal (n : Int)) :
    c.isDigit = true :=
  Nat.isDigit_of_mem_toDigits (by decide) (by decide) h

/-- An integer is written with digits and a sign. -/
theorem isDigit_or_eq_of_mem_decimal {z : Int} {c : Char} (h : c ∈ decimal z) :
    c.isDigit = true ∨ c = '-' := by
  cases z with
  | ofNat n => exact .inl (isDigit_of_mem_decimal (n := n) h)
  | negSucc n =>
    rcases List.mem_cons.mp h with rfl | hdigit
    · exact .inr rfl
    · exact .inl (isDigit_of_mem_decimal (n := n + 1) hdigit)

theorem not_mem_decimal {c : Char} (hdigit : c.isDigit = false) (hsign : c ≠ '-') (z : Int) :
    c ∉ decimal z := by
  intro h
  rcases isDigit_or_eq_of_mem_decimal h with hc | hc
  · rw [hdigit] at hc
    cases hc
  · exact hsign hc

/-- A word is written in few enough digits to be read. -/
theorem length_decimal_of_lt {n : Nat} (h : n < 65536) :
    (decimal (n : Int)).length ≤ digitLimit := by
  have hshort : (Nat.toDigits 10 n).length ≤ 5 :=
    (Nat.length_toDigits_le_iff (by decide) (by decide)).mpr (Nat.lt_trans h (by decide))
  exact Nat.le_trans hshort (by decide)

theorem decimal_ne_nil (n : Nat) : decimal (n : Int) ≠ [] := Nat.toDigits_ne_nil

/-- A smaller number is not longer. -/
theorem length_decimal_mono {m n : Nat} (h : m ≤ n) :
    (decimal (m : Int)).length ≤ (decimal (n : Int)).length := by
  have hpos : 0 < (decimal (n : Int)).length := List.length_pos_iff.mpr (decimal_ne_nil n)
  have hn := (Nat.length_toDigits_le_iff (by decide) hpos).mp (Nat.le_refl _)
  exact (Nat.length_toDigits_le_iff (by decide) hpos).mpr (Nat.lt_of_le_of_lt h hn)

/-- What is no larger than an integer that can be written can be written. -/
theorem isWritable_of_natAbs_le {y z : Int} (h : y.natAbs ≤ z.natAbs) (hz : isWritable z = true) :
    isWritable y = true :=
  decide_eq_true (Nat.le_trans (length_decimal_mono h) (of_decide_eq_true hz))

section Plain

variable {c : Char}

theorem toNat_of_isDigit (h : c.isDigit = true) : 48 ≤ c.toNat ∧ c.toNat ≤ 57 :=
  Char.isDigit_iff_toNat.mp h

/-- A plain digit is a digit. -/
theorem isDigit_of_plain (h : c.isDigit = true) : Text.isDigit c = true := by
  obtain ⟨hlow, hhigh⟩ := toNat_of_isDigit h
  have hvalue : Text.decimalValue? c = some (c.toNat - 48) := by
    rw [Text.decimalValue?, Text.decimalZeros, List.find?_cons_of_pos]
    · rfl
    · simp only [Bool.and_eq_true, decide_eq_true_eq]
      omega
  simp [Text.isDigit, hvalue]

theorem plain_of_isDigit (h : c.isDigit = true) : plain c = c := by
  have := toNat_of_isDigit h
  rw [plain, if_pos (by omega)]

theorem isPad_of_isDigit (h : c.isDigit = true) : isPad c = false := by
  have := toNat_of_isDigit h
  have hspace : c ≠ ' ' := by
    rintro rfl
    simp at this
  simp only [isPad, beq_eq_false_iff_ne.mpr hspace, Bool.false_or, Bool.and_eq_false_iff,
    decide_eq_false_iff_not]
  omega

theorem digitValue_of_isDigit (h : c.isDigit = true) :
    (digitValue c).filter (· < 10) = some (c.toNat - 48) := by
  have := toNat_of_isDigit h
  rw [digitValue, if_pos h]
  simp only [Char.reduceToNat, Option.filter_some, decide_eq_true_eq]
  rw [if_pos (by omega)]

theorem underscore_ne_of_isDigit (h : c.isDigit = true) : (c == '_') = false := by
  have := toNat_of_isDigit h
  rw [beq_eq_false_iff_ne]
  rintro rfl
  simp at this

end Plain

/-- A written number is taken for a numeral. -/
theorem isDigits_decimal (n : Nat) : Text.isDigits (decimal (n : Int)) = true := by
  have hne := decimal_ne_nil n
  have hall : (decimal (n : Int)).all Text.isDigit = true :=
    List.all_eq_true.mpr fun c hc => isDigit_of_plain (isDigit_of_mem_decimal hc)
  simp [Text.isDigits, hne, hall]

theorem digitRun_cons {c : Char} (h : c.isDigit = true) (value count : Nat) (needsDigit : Bool)
    (rest : Text) :
    digitRun 10 value count needsDigit (c :: rest) =
      digitRun 10 (10 * value + (c.toNat - '0'.toNat)) (count + 1) false rest := by
  rw [Nat.mul_comm]
  simp [digitRun, underscore_ne_of_isDigit h, digitValue_of_isDigit h]

/-- Plain digits are read to their end. -/
theorem digitRun_of_isDigit (value count : Nat) {t : Text} (h : ∀ c ∈ t, c.isDigit = true) :
    digitRun 10 value count false t = some ⟨Nat.ofDigitChars 10 t value, count + t.length, []⟩ := by
  induction t generalizing value count with
  | nil => rfl
  | cons c rest ih =>
    rw [digitRun_cons (h c (List.mem_cons_self ..)),
      ih _ _ fun d hd => h d (List.mem_cons_of_mem c hd), Nat.ofDigitChars_cons, List.length_cons,
      Nat.add_right_comm, Nat.add_assoc]

/-- Plain digits have no sign in front. -/
theorem signed_of_isDigit {c : Char} (h : c.isDigit = true) (rest : Text) :
    signed (c :: rest) = (1, c :: rest) := by
  have := toNat_of_isDigit h
  unfold signed
  split
  · simp_all
  · simp_all
  · rfl

/-- A written number is one run of digits. -/
theorem digitRun_decimal (n : Nat) :
    digitRun 10 0 0 true (decimal (n : Int)) = some ⟨n, (decimal (n : Int)).length, []⟩ := by
  have hdigits : ∀ c ∈ decimal (n : Int), c.isDigit = true := fun c hc => isDigit_of_mem_decimal hc
  have hvalue : Nat.ofDigitChars 10 (decimal (n : Int)) 0 = n := Nat.ofDigitChars_ten_toDigits
  obtain ⟨c, rest, hcons⟩ := List.exists_cons_of_ne_nil (decimal_ne_nil n)
  rw [hcons] at hdigits hvalue ⊢
  rw [digitRun_cons (hdigits c (List.mem_cons_self ..)),
    digitRun_of_isDigit _ _ fun d hd => hdigits d (List.mem_cons_of_mem c hd),
    ← Nat.ofDigitChars_cons, hvalue, List.length_cons, Nat.zero_add, Nat.add_comm]

theorem ofDigitChars_lt {t : Text} (h : ∀ c ∈ t, c.isDigit = true) (value : Nat) :
    Nat.ofDigitChars 10 t value < (value + 1) * Nat.pow 10 t.length := by
  induction t generalizing value with
  | nil => simp
  | cons c rest ih =>
    have hdigit := toNat_of_isDigit (h c (List.mem_cons_self ..))
    have hrest := ih (fun d hd => h d (List.mem_cons_of_mem c hd))
      (10 * value + (c.toNat - '0'.toNat))
    have hvalue : 10 * value + (c.toNat - '0'.toNat) + 1 ≤ (value + 1) * 10 := by
      simp only [Char.reduceToNat]
      omega
    have hpow : Nat.pow 10 (rest.length + 1) = 10 * Nat.pow 10 rest.length := Nat.mul_comm _ _
    rw [Nat.ofDigitChars_cons, List.length_cons, hpow, ← Nat.mul_assoc]
    exact Nat.lt_of_lt_of_le hrest (Nat.mul_le_mul_right _ hvalue)

/-- Digits stand for less than the power of ten that has one digit more. -/
theorem ofDigitChars_lt_pow {t : Text} (h : ∀ c ∈ t, c.isDigit = true) :
    Nat.ofDigitChars 10 t 0 < Nat.pow 10 t.length := by
  have hlt := ofDigitChars_lt h 0
  rwa [Nat.zero_add, Nat.one_mul] at hlt

/-- A written number has a zero at its front only if that is all of it. -/
theorem eq_nil_of_decimal_eq_cons {n : Nat} {rest : Text} (h : decimal (n : Int) = '0' :: rest) :
    rest = [] := by
  have hdigits : ∀ c ∈ rest, c.isDigit = true := fun c hc =>
    isDigit_of_mem_decimal (n := n) (by rw [h]; exact List.mem_cons_of_mem _ hc)
  have hvalue : Nat.ofDigitChars 10 rest 0 = n := by
    rw [← Nat.ofDigitChars_ten_toDigits (n := n), ← decimal_natCast, h, Nat.ofDigitChars_cons]
    rfl
  refine Classical.byContradiction fun hne => ?_
  -- without the zero the digits would be enough, and a number is written without a digit too many
  have hlength : (decimal (n : Int)).length ≤ rest.length := by
    rw [decimal_natCast, Nat.length_toDigits_le_iff (by decide) (List.length_pos_iff.mpr hne),
      ← hvalue]
    exact ofDigitChars_lt_pow hdigits
  rw [h, List.length_cons] at hlength
  omega

/-- A written number has no mark of another base, in either style. -/
theorem body_decimal (style : Style) (n : Nat) :
    ∃ onlyZero, body style (decimal (n : Int)) = ⟨10, decimal (n : Int), onlyZero⟩ ∧
      (onlyZero = true → n = 0) := by
  cases style with
  | decimal => exact ⟨false, rfl, nofun⟩
  | marked =>
    have hvalue : Nat.ofDigitChars 10 (decimal (n : Int)) 0 = n := Nat.ofDigitChars_ten_toDigits
    obtain ⟨c, rest, hcons⟩ := List.exists_cons_of_ne_nil (decimal_ne_nil n)
    by_cases hc : c = '0'
    · subst hc
      obtain rfl := eq_nil_of_decimal_eq_cons hcons
      rw [hcons] at hvalue ⊢
      exact ⟨true, rfl, fun _ => hvalue.symm⟩
    · rw [hcons]
      refine ⟨false, ?_, nofun⟩
      unfold body
      split
      · simp_all
      · simp_all
      · simp_all

/-- **What stands for a number after its sign** is read as that number, unless it is too long. -/
theorem read_of_signed (style : Style) {t : Text} {sign : Int} {n : Nat}
    (h : signed ((t.map plain).dropWhile isPad) = (sign, decimal (n : Int))) :
    read style t =
      if digitLimit < (decimal (n : Int)).length then
        .error (.tooLong (decimal (n : Int)).length)
      else .ok (sign * n) := by
  obtain ⟨onlyZero, hbody, hzero⟩ := body_decimal style n
  have hcheck : (onlyZero && n != 0) = false := by
    cases onlyZero with
    | false => rfl
    | true => simp [hzero rfl]
  simp only [read, h, hbody, digitRun_decimal, hcheck]
  simp

theorem map_plain_decimal (n : Nat) : (decimal (n : Int)).map plain = decimal (n : Int) :=
  (List.map_congr_left fun _ hc => plain_of_isDigit (isDigit_of_mem_decimal hc)).trans
    (List.map_id _)

/-- The sign of a written integer is taken off. -/
theorem signed_decimal (z : Int) :
    signed (((decimal z).map plain).dropWhile isPad) =
      (if z < 0 then -1 else 1, decimal (z.natAbs : Int)) := by
  cases z with
  | ofNat n =>
    obtain ⟨c, rest, hcons⟩ := List.exists_cons_of_ne_nil (decimal_ne_nil n)
    have hc : c.isDigit = true := isDigit_of_mem_decimal (n := n) (by simp [hcons])
    change signed (((decimal (n : Int)).map plain).dropWhile isPad) = (1, decimal (n : Int))
    rw [map_plain_decimal, hcons, List.dropWhile_cons_of_neg (by simp [isPad_of_isDigit hc]),
      signed_of_isDigit hc]
  | negSucc n =>
    have hplain : (decimal (.negSucc n)).map plain = '-' :: decimal ((n + 1 : Nat) : Int) := by
      rw [← map_plain_decimal]
      rfl
    rw [hplain, List.dropWhile_cons_of_neg (by decide), if_pos (Int.negSucc_lt_zero n)]
    rfl

/-- **A written integer is read back**, in either style, unless it has too many digits. -/
theorem read_decimal_int (style : Style) (z : Int) :
    read style (decimal z) =
      if digitLimit < (decimal (z.natAbs : Int)).length then
        .error (.tooLong (decimal (z.natAbs : Int)).length)
      else .ok z := by
  have hvalue : (if z < 0 then -1 else 1) * (z.natAbs : Int) = z := by
    split <;> omega
  rw [read_of_signed style (signed_decimal z), hvalue]

/-- **A written number is read back.** -/
theorem read_decimal (n : Nat) :
    read .decimal (decimal (n : Int)) =
      if digitLimit < (decimal (n : Int)).length then
        .error (.tooLong (decimal (n : Int)).length)
      else .ok n :=
  read_decimal_int .decimal n

/-! ### Plain digits -/

theorem ofDigits_eq_ofDigitChars (t : Text) : ofDigits t = Nat.ofDigitChars 10 t 0 := by
  simp only [ofDigits, Nat.ofDigitChars_eq_foldl, Nat.mul_comm]

/-- **A written number is read back** as plain digits. -/
theorem natural_decimal {n : Nat} (h : (decimal (n : Int)).length ≤ digitLimit) :
    natural (decimal (n : Int)) = .ok n := by
  rw [natural, if_neg (Nat.not_lt.mpr h), ofDigits_eq_ofDigitChars, decimal_natCast,
    Nat.ofDigitChars_ten_toDigits]

/-- A number that was read from plain digits is written in no more than a reader takes. -/
theorem length_decimal_of_natural {t : Text} {n : Nat} (hdigits : ∀ c ∈ t, c.isDigit = true)
    (h : natural t = .ok n) : (decimal (n : Int)).length ≤ digitLimit := by
  unfold natural at h
  split at h
  · cases h
  · rename_i hlength
    cases h
    have hlt : Nat.ofDigitChars 10 t 0 < 10 ^ t.length := ofDigitChars_lt_pow hdigits
    rw [decimal_natCast, ofDigits_eq_ofDigitChars,
      Nat.length_toDigits_le_iff (by decide) (by decide)]
    exact Nat.lt_of_lt_of_le hlt
      (Nat.pow_le_pow_right (by decide) (Nat.le_of_not_lt hlength))

end HackStack.Numeral
