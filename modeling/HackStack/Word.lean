/-!
# Words

The machine computes with words of sixteen bits. Values are integers; `wrap` keeps
the sixteen low bits of one as a natural number, and `signed` reads the low bits of
one in two's complement. `land` and `lor` are the bitwise operations on integers of
any size, where a negative integer has ones without end at its front.
-/

namespace HackStack.Word

/-- The number of bits of a word. -/
def width : Nat := 16

/-- The number of words. -/
def modulus : Nat := Nat.pow 2 width

/-- The low bits of an integer, as a natural number below `modulus`. -/
def wrap (x : Int) : Nat := (x % modulus).toNat

theorem wrap_lt (x : Int) : wrap x < modulus := by
  have := Int.emod_lt_of_pos x (by decide : (0 : Int) < modulus)
  have := Int.emod_nonneg x (by decide : (modulus : Int) ≠ 0)
  simp only [wrap]
  omega

/-- A word is its own low bits. -/
theorem wrap_ofNat {n : Nat} (h : n < modulus) : wrap n = n := by
  have := Int.emod_eq_of_lt (Int.natCast_nonneg n) (Int.ofNat_lt.2 h)
  simp [wrap, this]

/-- The low `bits` bits of an integer, read in two's complement. -/
def signedAt (bits : Nat) (x : Int) : Int := x.bmod (Nat.pow 2 bits)

/-- The low bits of an integer, read as a signed word. -/
def signed (x : Int) : Int := signedAt width x

theorem le_signed (x : Int) : -32768 ≤ signed x := by
  have := Int.le_bmod (x := x) (m := 2 ^ width) (by decide)
  simp only [signed, signedAt]
  simpa [width] using this

theorem signed_lt (x : Int) : signed x < 32768 := by
  have := Int.bmod_lt (x := x) (m := 2 ^ width) (by decide)
  simp only [signed, signedAt]
  simpa [width] using this

/-- The signed reading and the integer have the same low bits. -/
theorem wrap_signed (x : Int) : wrap (signed x) = wrap x :=
  congrArg Int.toNat (Int.bmod_emod (x := x) (m := modulus))

/-- The signed reading depends on the low bits only. -/
theorem signed_wrap (x : Int) : signed (wrap x) = signed x := by
  have := Int.emod_nonneg x (by decide : (modulus : Int) ≠ 0)
  simp only [wrap, signed, signedAt, Int.toNat_of_nonneg this]
  exact Int.emod_bmod x modulus

/-! ### Readings at any width -/

/-- Whether an integer has room below the sign bit of so many bits. -/
def fits (bits : Nat) (x : Int) : Bool := x.natAbs.log2 + 1 < bits

/-- An integer that has room is its own signed reading. -/
theorem signedAt_of_fits {bits : Nat} {x : Int} (h : fits bits x = true) :
    signedAt bits x = x := by
  have hlog : x.natAbs.log2 + 1 < bits := by simpa [fits] using h
  have hx : x.natAbs < 2 ^ (bits - 1) :=
    Nat.lt_of_lt_of_le Nat.lt_log2_self (Nat.pow_le_pow_right (by decide) (by omega))
  have hpow : Nat.pow 2 bits = 2 * 2 ^ (bits - 1) := by
    rw [Nat.pow_eq, Nat.mul_comm, ← Nat.pow_succ, Nat.succ_eq_add_one,
      Nat.sub_add_cancel (by omega)]
  exact Int.bmod_eq_of_le (by omega) (by omega)

/-- Why an integer has no signed reading. -/
inductive Error where
  /-- There is no sign bit. -/
  | noBits
  /-- A power of two is needed that has more digits than an integer can have. -/
  | tooManyDigits
  deriving DecidableEq, Repr

/-- The message when there is no signed reading. -/
def Error.message : Error → String
  | .noBits => "negative shift count"
  | .tooManyDigits => "too many digits in integer"

/-- The number of bits of a digit of a large integer. -/
def digitWidth : Nat := 30

/-- The most digits that an integer can have: at four bytes each, and behind a head of
twenty-four, they fill half of the addresses of sixty-four bits. -/
def maxDigits : Nat := (Nat.pow 2 63 - 1 - 24) / 4

/-- The largest exponent of a power of two: a shift by less than whole digits needs room for
one digit more. -/
def largestExponent : Nat := digitWidth * (maxDigits - 1)

/-- The signed reading at a width that has to leave room for a sign and to be the exponent of
a power of two. -/
def signedAt? (bits x : Int) : Except Error Int :=
  if bits < 1 then .error .noBits
  else if largestExponent < bits then .error .tooManyDigits
  else if fits bits.toNat x then .ok x
  else .ok (signedAt bits.toNat x)

/-- At every width up to the largest there is a signed reading. -/
theorem signedAt?_ofNat {bits : Nat} (x : Int) (hpos : 1 ≤ bits) (hmax : bits ≤ largestExponent) :
    signedAt? bits x = .ok (signedAt bits x) := by
  simp only [signedAt?, Int.toNat_natCast]
  rw [if_neg (by omega), if_neg (by omega)]
  split
  · rename_i hfits
    rw [signedAt_of_fits hfits]
  · rfl

/-- The bits that two integers have in common. -/
def land : Int → Int → Int
  | .ofNat m, .ofNat n => .ofNat (m &&& n)
  | .ofNat m, .negSucc n => .ofNat (m - (m &&& n))
  | .negSucc m, .ofNat n => .ofNat (n - (n &&& m))
  | .negSucc m, .negSucc n => .negSucc (m ||| n)

/-- The bits that either of two integers has. -/
def lor (x y : Int) : Int := ~~~(land (~~~x) (~~~y))

end HackStack.Word
