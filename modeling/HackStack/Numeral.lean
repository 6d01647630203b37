import HackStack.Text.Blank
import HackStack.Text.Digit
import HackStack.Text.Quoted

/-!
# Numerals

How integers are written and read.

* `decimal` writes an integer with the digits `0` to `9`.
* `natural` reads plain digits.
* `read` reads an integer as people type it: space around it, a sign, the decimal
  digits of any script, single underscores between digits. In the marked style a
  zero and a letter give the base (`0x`, `0o`, `0b`, in either case, where an
  underscore may follow the letter), and a decimal may start with a zero only if it
  is zero.

A decimal of more than `digitLimit` digits is refused before its rest is looked at;
the other bases have no limit. Nor is an integer with more digits than that written
(`isWritable`). Where it counts what there is, lines or labels, it is never so long;
where a caller gives it, it may be.
-/

namespace HackStack.Numeral

/-- An integer in decimal digits. -/
def decimal : Int → Text
  | .ofNat n => Nat.toDigits 10 n
  | .negSucc n => '-' :: Nat.toDigits 10 (n + 1)

/-- The two ways to write an integer: in decimal only, or in a base that the numeral
marks. -/
inductive Style where
  | decimal
  | marked
  deriving DecidableEq, Repr

/-- The number that messages give for the base of a style: zero stands for "as
marked". -/
def Style.base : Style → Nat
  | .decimal => 10
  | .marked => 0

/-- Why a text is not read as an integer, or an integer is not written. -/
inductive Error where
  /-- The text is not a numeral of this style. -/
  | invalid (style : Style) (text : Text)
  /-- The text starts with a decimal of this many digits. -/
  | tooLong (digits : Nat)
  /-- The integer has too many digits to be written. -/
  | unwritable
  deriving DecidableEq, Repr

/-- The most digits that a decimal may have. -/
def digitLimit : Nat := 4300

/-- Whether an integer has few enough digits to be written. The sign does not count. -/
def isWritable (z : Int) : Bool := (decimal z.natAbs).length ≤ digitLimit

/-- How much of the quoted text the message of an invalid numeral shows. -/
def shownLength : Nat := 200

/-- The message of a numeral that is not read, or of an integer that is not written. -/
def Error.message : Error → String
  | .invalid style text =>
    "invalid literal for int() with base " ++ toString style.base ++ ": "
      ++ String.ofList ((Text.quoted text).take shownLength)
  | .tooLong digits =>
    "Exceeds the limit (" ++ toString digitLimit ++ " digits) for integer string conversion: "
      ++ "value has " ++ toString digits
      ++ " digits; use sys.set_int_max_str_digits() to increase the limit"
  | .unwritable =>
    "Exceeds the limit (" ++ toString digitLimit ++ " digits) for integer string conversion; "
      ++ "use sys.set_int_max_str_digits() to increase the limit"

/-- The value of plain decimal digits. -/
def ofDigits (t : Text) : Nat := t.foldl (fun v c => v * 10 + (c.toNat - '0'.toNat)) 0

/-- Read plain decimal digits. -/
def natural (t : Text) : Except Error Nat :=
  if digitLimit < t.length then .error (.tooLong t.length) else .ok (ofDigits t)

/-- The plain character that a character counts as in a numeral: a decimal digit of any
script is a digit, and a blank beyond ASCII is a space. -/
def plain (c : Char) : Char :=
  if c.toNat < 0x80 then c
  else if Text.isBlank c then ' '
  else match Text.decimalValue? c with
    | some d => Char.ofNat ('0'.toNat + d)
    | none => '?'

/-- Whether a plain character may stand around a numeral. -/
def isPad (c : Char) : Bool := c == ' ' || (0x09 ≤ c.toNat && c.toNat ≤ 0x0d)

/-- The value of a plain character as a digit of some base. -/
def digitValue (c : Char) : Option Nat :=
  if c.isDigit then some (c.toNat - '0'.toNat)
  else if c.isLower then some (c.toNat - 'a'.toNat + 10)
  else if c.isUpper then some (c.toNat - 'A'.toNat + 10)
  else none

/-- The digits at the start of a text. -/
structure Run where
  /-- Their value in the base. -/
  value : Nat
  /-- Their number, underscores left out. -/
  count : Nat
  /-- The text after them. -/
  rest : Text
  deriving DecidableEq, Repr

/-- Read the digits of a base at the start of a text, after digits of the given value and
number. An underscore must have a digit on both sides: `needsDigit` says that one has to
come next. At the start one has to, so that there is no run without a digit. -/
def digitRun (base : Nat) (value count : Nat) (needsDigit : Bool) : Text → Option Run
  | [] => if needsDigit then none else some ⟨value, count, []⟩
  | c :: rest =>
    if c == '_' then
      if needsDigit then none else digitRun base value count true rest
    else match (digitValue c).filter (· < base) with
      | some d => digitRun base (value * base + d) (count + 1) false rest
      | none => if needsDigit then none else some ⟨value, count, c :: rest⟩

/-- A numeral after its sign: its base, its digits with what follows, and whether only
zero may be written so. -/
structure Body where
  base : Nat
  text : Text
  onlyZero : Bool
  deriving DecidableEq, Repr

/-- The base that a letter after a zero marks. -/
def markedBase? (c : Char) : Option Nat :=
  if c == 'x' || c == 'X' then some 16
  else if c == 'o' || c == 'O' then some 8
  else if c == 'b' || c == 'B' then some 2
  else none

/-- A text without the underscore that it may start with. -/
def dropUnderscore : Text → Text
  | '_' :: rest => rest
  | t => t

/-- Take the mark of the base off a numeral. -/
def body : Style → Text → Body
  | .decimal, t => ⟨10, t, false⟩
  | .marked, '0' :: c :: rest =>
    match markedBase? c with
    | some base => ⟨base, dropUnderscore rest, false⟩
    | none => ⟨10, '0' :: c :: rest, true⟩
  | .marked, t => ⟨10, t, t.head? == some '0'⟩

/-- Take the sign off a numeral: the factor it stands for, and the rest. -/
def signed : Text → Int × Text
  | '-' :: rest => (-1, rest)
  | '+' :: rest => (1, rest)
  | t => (1, t)

/-- Read a text as an integer. -/
def read (style : Style) (t : Text) : Except Error Int :=
  let (sign, numeral) := signed ((t.map plain).dropWhile isPad)
  let body := body style numeral
  match digitRun body.base 0 0 true body.text with
  | none => .error (.invalid style t)
  | some run =>
    if body.base == 10 && digitLimit < run.count then .error (.tooLong run.count)
    else if body.onlyZero && run.value != 0 then .error (.invalid style t)
    else if run.rest.all isPad then .ok (sign * run.value)
    else .error (.invalid style t)

end HackStack.Numeral
