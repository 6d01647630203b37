import HackStack.Text.Printable

/-!
# Quoted texts

Messages show a text between quotes. The quote is single, unless the text holds a
single quote and no double one. Inside, the quote in use and the backslash follow a
backslash, line feed, return and tab have their short forms, and every character
that is not printable is given by its code point in lower-case hexadecimal, in two,
four or eight digits.
-/

namespace HackStack.Text

/-- The single quote. -/
def singleQuote : Char := '\x27'

/-- The double quote. -/
def doubleQuote : Char := '\x22'

/-- The backslash, which opens every escape. -/
def backslash : Char := '\x5c'

/-- A number in hexadecimal, filled with zeros up to `width` digits. -/
def hexadecimal (width n : Nat) : Text := (Nat.toDigits 16 n).leftpad width '0'

/-- The escape that gives a character by its code point. -/
def codePointEscape (c : Char) : Text :=
  if c.toNat < 0x100 then backslash :: 'x' :: hexadecimal 2 c.toNat
  else if c.toNat < 0x10000 then backslash :: 'u' :: hexadecimal 4 c.toNat
  else backslash :: 'U' :: hexadecimal 8 c.toNat

/-- A character as it stands between quotes `quote`. -/
def escape (quote c : Char) : Text :=
  if c == quote || c == backslash then [backslash, c]
  else if c == '\n' then [backslash, 'n']
  else if c == '\r' then [backslash, 'r']
  else if c == '\t' then [backslash, 't']
  else if isPrintable c then [c]
  else codePointEscape c

/-- The quote that a text is shown with. -/
def quoteFor (t : Text) : Char :=
  if t.contains singleQuote && !t.contains doubleQuote then doubleQuote else singleQuote

/-- A text between quotes. -/
def quoted (t : Text) : Text :=
  let quote := quoteFor t
  quote :: t.flatMap (escape quote) ++ [quote]

/-- A text between quotes, as a piece of a message. -/
def shown (t : Text) : String := String.ofList (quoted t)

end HackStack.Text
