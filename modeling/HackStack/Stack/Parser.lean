import HackStack.Code
import HackStack.Stack.Diagnostic

/-!
# Reading a command

One line holds at most one command. Its code is cut at every single space, so that
two spaces in a row make an empty word between them. The first word decides: an
arithmetic word or `return` is a command whatever words follow it, and a keyword
takes a name and, for some, a number.

Of several faults the first in this order is reported: more than three words, an
unknown first word, a missing name, a missing number, a number that is not plain
digits.
-/

namespace HackStack.Stack

/-- The words that take operands. -/
inductive Keyword where
  | push
  | pop
  | label
  | goto
  | ifGoto
  | function
  | call
  deriving DecidableEq, Repr

/-- How a keyword is written. -/
def Keyword.text : Keyword → Text
  | .push => "push".toList
  | .pop => "pop".toList
  | .label => "label".toList
  | .goto => "goto".toList
  | .ifGoto => "if".toList
  | .function => "function".toList
  | .call => "call".toList

/-- All keywords. -/
def Keyword.all : List Keyword := [.push, .pop, .label, .goto, .ifGoto, .function, .call]

/-- The keyword that a word is. -/
def Keyword.ofText? (t : Text) : Option Keyword := all.find? (·.text == t)

@[simp]
theorem Keyword.ofText?_text (k : Keyword) : ofText? k.text = some k := by
  cases k <;> rfl

/-- A word is a keyword only if it is written as the keyword is. -/
theorem Keyword.ofText?_eq_some_iff {t : Text} {k : Keyword} :
    ofText? t = some k ↔ t = k.text := by
  constructor
  · intro h
    have := List.find?_some h
    exact (LawfulBEq.eq_of_beq this).symm
  · rintro rfl
    exact ofText?_text k

/-- The word for a command without operands. -/
def returnWord : Text := "return".toList

/-- A failure on a line. -/
def failAt (line : Int) (cause : Cause) : Failure := .diagnostic ⟨cause, some line⟩

/-- Read a numeric operand, which is written in plain digits. -/
def readIndex (t : Text) (line : Int) : Except Failure Nat :=
  if Text.isPlainDigits t then (Numeral.natural t).mapError .numeral
  else .error (failAt line (.notNumeric t))

/-- The name that follows the keyword `word`. -/
def nameOperand (word : Text) (operands : List Text) (line : Int) : Except Failure Text :=
  match operands with
  | name :: _ => if name.isEmpty then .error (failAt line (.noArgument word)) else .ok name
  | [] => .error (failAt line (.noArgument word))

/-- The number that follows the keyword `word` and its name. -/
def indexOperand (word : Text) (operands : List Text) (line : Int) : Except Failure Nat :=
  match operands with
  | _ :: t :: _ => if t.isEmpty then .error (failAt line (.noIndex word)) else readIndex t line
  | _ => .error (failAt line (.noIndex word))

/-- The operation of a keyword with a name, and with a number where it takes one. -/
def Keyword.operation (name : Text) (index : Except Failure Nat) :
    Keyword → Except Failure Operation
  | .push => index.map (.push name)
  | .pop => index.map (.pop name)
  | .label => .ok (.label name)
  | .goto => .ok (.goto name)
  | .ifGoto => .ok (.ifGoto name)
  | .function => index.map (.function name)
  | .call => index.map (.call name)

/-- The operation that a first word and the words after it stand for. -/
def Operation.ofWords (word : Text) (operands : List Text) (line : Int) :
    Except Failure Operation :=
  match Arithmetic.ofText? word with
  | some op => .ok (.arithmetic op)
  | none =>
    if word == returnWord then .ok .ret
    else match Keyword.ofText? word with
      | none => .error (failAt line (.unknownWord word))
      | some keyword => do
        let name ← nameOperand word operands line
        keyword.operation name (indexOperand word operands line)

/-- The most words that a command may have. -/
def maxWords : Nat := 3

/-- The number of a line that has none of its own. -/
def unnumbered : Int := 0

/-- Read the command on a line: none when the line holds no code. -/
def Command.parse (text : Text) (line : Int) : Except Failure (Option Command) :=
  let code := Text.code text
  if code.isEmpty then .ok none
  else
    let words := code.splitOn ' '
    if maxWords < words.length then .error (failAt line (.tooManyWords code))
    else (Operation.ofWords (words.headD []) words.tail line).map fun op => some ⟨op, line⟩

end HackStack.Stack
