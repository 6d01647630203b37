import HackStack.Numeral
import HackStack.Hack.Memory

/-!
# Dumps

A dump lists cells as a table of comma-separated rows, each closed by return and line
feed, with the signed value of each cell. It breaks off at the first address without a
cell; the rows before it stay.
-/

namespace HackStack.Hack

/-- The end of a row. -/
def rowEnd : Text := ['\r', '\n']

/-- The first row of a dump. -/
def dumpHeader : Text := "address,value".toList ++ rowEnd

/-- The row for an address and the raw value of its cell. -/
def dumpRow (address value : Int) : Text :=
  Numeral.decimal address ++ ',' :: Numeral.decimal (Word.signed value) ++ rowEnd

/-- A dump: its rows, and why it breaks off if it does. -/
structure Dump where
  rows : List Text
  broken : Option AddressError
  deriving DecidableEq, Repr

/-- Put the rows of `count` cells from `address` on after the reversed rows `acc`. -/
def dumpOnto (acc : List Text) (ram : Memory) : Nat → Int → Dump
  | 0, _ => ⟨acc.reverse, none⟩
  | count + 1, address =>
    match cell ram address with
    | .error e => ⟨acc.reverse, some e⟩
    | .ok value => dumpOnto (dumpRow address value :: acc) ram count (address + 1)

/-- Dump the cells from address `first` to address `last`. -/
def dump (ram : Memory) (first last : Int) : Dump :=
  dumpOnto [dumpHeader] ram (last + 1 - first).toNat first

/-- The text of a dump. -/
def Dump.text (d : Dump) : Text := d.rows.flatten

end HackStack.Hack
