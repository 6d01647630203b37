import HackStack.Proofs.DumpFile
import HackStack.Proofs.Layout
import Mathlib.Data.List.TakeWhile

/-!
# Loading a dump back

A dump goes on for as long as there are cells (`Listing.rows_eq`), so it is complete just
when its whole range is in the memory (`broken_dump_eq_none_iff`).

A row of a dump has an address and a signed value with a comma between them. With an equals
sign in its place it is an assignment (`rowAssignment`), which reads both numbers back
(`parse_decimal`). What it stores is the word of the cell, since the signed value has the
same low bits. So the rows of a whole memory, carried out one after the other, put the words
of all of its cells in their places (`assign_dump`).
-/

namespace HackStack.Hack

open Numeral (decimal digitLimit)

/-! ### How far a dump goes -/

theorem valueAt_natCast (ram : Memory) (i : Nat) : valueAt ram i = ram.getD i 0 := by
  rw [valueAt, if_neg (Int.not_lt.mpr (Int.natCast_nonneg i)), Int.toNat_natCast]

section Listing

variable {ram : Memory} {range : List Int} {rows : List Text} {broken : Option AddressError}

/-- **The rows of a listing** are those of the addresses before the first without a cell. -/
theorem Listing.rows_eq (hsize : ram.size ≤ memorySize) (h : Listing ram range rows broken) :
    rows = (range.takeWhile (HasCell ram ·)).map fun a => dumpRow a (valueAt ram a) := by
  induction h with
  | nil => rfl
  | @missing a more e hcell =>
    have hnone : ¬ HasCell ram a := by
      intro h
      rw [(cell_eq_ok_iff hsize).mpr ⟨h, rfl⟩] at hcell
      cases hcell
    rw [List.takeWhile_cons_of_neg (by simpa using hnone), List.map_nil]
  | @row a value more rows broken hcell hmore ih =>
    obtain ⟨hhas, rfl⟩ := (cell_eq_ok_iff hsize).mp hcell
    rw [List.takeWhile_cons_of_pos (by simpa using hhas), List.map_cons, ← ih]

/-- A listing that does not break off has found a cell for every address. -/
theorem Listing.broken_eq_none_iff (hsize : ram.size ≤ memorySize)
    (h : Listing ram range rows broken) : broken = none ↔ ∀ a ∈ range, HasCell ram a := by
  induction h with
  | nil => simp
  | @missing a more e hcell =>
    refine ⟨nofun, fun hall => ?_⟩
    rw [(cell_eq_ok_iff hsize).mpr ⟨hall a (List.mem_cons_self ..), rfl⟩] at hcell
    cases hcell
  | @row a value more rows broken hcell hmore ih =>
    have hhas := ((cell_eq_ok_iff hsize).mp hcell).1
    rw [ih, List.forall_mem_cons, and_iff_right hhas]

end Listing

section Dump

variable {ram : Memory} (hsize : ram.size ≤ memorySize) (first last : Int)

include hsize

/-- **A dump** has a header and the rows of the addresses before the first without a cell. -/
theorem rows_dump :
    (dump ram first last).rows = dumpHeader ::
      ((addresses first last).takeWhile (HasCell ram ·)).map
        fun a => dumpRow a (valueAt ram a) := by
  obtain ⟨rows, hrows, hlisting⟩ := listing_dump ram first last
  rw [hrows, hlisting.rows_eq hsize]

/-- **A dump is complete** just when its range is empty or within the memory. -/
theorem broken_dump_eq_none_iff :
    (dump ram first last).broken = none ↔
      last < first ∨ -(ram.size : Int) ≤ first ∧ last < ram.size := by
  obtain ⟨rows, -, hlisting⟩ := listing_dump ram first last
  rw [hlisting.broken_eq_none_iff hsize]
  simp only [mem_addresses, HasCell]
  constructor
  · intro hall
    -- the two ends of a range that is not empty are addresses of it
    by_cases hempty : last < first
    · exact .inl hempty
    · have hfirst := hall first ⟨by omega, by omega⟩
      have hlast := hall last ⟨by omega, by omega⟩
      exact .inr ⟨hfirst.1, hlast.2⟩
  · rintro h a ⟨hfirst, hlast⟩
    omega

end Dump

/-! ### Rows as assignments -/

/-- The assignment that a row is, with an equals sign for the comma and without the end of the
row. -/
def rowAssignment (row : Text) : Text :=
  Text.before ',' row ++ '=' :: Text.before '\r' (Text.after ',' row)

theorem rowAssignment_dumpRow (a value : Int) :
    rowAssignment (dumpRow a value) = decimal a ++ '=' :: decimal (Word.signed value) := by
  have hcomma : ',' ∉ decimal a := Numeral.not_mem_decimal (by decide) (by decide) a
  have hreturn : '\r' ∉ decimal (Word.signed value) :=
    Numeral.not_mem_decimal (by decide) (by decide) _
  rw [rowAssignment, dumpRow, List.append_assoc, List.cons_append, Text.before_append hcomma,
    Text.after_append hcomma, rowEnd, Text.before_append hreturn]

/-- A written number is no symbol of the machine. -/
theorem assignedAddress_decimal {a : Nat} (h : (decimal (a : Int)).length ≤ digitLimit) :
    assignedAddress (decimal (a : Int)) = .ok a := by
  have hlookup : predefined.lookup (decimal (a : Int)) = none := by
    refine Option.eq_none_iff_forall_ne_some.mpr fun address hsome => ?_
    have hdigits := (Stack.predefined_name hsome).1
    rw [Numeral.isDigits_decimal] at hdigits
    cases hdigits
  rw [assignedAddress, hlookup]
  have hread := Numeral.read_decimal_int .marked a
  rw [Int.natAbs_natCast, if_neg (Nat.not_lt.mpr h)] at hread
  rw [hread]
  rfl

/-- **Two written numbers** with an equals sign between them assign the word of the second to the
cell of the first. -/
theorem parse_decimal {a : Nat} {value : Int} (ha : a < memorySize)
    (hvalue : (decimal (value.natAbs : Int)).length ≤ digitLimit) :
    Assignment.parse (decimal a ++ '=' :: decimal value) = .ok ⟨a, Word.wrap value⟩ := by
  have hequals : '=' ∉ decimal (a : Int) := Numeral.not_mem_decimal (by decide) (by decide) a
  have hshort : (decimal (a : Int)).length ≤ digitLimit :=
    Numeral.length_decimal_of_lt (Nat.lt_trans ha (by decide))
  have hinside : ¬ ((a : Int) < 0 || (memorySize : Int) ≤ a) = true := by
    simp only [Bool.or_eq_true, decide_eq_true_eq]
    omega
  have hread : Numeral.read .marked (decimal value) = .ok value := by
    rw [Numeral.read_decimal_int, if_neg (Nat.not_lt.mpr hvalue)]
  simp only [Assignment.parse, Text.before_append hequals, Text.after_append hequals,
    assignedAddress_decimal hshort, if_neg hinside, hread, Int.toNat_natCast]

/-- **A row is read back** as the address and the word of the cell. -/
theorem parse_rowAssignment {a : Nat} (h : a < memorySize) (value : Int) :
    Assignment.parse (rowAssignment (dumpRow a value)) = .ok ⟨a, Word.wrap value⟩ := by
  have hlow := Word.le_signed value
  have hhigh := Word.signed_lt value
  rw [rowAssignment_dumpRow,
    parse_decimal h (Numeral.length_decimal_of_lt (by omega)), Word.wrap_signed]

end HackStack.Hack

namespace HackStack.Cli.Runner

open Hack

/-! ### Loading -/

/-- Assignments that are all in order are carried out one after the other. -/
theorem assign_map {α : Type} {items : List α} {text : α → Text} {assignment : α → Assignment}
    (h : ∀ x ∈ items, Assignment.parse (text x) = .ok (assignment x)) (ram : Memory) :
    assign ram (items.map text) =
      .ok (items.foldl (fun ram x => (assignment x).store ram) ram) := by
  induction items generalizing ram with
  | nil => rfl
  | cons x more ih =>
    have hmore : ∀ y ∈ more, Assignment.parse (text y) = .ok (assignment y) :=
      fun y hy => h y (List.mem_cons_of_mem x hy)
    rw [List.map_cons, assign, h x (List.mem_cons_self ..), List.foldl_cons]
    exact ih hmore _

/-- An assignment changes its own cell, if there is one. -/
theorem getElem?_store (s : Assignment) (ram : Memory) (i : Nat) :
    (s.store ram)[i]? =
      if i = s.address then ram[i]?.map fun _ => (s.value : Int) else ram[i]? := by
  rw [Assignment.store, Array.getElem?_setIfInBounds]
  by_cases hi : i = s.address
  · subst hi
    by_cases hlt : s.address < ram.size
    · simp [hlt]
    · simp [hlt]
  · rw [if_neg (Ne.symm hi), if_neg hi]

/-- The first cells, stored one after the other, hold their new values, and the others what they
held. -/
theorem getElem?_foldl_store (value : Nat → Nat) (ram : Memory) (count i : Nat) :
    ((List.range count).foldl (fun ram j => (Assignment.mk j (value j)).store ram) ram)[i]? =
      if i < count then ram[i]?.map fun _ => (value i : Int) else ram[i]? := by
  induction count with
  | zero => simp
  | succ count ih =>
    rw [List.range_succ, List.foldl_append, List.foldl_cons, List.foldl_nil, getElem?_store, ih]
    by_cases hi : i = count
    · subst hi
      rw [if_pos rfl, if_neg (Nat.lt_irrefl i), if_pos (Nat.lt_succ_self i)]
    · have hlt : i < count + 1 ↔ i < count := by omega
      simp only [if_neg hi, hlt]

/-- The rows of a dump of all cells. -/
theorem rows_dump_all {ram : Memory} (hsize : ram.size ≤ memorySize) :
    (dump ram 0 (ram.size - 1)).rows =
      dumpHeader :: (List.range ram.size).map fun i : Nat => dumpRow i (valueAt ram i) := by
  have hrange : addresses 0 (ram.size - 1) =
      (List.range ram.size).map fun i : Nat => (i : Int) := by
    have hcount : ((ram.size : Int) - 1 + 1 - 0).toNat = ram.size := by omega
    rw [addresses, hcount]
    exact List.map_congr_left fun i _ => Int.zero_add _
  have hall : (addresses 0 (ram.size - 1)).takeWhile (HasCell ram ·) =
      addresses 0 (ram.size - 1) := by
    rw [List.takeWhile_eq_self_iff]
    intro a ha
    obtain ⟨hfirst, hlast⟩ := mem_addresses.mp ha
    exact decide_eq_true ⟨by omega, by omega⟩
  rw [rows_dump hsize, hall, hrange, List.map_map]
  rfl

/-- **The rows of a whole memory** put the words of its cells in their places. -/
theorem assign_dump {ram : Memory} (hsize : ram.size ≤ memorySize) {size : Nat}
    (hroom : ram.size ≤ size) :
    assign (blankMemory size) ((dump ram 0 (ram.size - 1)).rows.tail.map rowAssignment) =
      .ok (ram.map (fun v => (Word.wrap v : Int)) ++ blankMemory (size - ram.size)) := by
  have hparse : ∀ i ∈ List.range ram.size,
      Assignment.parse (rowAssignment (dumpRow i (valueAt ram i))) =
        .ok ⟨i, Word.wrap (valueAt ram i)⟩ := fun i hi =>
    parse_rowAssignment (Nat.lt_of_lt_of_le (List.mem_range.mp hi) hsize) _
  rw [rows_dump_all hsize, List.tail_cons, List.map_map]
  refine (assign_map hparse _).trans (congrArg Except.ok (Array.ext_getElem? fun i => ?_))
  rw [getElem?_foldl_store fun i => Word.wrap (valueAt ram i)]
  by_cases hi : i < ram.size
  · rw [if_pos hi, Array.getElem?_append_left (by simpa using hi), Array.getElem?_map]
    simp [blankMemory, valueAt_natCast, hi, Nat.lt_of_lt_of_le hi hroom]
  · rw [if_neg hi, Array.getElem?_append_right (by simpa using hi), Array.size_map]
    simp only [blankMemory, Array.getElem?_replicate]
    congr 1
    simp only [eq_iff_iff]
    omega

/-- **A dump can be loaded back.** It is complete just when its range is empty or within the memory,
and in any case it has the header and the rows of the addresses before the first without a cell. A
row for an address that is not negative is, with an equals sign for its comma, an assignment of the
word of the cell to that address. So the rows of all cells, assigned one after the other to a memory
of zeros with room for them, put the word of each cell in its place and leave the others zero. -/
theorem dump_loads_back (ram : Memory) (hsize : ram.size ≤ memorySize) :
    (∀ first last : Int,
      ((dump ram first last).broken = none ↔
        last < first ∨ -(ram.size : Int) ≤ first ∧ last < ram.size) ∧
      (dump ram first last).rows = dumpHeader ::
        ((addresses first last).takeWhile (HasCell ram ·)).map
          (fun a => dumpRow a (valueAt ram a)) ∧
      ∀ a ∈ (addresses first last).takeWhile (HasCell ram ·),
        rowAssignment (dumpRow a (valueAt ram a)) =
          Numeral.decimal a ++ '=' :: Numeral.decimal (Word.signed (valueAt ram a)) ∧
        (0 ≤ a → a.toNat < ram.size ∧
          Assignment.parse (rowAssignment (dumpRow a (valueAt ram a))) =
            .ok ⟨a.toNat, Word.wrap (ram.getD a.toNat 0)⟩)) ∧
    ∀ size, ram.size ≤ size →
      assign (blankMemory size) ((dump ram 0 (ram.size - 1)).rows.tail.map rowAssignment) =
        .ok (ram.map (fun v => (Word.wrap v : Int)) ++ blankMemory (size - ram.size)) := by
  refine ⟨fun first last => ⟨broken_dump_eq_none_iff hsize first last, rows_dump hsize first last,
    ?_⟩, fun size hroom => assign_dump hsize hroom⟩
  intro a ha
  refine ⟨rowAssignment_dumpRow a _, fun hpos => ?_⟩
  have hcell : HasCell ram a := by simpa using List.mem_takeWhile_imp ha
  obtain ⟨n, rfl⟩ := Int.eq_ofNat_of_zero_le hpos
  have hn : n < ram.size := Int.ofNat_lt.mp hcell.2
  rw [Int.toNat_natCast, valueAt_natCast]
  exact ⟨hn, parse_rowAssignment (Nat.lt_of_lt_of_le hn hsize) _⟩

/-- The least word, a number beyond the words and one below them are dumped and loaded back. The
address -1 is that of the last cell, and a range that goes on behind it breaks off there. -/
theorem dump_loads_back_beyond_words :
    let ram : Memory := #[-32768, 65537, -65538]
    ram.size ≤ memorySize ∧
    (dump ram (-1) 3).broken ≠ none ∧
    (dump ram (-1) 3).text =
      "address,value\r\n-1,-2\r\n0,-32768\r\n1,1\r\n2,-2\r\n".toList ∧
    Assignment.parse (rowAssignment (dumpRow 0 (valueAt ram 0))) = .ok ⟨0, 32768⟩ ∧
    assign (blankMemory 4) ((dump ram 0 2).rows.tail.map rowAssignment) =
      .ok #[32768, 1, 65534, 0] := by
  intro ram
  have hsize : ram.size ≤ memorySize := by decide
  obtain ⟨hdump, hload⟩ := dump_loads_back ram hsize
  obtain ⟨hbroken, hrows, hparse⟩ := hdump (-1) 3
  refine ⟨hsize, ?_, ?_, ?_, ?_⟩
  · rw [Ne, hbroken]
    decide
  · rw [Dump.text, hrows]
    decide +kernel
  · exact ((hparse 0 (by decide +kernel)).2 (by decide)).2.trans (by decide +kernel)
  · exact (hload 4 (by decide)).trans (by decide +kernel)

end HackStack.Cli.Runner
