import HackStack.Cli.Runner
import HackStack.Proofs.FileTree
import HackStack.Proofs.Lockstep

/-!
# The file that a call of the machine leaves behind

A dump has a row for each address of its range, up to the first without a cell (`Listing`,
`listing_dump`). The memory has all of its cells at the end of a run, so that this depends
on the range alone (`exists_cell_iff`).

Everything else that can go wrong in a call does so before the dump is opened
(`perform_cases`). So a call that fails has changed nothing, unless it broke off in the
dump, and a call that succeeds has written all of it.
-/

namespace HackStack.Hack

/-! ### The rows of a dump -/

/-- The addresses from the first to the last. -/
def addresses (first last : Int) : List Int :=
  (List.range (last + 1 - first).toNat).map fun i : Nat => first + i

theorem mem_addresses {first last a : Int} : a ∈ addresses first last ↔ first ≤ a ∧ a ≤ last := by
  simp only [addresses, List.mem_map, List.mem_range]
  constructor
  · rintro ⟨i, hi, rfl⟩
    omega
  · rintro ⟨hfirst, hlast⟩
    exact ⟨(a - first).toNat, by omega, by omega⟩

/-- The rows for addresses, up to the first at which there is no cell. -/
inductive Listing (ram : Memory) : List Int → List Text → Option AddressError → Prop
  | nil : Listing ram [] [] none
  | missing {a : Int} {more : List Int} {e : AddressError} : cell ram a = .error e →
      Listing ram (a :: more) [] (some e)
  | row {a value : Int} {more : List Int} {rows : List Text} {broken : Option AddressError} :
      cell ram a = .ok value → Listing ram more rows broken →
      Listing ram (a :: more) (dumpRow a value :: rows) broken

theorem listing_dumpOnto (acc : List Text) (ram : Memory) (count : Nat) (address : Int) :
    ∃ rows, (dumpOnto acc ram count address).rows = acc.reverse ++ rows ∧
      Listing ram ((List.range count).map fun i : Nat => address + i) rows
        (dumpOnto acc ram count address).broken := by
  induction count generalizing acc address with
  | zero => exact ⟨[], by simp [dumpOnto], .nil⟩
  | succ count ih =>
    have haddresses : (List.range (count + 1)).map (fun i : Nat => address + i) =
        address :: (List.range count).map fun i : Nat => address + 1 + i := by
      rw [List.range_succ_eq_map, List.map_cons, List.map_map]
      refine congrArg₂ _ (by simp) (List.map_congr_left fun i _ => ?_)
      simp only [Function.comp_apply, Nat.cast_succ]
      omega
    rw [dumpOnto, haddresses]
    cases hcell : cell ram address with
    | error e => exact ⟨[], by simp, .missing hcell⟩
    | ok value =>
      obtain ⟨rows, hrows, hlisting⟩ := ih (dumpRow address value :: acc) (address + 1)
      exact ⟨dumpRow address value :: rows, by simp [hrows], .row hcell hlisting⟩

/-- **A dump** has a header and the rows of its range. -/
theorem listing_dump (ram : Memory) (first last : Int) :
    ∃ rows, (dump ram first last).rows = dumpHeader :: rows ∧
      Listing ram (addresses first last) rows (dump ram first last).broken :=
  listing_dumpOnto [dumpHeader] ram (last + 1 - first).toNat first

/-- The row of an address and its cell. -/
def IsRow (ram : Memory) (a : Int) (row : Text) : Prop :=
  ∃ value, cell ram a = .ok value ∧ row = dumpRow a value

section Listing

variable {ram : Memory} {range : List Int} {rows : List Text}

/-- Rows that do not break off are those of all addresses. -/
theorem Listing.forall₂ (h : Listing ram range rows none) :
    List.Forall₂ (IsRow ram) range rows := by
  generalize hnone : (none : Option AddressError) = broken at h
  induction h with
  | nil => exact .nil
  | missing _ => cases hnone
  | row hcell _ ih => exact .cons ⟨_, hcell, rfl⟩ (ih hnone)

/-- Rows break off at the first address without a cell. -/
theorem Listing.exists_missing {e : AddressError} (h : Listing ram range rows (some e)) :
    ∃ before a after, range = before ++ a :: after ∧ List.Forall₂ (IsRow ram) before rows ∧
      cell ram a = .error e := by
  generalize hsome : some e = broken at h
  induction h with
  | nil => cases hsome
  | missing hcell => cases hsome; exact ⟨[], _, _, rfl, .nil, hcell⟩
  | @row a _ _ _ _ hvalue _ ih =>
    obtain ⟨before, b, after, rfl, hrows, hcell⟩ := ih hsome
    exact ⟨a :: before, b, after, rfl, .cons ⟨_, hvalue, rfl⟩ hrows, hcell⟩

end Listing

/-! ### The cells of a memory -/

/-- There is a cell at an address: it is one of the memory, or one of as many negative ones. -/
def HasCell (ram : Memory) (a : Int) : Prop := -(ram.size : Int) ≤ a ∧ a < ram.size

instance (ram : Memory) : DecidablePred (HasCell ram) :=
  fun _ => inferInstanceAs (Decidable (_ ∧ _))

/-- The value at an address, which counts from the end if it is negative. -/
def valueAt (ram : Memory) (a : Int) : Int :=
  ram.getD (if a < 0 then a + ram.size else a).toNat 0

/-- **A memory has a value** for the addresses of its cells and as many negative ones. -/
theorem cell_eq_ok_iff {ram : Memory} (hsize : ram.size ≤ memorySize) {a value : Int} :
    cell ram a = .ok value ↔ HasCell ram a ∧ value = valueAt ram a := by
  have hmemory : memorySize = 32768 := rfl
  have hplace : (0 ≤ (if a < 0 then a + ram.size else a) ∧
      (if a < 0 then a + ram.size else a) < ram.size) ↔ HasCell ram a := by
    unfold HasCell
    split <;> omega
  rw [cell, cellIndex]
  by_cases hcell : HasCell ram a
  · have hwidth : Word.signedAt addressWidth a = a := by
      obtain ⟨hlow, hhigh⟩ := hcell
      exact signedAt_addressWidth (by omega) (by omega)
    have hinside := hplace.mpr hcell
    rw [if_neg (by simp [hwidth]), if_neg (by simpa using hinside), Except.map, Except.ok.injEq,
      and_iff_right hcell, valueAt, eq_comm]
  · have houtside := mt hplace.mp hcell
    refine ⟨?_, fun h => absurd h.1 hcell⟩
    intro h
    split at h
    · cases h
    · rw [if_pos (by simpa [or_iff_not_imp_left] using houtside)] at h
      cases h

/-- **The whole memory has a cell** for the addresses of its cells and as many negative ones. -/
theorem exists_cell_iff {ram : Memory} (hsize : ram.size = memorySize) {a : Int} :
    (∃ value, cell ram a = .ok value) ↔ -32768 ≤ a ∧ a ≤ 32767 := by
  have hcell : (∃ value, cell ram a = .ok value) ↔ HasCell ram a := by
    simp [cell_eq_ok_iff (Nat.le_of_eq hsize)]
  have hmemory : memorySize = 32768 := rfl
  rw [hcell, HasCell]
  omega

/-- **A dump of the whole memory** has a row for each address of its range, or it breaks off at the
first that is none of the memory. -/
theorem dump_cases {ram : Memory} (hsize : ram.size = memorySize) (first last : Int) :
    ∃ rows, (dump ram first last).text = dumpHeader ++ rows.flatten ∧
      ((dump ram first last).broken = none ∧
        List.Forall₂ (IsRow ram) (addresses first last) rows ∨
      ∃ fault before a after, (dump ram first last).broken = some fault ∧
        (first ≤ a ∧ a ≤ last ∧ ¬ (-32768 ≤ a ∧ a ≤ 32767)) ∧
        addresses first last = before ++ a :: after ∧ List.Forall₂ (IsRow ram) before rows) := by
  obtain ⟨rows, hrows, hlisting⟩ := listing_dump ram first last
  refine ⟨rows, by rw [Dump.text, hrows, List.flatten_cons], ?_⟩
  cases hbroken : (dump ram first last).broken with
  | none =>
    rw [hbroken] at hlisting
    exact .inl ⟨rfl, hlisting.forall₂⟩
  | some fault =>
    rw [hbroken] at hlisting
    obtain ⟨before, a, after, hrange, hbefore, hcell⟩ := hlisting.exists_missing
    have hmissing : ¬ (-32768 ≤ a ∧ a ≤ 32767) := by
      rw [← exists_cell_iff hsize]
      rintro ⟨value, hvalue⟩
      rw [hcell] at hvalue
      cases hvalue
    have hmem : a ∈ addresses first last := by simp [hrange]
    obtain ⟨hfirst, hlast⟩ := mem_addresses.mp hmem
    exact .inr ⟨fault, before, a, after, rfl, ⟨hfirst, hlast, hmissing⟩, hrange, hbefore⟩

/-- No cell is lost when a source is run. -/
theorem size_runSource (source : Text) (ram : Memory) (limit : Int) :
    (runSource source ram limit).ram.size = ram.size := by
  rw [runSource]
  cases assemble source with
  | error e => rfl
  | ok program =>
    have hsize : (run program ram limit).machine.ram.size = ram.size :=
      size_runFrom program 0 limit.toNat (.start ram)
    simp only [Run.execution]
    split <;> exact hsize

end HackStack.Hack

namespace HackStack.Cli.Runner

open Files (Tree Location)
open Text.Utf8 (encode)

/-! ### One call -/

/-- A run that comes to its end: the cells that are set are there, the program can be read and
assembled, and no instruction is a fault. -/
def RunsTo (tree : Tree) (r : Request) (run : Hack.Execution) : Prop :=
  ∃ ram count, assign (Hack.blankMemory Hack.memorySize) r.assignments = .ok ram ∧
    execute tree r ram = .ok run ∧ run.result = .ok count

theorem size_assign {ram ram' : Hack.Memory} {assignments : List Text}
    (h : assign ram assignments = .ok ram') : ram'.size = ram.size := by
  induction assignments generalizing ram with
  | nil => cases h; rfl
  | cons t more ih =>
    rw [assign] at h
    cases hparse : Hack.Assignment.parse t with
    | error e => rw [hparse] at h; cases h
    | ok a =>
      rw [hparse] at h
      rw [ih h, Hack.Assignment.store, Array.size_setIfInBounds]

/-- A run that comes to its end leaves the whole memory. -/
theorem RunsTo.size {tree : Tree} {r : Request} {run : Hack.Execution} (h : RunsTo tree r run) :
    run.ram.size = Hack.memorySize := by
  obtain ⟨ram, count, hassign, hexecute, -⟩ := h
  have hram : ram.size = Hack.memorySize := by
    rw [size_assign hassign, Hack.blankMemory, Array.size_replicate]
  rw [execute] at hexecute
  split at hexecute
  · cases hexecute
  · split at hexecute
    · cases hexecute
    · cases hexecute
      rw [Hack.size_runSource, hram]

theorem ne_help_of_execute {tree : Tree} {r : Request} {ram : Hack.Memory} {stop : Stop}
    (h : execute tree r ram = .error stop) : stop ≠ .help := by
  rw [execute] at h
  split at h
  · cases h; nofun
  · split at h
    · cases h; nofun
    · cases h

/-- **A call whose run comes to its end** writes the dump, as far as it goes. -/
theorem perform_of_runsTo {e : Effects} {r : Request} {first last : Int} {run : Hack.Execution}
    {l : Location} (hrange : parseRange r.range = .ok (first, last)) (hruns : RunsTo e.tree r run)
    (hwritable : e.tree.writable r.dump = .ok l) :
    (perform e r).2.tree = e.tree.put l (encode (Hack.dump run.ram first last).text) ∧
      (perform e r).1 = match (Hack.dump run.ram first last).broken with
        | some fault => .error (.crash (.dump fault))
        | none => .ok () := by
  obtain ⟨ram, count, hassign, hexecute, hresult⟩ := hruns
  simp only [perform, hrange, hassign, hexecute, hresult, writeDump, hwritable]
  cases (Hack.dump run.ram first last).broken with
  | none => exact ⟨rfl, rfl⟩
  | some fault => exact ⟨rfl, rfl⟩

/-- **What a call does** when its command line is in order: it fails and changes nothing, or its run
comes to its end and it writes the dump. -/
theorem perform_cases (e : Effects) (r : Request) :
    (∃ stop, (perform e r).1 = .error stop ∧ stop ≠ .help ∧ (perform e r).2.tree = e.tree) ∨
    ∃ first last run l, parseRange r.range = .ok (first, last) ∧ RunsTo e.tree r run ∧
      e.tree.writable r.dump = .ok l ∧
      (perform e r).2.tree = e.tree.put l (encode (Hack.dump run.ram first last).text) ∧
      (perform e r).1 = match (Hack.dump run.ram first last).broken with
        | some fault => .error (.crash (.dump fault))
        | none => .ok () := by
  cases hrange : parseRange r.range with
  | error crash =>
    have hperform : perform e r = (.error (.crash crash), e) := by simp only [perform, hrange]
    rw [hperform]
    exact .inl ⟨_, rfl, nofun, rfl⟩
  | ok range =>
    obtain ⟨first, last⟩ := range
    cases hassign : assign (Hack.blankMemory Hack.memorySize) r.assignments with
    | error fault =>
      have hperform : perform e r = (.error (.failed fault.message), e) := by
        simp only [perform, hrange, hassign]
      rw [hperform]
      exact .inl ⟨_, rfl, nofun, rfl⟩
    | ok ram =>
      cases hexecute : execute e.tree r ram with
      | error stop =>
        have hperform : perform e r = (.error stop, e) := by
          simp only [perform, hrange, hassign, hexecute]
        rw [hperform]
        exact .inl ⟨stop, rfl, ne_help_of_execute hexecute, rfl⟩
      | ok run =>
        cases hresult : run.result with
        | error fault =>
          have hperform : perform e r = (.error (.failed fault.message),
              { e with notices := e.notices ++ run.notices }) := by
            simp only [perform, hrange, hassign, hexecute, hresult]
          rw [hperform]
          exact .inl ⟨_, rfl, nofun, rfl⟩
        | ok count =>
          cases hwritable : e.tree.writable r.dump with
          | error fault =>
            have hperform : perform e r = (.error (.crash (.access fault)),
                { e with notices := e.notices ++ run.notices }) := by
              simp only [perform, hrange, hassign, hexecute, hresult, writeDump, hwritable]
            rw [hperform]
            exact .inl ⟨_, rfl, nofun, rfl⟩
          | ok l =>
            have hruns : RunsTo e.tree r run := ⟨ram, count, hassign, hexecute, hresult⟩
            exact .inr ⟨first, last, run, l, rfl, hruns, rfl,
              perform_of_runsTo hrange hruns hwritable⟩

/-! ### Which calls are stopped for the help -/

section Help

theorem bind_ne_help {α β : Type} {x : Except Stop α} {f : α → Except Stop β}
    (hx : x ≠ .error .help) (hf : ∀ a, f a ≠ .error .help) : (x >>= f) ≠ .error .help := by
  cases x with
  | error stop =>
    intro h
    cases h
    exact hx rfl
  | ok a => exact hf a

theorem stepLimit_ne_help (value : Option Text) : stepLimit value ≠ .error .help := by
  unfold stepLimit
  split
  · nofun
  · split <;> nofun

theorem required_ne_help (parameter : String) (t : Option Text) :
    required parameter t ≠ .error .help := by
  cases t <;> nofun

theorem check_ne_help (rule : PathRule) (tree : Tree) (parameter : String) (path : Text) :
    rule.check tree parameter path ≠ .error .help := by
  unfold PathRule.check
  dsimp only
  split
  · nofun
  · split
    · split <;> nofun
    · split <;> nofun
    · nofun

theorem noExtra_ne_help (extra : List Text) : noExtra extra ≠ .error .help := by
  cases extra <;> nofun

/-- Only a call that asks for the help is stopped for it. -/
theorem has_help_of_request {tree : Tree} {args : List Text}
    (h : request tree args = .error .help) :
    ∃ parsed, parseOptions specs args = .ok parsed ∧ parsed.has .help = true := by
  unfold request at h
  cases hparsed : parseOptions specs args with
  | error e => rw [hparsed] at h; cases e <;> cases h
  | ok parsed =>
    refine ⟨parsed, rfl, Classical.byContradiction fun hhelp => ?_⟩
    rw [hparsed] at h
    simp only [if_neg hhelp] at h
    refine absurd h ?_
    refine bind_ne_help (stepLimit_ne_help _) fun limit => ?_
    refine bind_ne_help (required_ne_help _ _) fun program => ?_
    refine bind_ne_help (check_ne_help _ tree _ program) fun _ => ?_
    refine bind_ne_help (required_ne_help _ _) fun dump => ?_
    refine bind_ne_help (check_ne_help _ tree _ dump) fun _ => ?_
    refine bind_ne_help (required_ne_help _ _) fun range => ?_
    refine bind_ne_help (noExtra_ne_help _) fun _ => ?_
    nofun

end Help

/-! ### The tree after a call -/

section Tree

variable {print : Printer}

theorem exit_stopped_iff {e : Effects} {stop : Stop} :
    (e.stopped print level tool stop).exit = 0 ↔ stop = .help := by
  cases stop <;> simp [Effects.stopped]

theorem tree_stopped (e : Effects) (stop : Stop) :
    (e.stopped print level tool stop).tree = e.tree := by
  cases stop <;> rfl

theorem call_of_request {tree : Tree} {args : List Text} {r : Request}
    (h : request tree args = .ok r) :
    call print tree args =
      (perform ⟨tree, [], []⟩ r).2.report print level tool (perform ⟨tree, [], []⟩ r).1 := by
  simp only [call, h]

end Tree

/-- One file is changed or made, and now holds a text. -/
def WritesOnly (tree tree' : Tree) (path text : Text) : Prop :=
  ∃ l, tree.writable path = .ok l ∧ tree'.read path = .ok (encode text) ∧
    ∀ other, other ≠ l → tree'.get? other = tree.get? other

theorem writesOnly_put {tree : Tree} {path : Text} {l : Location}
    (h : tree.writable path = .ok l) (text : Text) :
    WritesOnly tree (tree.put l (encode text)) path text := by
  obtain ⟨-, hlocate, hfile⟩ := Tree.writable_iff.mp h
  have hne : l ≠ [] := by
    rintro rfl
    exact hfile rfl
  refine ⟨l, h, ?_, fun other hother => tree.get?_put_of_ne hother _⟩
  exact Tree.read_iff.mpr ⟨l, (Tree.sameDirectories_put hfile _).locate_iff.mpr hlocate,
    tree.get?_put_self hne _⟩

/-- **A call that fails leaves no dump**, unless it breaks off in the dump itself. When a call ends
with another status than zero, then no file is changed, or the run has come to its end and there is
an address in the range that is none of the memory: then only the file for the dump is changed, and
it holds the header and the rows of the addresses before. When a call ends with zero, then the help
was asked for and no file is changed, or the run has come to its end and the file for the dump, as
the only one that is changed, holds the header and a row for each address of the range. -/
theorem call_dumps_all_or_nothing (print : Printer) (tree : Tree) (args : List Text) :
    let report := call print tree args
    (report.exit ≠ 0 → report.tree = tree ∨
      ∃ r first last run before a after rows, request tree args = .ok r ∧
        parseRange r.range = .ok (first, last) ∧ RunsTo tree r run ∧
        (first ≤ a ∧ a ≤ last ∧ ¬ (-32768 ≤ a ∧ a ≤ 32767)) ∧
        Hack.addresses first last = before ++ a :: after ∧
        List.Forall₂ (Hack.IsRow run.ram) before rows ∧
        WritesOnly tree report.tree r.dump (Hack.dumpHeader ++ rows.flatten)) ∧
    (report.exit = 0 →
      (∃ parsed, parseOptions specs args = .ok parsed ∧ parsed.has .help = true ∧
        report.tree = tree) ∨
      ∃ r first last run rows, request tree args = .ok r ∧
        parseRange r.range = .ok (first, last) ∧ RunsTo tree r run ∧
        List.Forall₂ (Hack.IsRow run.ram) (Hack.addresses first last) rows ∧
        WritesOnly tree report.tree r.dump (Hack.dumpHeader ++ rows.flatten)) := by
  intro report
  cases hrequest : request tree args with
  | error stop =>
    have hreport : report = (⟨tree, [], []⟩ : Effects).stopped print level tool stop := by
      simp only [report, call, hrequest]
    have htree : report.tree = tree := by rw [hreport, tree_stopped]
    refine ⟨fun _ => .inl htree, fun hexit => .inl ?_⟩
    rw [hreport, exit_stopped_iff] at hexit
    obtain ⟨parsed, hparsed, hhelp⟩ := has_help_of_request (hexit ▸ hrequest)
    exact ⟨parsed, hparsed, hhelp, htree⟩
  | ok r =>
    have hreport : report = _ := call_of_request hrequest
    rcases perform_cases ⟨tree, [], []⟩ r with ⟨stop, hstop, hhelp, htree⟩ |
      ⟨first, last, run, l, hrange, hruns, hwritable, htree, hresult⟩
    · rw [hstop, Effects.report] at hreport
      refine ⟨fun _ => .inl ?_, fun hexit => ?_⟩
      · rw [hreport, tree_stopped, htree]
      · rw [hreport] at hexit
        exact absurd (exit_stopped_iff.mp hexit) hhelp
    · obtain ⟨rows, htext, hdump⟩ := Hack.dump_cases hruns.size first last
      have hwrites := writesOnly_put hwritable (Hack.dumpHeader ++ rows.flatten)
      rw [← htext, ← htree, htext] at hwrites
      rcases hdump with ⟨hbroken, hrows⟩ | ⟨fault, before, a, after, hbroken, ha, hrange', hrows⟩
      · simp only [hbroken] at hresult
        rw [hresult, Effects.report, Effects.finished] at hreport
        refine ⟨fun hexit => absurd ?_ hexit, fun _ => .inr ⟨r, first, last, run, rows, rfl, hrange,
          hruns, hrows, ?_⟩⟩
        · rw [hreport]
        · rw [hreport]
          exact hwrites
      · simp only [hbroken] at hresult
        rw [hresult, Effects.report] at hreport
        refine ⟨fun _ => .inr ⟨r, first, last, run, before, a, after, rows, rfl, hrange, hruns, ha,
          hrange', hrows, ?_⟩, fun hexit => ?_⟩
        · rw [hreport, tree_stopped]
          exact hwrites
        · rw [hreport, exit_stopped_iff] at hexit
          cases hexit

/-- A directory with an empty program. -/
def emptyProgram : Tree := ⟨[(["p.asm".toList], .file (encode []))], []⟩

/-- A request for the last cell and one behind it. -/
def behindMemory : Request :=
  ⟨"p.asm".toList, "d.csv".toList, "32767:32768".toList, [], Hack.defaultLimit⟩

theorem runsTo_emptyProgram :
    RunsTo emptyProgram behindMemory ⟨.ok 0, Hack.blankMemory Hack.memorySize, []⟩ := by
  have hrun (limit : Nat) (m : Hack.Machine) : Hack.runFrom #[] 0 limit m = ⟨m, 0, .halted⟩ := by
    cases limit <;> simp [Hack.runFrom]
  have hassemble : Hack.assemble (Text.unifyReturns []) = .ok #[] := by decide +kernel
  have hread : emptyProgram.read behindMemory.program = .ok (encode []) := by decide +kernel
  have hdecode : Text.Utf8.decode (encode []) = .ok [] := by decide +kernel
  refine ⟨Hack.blankMemory Hack.memorySize, 0, rfl, ?_, rfl⟩
  simp [execute, hread, hdecode, Hack.runSource, hassemble, Hack.run, hrun, Hack.Run.execution,
    Hack.Run.notices, Hack.Machine.start]

theorem dump_behindMemory {ram : Hack.Memory} (hlast : Hack.cell ram 32767 = .ok 0)
    (hbehind : Hack.cell ram 32768 = .error .outside) :
    (Hack.dump ram 32767 32768).text = "address,value\r\n32767,0\r\n".toList ∧
      (Hack.dump ram 32767 32768).broken = some .outside := by
  have hdump : Hack.dump ram 32767 32768 =
      ⟨[Hack.dumpHeader, Hack.dumpRow 32767 0], some .outside⟩ := by
    simp [Hack.dump, Hack.dumpOnto, hlast, hbehind]
  rw [hdump]
  exact ⟨by decide +kernel, rfl⟩

/-- The last cell of the blank memory is zero, and there is none behind it. -/
theorem exists_runsTo_emptyProgram :
    ∃ ram, RunsTo emptyProgram behindMemory ⟨.ok 0, ram, []⟩ ∧ Hack.cell ram 32767 = .ok 0 ∧
      Hack.cell ram 32768 = .error .outside := by
  have hsize : (Hack.blankMemory Hack.memorySize).size = Hack.memorySize := Array.size_replicate
  refine ⟨_, runsTo_emptyProgram, ?_, ?_⟩
  · rw [Hack.cell, hsize, show Hack.cellIndex Hack.memorySize 32767 = .ok 32767 by decide]
    simp [Hack.blankMemory, Hack.memorySize, Except.map]
  · rw [Hack.cell, hsize, show Hack.cellIndex Hack.memorySize 32768 = .error .outside by decide]
    rfl

/-- A range that goes on behind the last cell leaves the rows before, although the call fails. And
there is no dump when the help is asked for, although the call succeeds. -/
theorem call_leaves_broken_dump :
    let report := call (.onto false false) emptyProgram
      ["p.asm".toList, "d.csv".toList, "32767:32768".toList]
    let report' := call (.onto false false) emptyProgram
      ["--help".toList, "p.asm".toList, "d.csv".toList, "0:0".toList]
    (emptyProgram.get? ["d.csv".toList] = none ∧ report.exit = 1 ∧
      report.tree.read "d.csv".toList = .ok (encode "address,value\r\n32767,0\r\n".toList)) ∧
    report'.exit = 0 ∧ report'.tree = emptyProgram := by
  intro report report'
  have hrequest : request emptyProgram ["p.asm".toList, "d.csv".toList, "32767:32768".toList] =
      .ok behindMemory := rfl
  have hrange : parseRange behindMemory.range = .ok (32767, 32768) := by decide +kernel
  have hwritable : emptyProgram.writable behindMemory.dump = .ok ["d.csv".toList] := by
    decide +kernel
  obtain ⟨ram, hruns, hlast, hbehind⟩ := exists_runsTo_emptyProgram
  obtain ⟨htext, hbroken⟩ := dump_behindMemory hlast hbehind
  obtain ⟨htree, hresult⟩ := perform_of_runsTo (e := ⟨emptyProgram, [], []⟩) hrange hruns hwritable
  simp only [htext] at htree
  simp only [hbroken] at hresult
  have hreport : report = _ := call_of_request hrequest
  rw [hresult, Effects.report] at hreport
  refine ⟨⟨rfl, ?_, ?_⟩, rfl, rfl⟩
  · rw [hreport, Effects.stopped]
  · obtain ⟨l, -, hread, -⟩ := writesOnly_put hwritable "address,value\r\n32767,0\r\n".toList
    rw [hreport, tree_stopped, htree]
    exact hread

end HackStack.Cli.Runner
