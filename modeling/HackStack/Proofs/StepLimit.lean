import HackStack.Proofs.Lockstep

/-!
# The step limit

A limit on the steps cuts a run short and does nothing else to it. With a higher limit a
run that was stopped goes on from where it was, and a run that ended by itself stays as it
is (`runFrom_add`). So the states of the shorter run are the first ones of the longer
(`trace_eq_take`), also where the limit is reached in the step that leaves the program, or
just before an instruction that is a fault.

A run is stopped only inside the program, and only after all the steps that it was allowed
(`steps_of_stopped`, `pc_of_stopped`).
-/

namespace HackStack.Hack

/-! ### Traces -/

/-- A trace with a lower limit is the start of one with a higher limit. -/
theorem trace_eq_take {σ : Type} (next? : σ → Option σ) {k m : Nat} (h : k ≤ m) (s : σ) :
    trace next? k s = (trace next? m s).take (k + 1) := by
  induction k generalizing m s with
  | zero =>
    obtain ⟨more, hmore⟩ := exists_trace_eq_cons next? m s
    rw [hmore]
    rfl
  | succ k ih =>
    obtain ⟨m, rfl⟩ := Nat.exists_eq_add_of_le' h
    cases hs : next? s with
    | none => rw [trace_of_none hs, trace_of_none hs]; rfl
    | some s' =>
      rw [← Nat.add_assoc, trace_of_some hs, trace_of_some hs, List.take_succ_cons,
        ih (Nat.le_add_left k m) s']

/-! ### Endings -/

section Endings

variable {program : Array Instruction} {steps limit : Nat} {m : Machine}

/-- A run that is stopped has made all the steps it was allowed. -/
theorem steps_of_stopped (h : (runFrom program steps limit m).ending = .stopped) :
    (runFrom program steps limit m).steps = steps + limit := by
  fun_induction runFrom program steps limit m with
  | case1 => rfl
  | case2 => cases h
  | case3 => cases h
  | case4 steps m limit i hi hfault ih => rw [ih h]; omega

/-- A run that is stopped stands before an instruction of the program. -/
theorem pc_of_stopped (h : (runFrom program steps limit m).ending = .stopped) :
    (runFrom program steps limit m).machine.pc < program.size := by
  fun_induction runFrom program steps limit m with
  | case1 steps m =>
    simp only at h
    split at h
    · assumption
    · cases h
  | case2 => cases h
  | case3 => cases h
  | case4 steps m limit i hi hfault ih => exact ih h

/-- **More steps**: a run that was stopped goes on from where it was, and every other run has
ended. -/
theorem runFrom_add (program : Array Instruction) (steps k more : Nat) (m : Machine) :
    runFrom program steps (k + more) m =
      if (runFrom program steps k m).ending = .stopped then
        runFrom program (runFrom program steps k m).steps more (runFrom program steps k m).machine
      else runFrom program steps k m := by
  induction k generalizing steps m with
  | zero =>
    rw [Nat.zero_add]
    by_cases hpc : m.pc < program.size
    · simp [runFrom, hpc]
    · -- behind the program there is no step to make
      cases more <;> simp [runFrom, hpc]
  | succ k ih =>
    rw [Nat.add_right_comm, runFrom, runFrom]
    cases program[m.pc]? with
    | none => rfl
    | some i =>
      cases hfault : m.fault? i with
      | some f => simp [hfault]
      | none =>
        simp only [hfault]
        exact ih (steps + 1) (m.execute i.operation)

/-- A run that was not stopped is the same with a higher limit. -/
theorem run_of_not_stopped {ram : Memory} {k m : Int} (h : k ≤ m)
    (hending : (run program ram k).ending ≠ .stopped) : run program ram m = run program ram k := by
  obtain ⟨more, hmore⟩ := Nat.exists_eq_add_of_le (Int.toNat_le_toNat h)
  rw [run, hmore, runFrom_add]
  exact if_neg hending

end Endings

/-- What the three endings leave behind. -/
theorem Run.execution_cases (r : Run) :
    (r.ending = .halted ∧ r.execution = ⟨.ok r.steps, r.machine.ram, []⟩) ∨
    (r.ending = .stopped ∧
      r.execution = ⟨.ok r.steps, r.machine.ram, [.stopped r.steps r.machine.pc]⟩) ∨
    ∃ f, r.ending = .fault f ∧ r.execution = ⟨.error (.fault f), r.machine.ram, []⟩ := by
  cases hending : r.ending with
  | halted => exact .inl ⟨rfl, by simp [Run.execution, Run.notices, hending]⟩
  | stopped => exact .inr (.inl ⟨rfl, by simp [Run.execution, Run.notices, hending]⟩)
  | fault f => exact .inr (.inr ⟨f, rfl, by simp [Run.execution, Run.notices, hending]⟩)

/-! ### The states of a run -/

section States

variable (program : Array Instruction) (ram : Memory) (limit : Int)

/-- A run has a state before each step and one after the last. -/
theorem length_states :
    (states program ram limit).length = (run program ram limit).steps + 1 := by
  have := length_trace program 0 limit.toNat (.start ram)
  rwa [Nat.zero_add] at this

/-- The last of the states is the one that the run ends in. -/
theorem getElem?_states_steps :
    (states program ram limit)[(run program ram limit).steps]? =
      some (run program ram limit).machine := by
  have hlast := getLast?_trace program 0 limit.toNat (.start ram)
  have hlength := length_states program ram limit
  rw [List.getLast?_eq_getElem?] at hlast
  rw [states] at hlength ⊢
  rwa [hlength, Nat.add_sub_cancel] at hlast

end States

/-- **The limit only cuts a run short.** A run with a lower limit makes the first steps of the run
with a higher one, as many as it is allowed, and is in the state that the other had there. If it ends
by itself or by a fault, the other ends so, too. If it is stopped, this is reported after just as many
steps as it was allowed, at an instruction of the program. -/
theorem run_cut_short (program : Array Instruction) (ram : Memory) {k m : Int} (h : k ≤ m) :
    let short := run program ram k
    let long := run program ram m
    (short.steps : Int) = min (max 0 k) long.steps ∧
    states program ram k = (states program ram m).take (short.steps + 1) ∧
    (states program ram m)[short.steps]? = some short.machine ∧
    (∀ n, short.execution.result = .ok n → (n : Int) ≤ max 0 k) ∧
    (∀ n, short.execution.result = .ok n → short.execution.notices = [] →
      long.execution = short.execution) ∧
    (∀ e, short.execution.result = .error e → long.execution = short.execution) ∧
    ∀ notice ∈ short.execution.notices, ∃ n pc : Nat, notice = .stopped n pc ∧
      short.execution.result = .ok n ∧ (n : Int) = max 0 k ∧ pc < program.size := by
  intro short long
  have hlimit : ((k.toNat : Nat) : Int) = max 0 k := by omega
  have htake : states program ram k = (states program ram m).take (k.toNat + 1) :=
    trace_eq_take (Machine.next? program) (Int.toNat_le_toNat h) (.start ram)
  have hshort : (states program ram k).length = short.steps + 1 := length_states program ram k
  have hlong : (states program ram m).length = long.steps + 1 := length_states program ram m
  have hsteps : short.steps = min k.toNat long.steps := by
    rw [htake, List.length_take, hlong] at hshort
    omega
  have hfirst : states program ram k = (states program ram m).take (short.steps + 1) := by
    rw [htake, List.take_eq_take_iff, hlong]
    omega
  refine ⟨by omega, hfirst, ?_, ?_⟩
  · have hlast : (states program ram k)[short.steps]? = some short.machine :=
      getElem?_states_steps program ram k
    rwa [hfirst, List.getElem?_take_of_lt (Nat.lt_succ_self _)] at hlast
  have hsame (hending : short.ending ≠ .stopped) : long.execution = short.execution :=
    congrArg Run.execution (run_of_not_stopped h hending)
  rcases short.execution_cases with ⟨hending, hexec⟩ | ⟨hending, hexec⟩ | ⟨f, hending, hexec⟩
  · have hlong := hsame (by rw [hending]; decide)
    rw [hexec] at hlong ⊢
    refine ⟨?_, fun _ _ _ => hlong, nofun, nofun⟩
    rintro n ⟨⟩
    omega
  · have hall : short.steps = 0 + k.toNat := steps_of_stopped hending
    rw [hexec]
    refine ⟨?_, nofun, nofun, ?_⟩
    · rintro n ⟨⟩
      omega
    · rintro notice (_ | ⟨_, ⟨⟩⟩)
      exact ⟨_, _, rfl, rfl, by omega, pc_of_stopped hending⟩
  · have hlong := hsame (by rw [hending]; nofun)
    rw [hexec] at hlong ⊢
    exact ⟨nofun, nofun, fun _ _ => hlong, nofun⟩

/-- A limit that ends just before a fault hides it: the run is stopped, and reports where. -/
theorem run_cut_short_before_fault :
    ∃ program, assemble "@5\nM=1".toList = .ok program ∧
      (run program #[7, 8] 2).execution.result = .error (.fault ⟨2, 5⟩) ∧
      ((run program #[7, 8] 1).steps : Int) = min (max 0 1) (run program #[7, 8] 2).steps ∧
      (states program #[7, 8] 2)[1]? = some (run program #[7, 8] 1).machine ∧
      ∀ notice ∈ (run program #[7, 8] 1).execution.notices,
        ∃ n pc : Nat, notice = .stopped n pc ∧ (n : Int) = 1 ∧ pc < program.size := by
  have hprogram : assemble "@5\nM=1".toList =
      .ok #[⟨.address 5, 1⟩, ⟨.compute [.m] .one false .never, 2⟩] := rfl
  obtain ⟨hsteps, -, hstate, -, -, -, hnotices⟩ :=
    run_cut_short #[⟨.address 5, 1⟩, ⟨.compute [.m] .one false .never, 2⟩] #[7, 8]
      (show (1 : Int) ≤ 2 by decide)
  refine ⟨_, hprogram, rfl, hsteps, hstate, fun notice hnotice => ?_⟩
  obtain ⟨n, pc, hstopped, -, hn, hpc⟩ := hnotices notice hnotice
  exact ⟨n, pc, hstopped, hn, hpc⟩

end HackStack.Hack
