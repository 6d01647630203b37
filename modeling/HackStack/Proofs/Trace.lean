import HackStack.Proofs.Processor
import Mathlib.Data.List.Forall2

/-!
# The states of a run

A run is told by its end. To say what holds at every step of it one needs the states on
the way: `trace` lists them, for any system that makes one step after the other. The
trace of a machine ends where its run does, and has one state more than the run has
steps (`getLast?_trace`, `length_trace`).

What a step keeps holds along the trace, between one state and the next (`isChain_trace`)
and between two systems that go in step (`forall₂_trace`).
-/

namespace HackStack.Hack

/-! ### Traces -/

/-- The states of a system that makes at most `limit` steps, from the first to the last. -/
def trace {σ : Type} (next? : σ → Option σ) : Nat → σ → List σ
  | 0, s => [s]
  | limit + 1, s =>
    match next? s with
    | none => [s]
    | some s' => s :: trace next? limit s'

section Trace

variable {σ τ : Type} {next? : σ → Option σ} {s s' : σ}

theorem trace_of_none (h : next? s = none) (limit : Nat) : trace next? limit s = [s] := by
  cases limit with
  | zero => rfl
  | succ limit => rw [trace, h]

theorem trace_of_some (h : next? s = some s') (limit : Nat) :
    trace next? (limit + 1) s = s :: trace next? limit s' := by
  rw [trace, h]

/-- A trace starts with the state that the system starts from. -/
theorem exists_trace_eq_cons (next? : σ → Option σ) (limit : Nat) (s : σ) :
    ∃ more, trace next? limit s = s :: more := by
  cases limit with
  | zero => exact ⟨[], rfl⟩
  | succ limit =>
    cases h : next? s with
    | none => exact ⟨[], trace_of_none h _⟩
    | some s' => exact ⟨_, trace_of_some h limit⟩

/-- **Along a trace** an invariant gives what relates each state to the next. -/
theorem isChain_trace {P : σ → Prop} {R : σ → σ → Prop}
    (hstep : ∀ s s', P s → next? s = some s' → P s' ∧ R s s') (limit : Nat) (h : P s) :
    (trace next? limit s).IsChain R := by
  induction limit generalizing s with
  | zero => exact .singleton s
  | succ limit ih =>
    cases hs : next? s with
    | none =>
      rw [trace_of_none hs]
      exact .singleton s
    | some s' =>
      obtain ⟨hs', hr⟩ := hstep s s' h hs
      obtain ⟨more, hmore⟩ := exists_trace_eq_cons next? limit s'
      have htail := ih hs'
      rw [trace_of_some hs, hmore]
      rw [hmore] at htail
      exact .cons_cons hr htail

/-- **Two systems in step**: what relates their states at the start, and is kept when both make a
step, relates them at every step. They stop together. -/
theorem forall₂_trace {next₂? : τ → Option τ} {R : σ → τ → Prop}
    (hstep : ∀ s t, R s t → Option.Rel R (next? s) (next₂? t)) (limit : Nat) {t : τ} (h : R s t) :
    List.Forall₂ R (trace next? limit s) (trace next₂? limit t) := by
  induction limit generalizing s t with
  | zero => exact .cons h .nil
  | succ limit ih =>
    have hnext := hstep s t h
    cases hs : next? s with
    | none =>
      cases ht : next₂? t with
      | none =>
        rw [trace_of_none hs, trace_of_none ht]
        exact .cons h .nil
      | some t' => rw [hs, ht] at hnext; cases hnext
    | some s' =>
      cases ht : next₂? t with
      | none => rw [hs, ht] at hnext; cases hnext
      | some t' =>
        rw [hs, ht] at hnext
        cases hnext with
        | some hr =>
          rw [trace_of_some hs, trace_of_some ht]
          exact .cons h (ih hr)

end Trace

/-! ### The steps of the machine -/

/-- The state after the next instruction: none at the end of the program, and none where the
instruction is a fault. -/
def Machine.next? (program : Array Instruction) (m : Machine) : Option Machine :=
  match program[m.pc]? with
  | none => none
  | some i =>
    match m.fault? i with
    | some _ => none
    | none => some (m.execute i.operation)

section Step

variable {program : Array Instruction} {m m' : Machine}

/-- **What a step is**: an instruction of the program is carried out that is no fault. -/
theorem Machine.next?_eq_some_iff :
    m.next? program = some m' ↔
      ∃ i, program[m.pc]? = some i ∧ m.fault? i = none ∧ m.execute i.operation = m' := by
  unfold Machine.next?
  constructor
  · intro h
    split at h
    · cases h
    · rename_i i hi
      split at h
      · cases h
      · rename_i hfault
        exact ⟨i, hi, hfault, Option.some.inj h⟩
  · rintro ⟨i, hi, hfault, rfl⟩
    simp only [hi, hfault]

/-- A run goes on after a step. -/
theorem runFrom_of_next? (h : m.next? program = some m') (steps limit : Nat) :
    runFrom program steps (limit + 1) m = runFrom program (steps + 1) limit m' := by
  obtain ⟨i, hi, hfault, rfl⟩ := Machine.next?_eq_some_iff.mp h
  rw [runFrom]
  simp only [hi, hfault]

/-- A run ends where no step can be made. -/
theorem exists_runFrom_of_next?_none (h : m.next? program = none) (steps limit : Nat) :
    ∃ ending, runFrom program steps limit m = ⟨m, steps, ending⟩ := by
  cases limit with
  | zero => exact ⟨_, rfl⟩
  | succ limit =>
    cases hi : program[m.pc]? with
    | none =>
      rw [runFrom]
      simp only [hi]
      exact ⟨_, rfl⟩
    | some i =>
      cases hfault : m.fault? i with
      | some f =>
        rw [runFrom]
        simp only [hi, hfault]
        exact ⟨_, rfl⟩
      | none =>
        have hstep := Machine.next?_eq_some_iff.mpr ⟨i, hi, hfault, rfl⟩
        rw [h] at hstep
        cases hstep

/-- **The trace of a run** ends in its last state. -/
theorem getLast?_trace (program : Array Instruction) (steps limit : Nat) (m : Machine) :
    (trace (Machine.next? program) limit m).getLast? =
      some (runFrom program steps limit m).machine := by
  induction limit generalizing steps m with
  | zero => rfl
  | succ limit ih =>
    cases hm : m.next? program with
    | none =>
      obtain ⟨ending, hrun⟩ := exists_runFrom_of_next?_none hm steps (limit + 1)
      rw [trace_of_none hm, hrun]
      rfl
    | some m' =>
      obtain ⟨more, hmore⟩ := exists_trace_eq_cons (Machine.next? program) limit m'
      rw [trace_of_some hm, runFrom_of_next? hm, ← ih (steps + 1), hmore]
      rfl

/-- It has a state before each step and one after the last. -/
theorem length_trace (program : Array Instruction) (steps limit : Nat) (m : Machine) :
    steps + (trace (Machine.next? program) limit m).length =
      (runFrom program steps limit m).steps + 1 := by
  induction limit generalizing steps m with
  | zero => rfl
  | succ limit ih =>
    cases hm : m.next? program with
    | none =>
      obtain ⟨ending, hrun⟩ := exists_runFrom_of_next?_none hm steps (limit + 1)
      rw [trace_of_none hm, hrun]
      rfl
    | some m' =>
      rw [trace_of_some hm, runFrom_of_next? hm, ← ih (steps + 1), List.length_cons]
      omega

end Step

end HackStack.Hack
