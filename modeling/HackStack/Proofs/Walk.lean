import HackStack.Proofs.Transcript

/-!
# Walks of a cursor

A caller does one thing after the other to a cursor: it asks for the current command, it
advances, it steps an iterator, and it goes on after a failure. An iterator has no place
of its own, so that its steps and the advances move the same cursor.

Each such act is an `Event`. An event reads a line if it is an advance, or a step of an
iterator, made while there are lines left; all other events leave the cursor as it is
(`event_of_some`, `event_of_idle`). So at every moment of a walk the lines that were read
are the first ones of the source, each once and in order, and the current command is the
last one that could be read (`HasRead`, `HasRead.walk`).
-/

namespace HackStack.Stack

/-- The lines of a source that are not blank, as they stand there, with their numbers counted from
one. -/
def writtenLines (source : Text) : List (Text × Nat) :=
  ((Text.feedLines source).zipIdx 1).filter fun line => !(Text.code line.1).isEmpty

/-- The lines of code are the code of the lines that are not blank. -/
theorem sourceLines_eq_map (source : Text) :
    sourceLines source = (writtenLines source).map fun line => ⟨line.2, Text.code line.1⟩ := by
  rw [sourceLines, CodeLine.ofLines, writtenLines, ← List.filterMap_eq_map,
    List.filterMap_filter]
  congr 1
  funext line
  cases hcode : (Text.code line.1).isEmpty <;> simp [CodeLine.ofLine?, hcode]

/-- The first operand of what is read on a line is not empty. -/
theorem operand1_ne_nil_of_ofWords {word : Text} {operands : List Text} {n : Int} {op : Operation}
    (h : Operation.ofWords word operands n = .ok op) {t : Text} (ht : op.operand1? = some t) :
    t ≠ [] := by
  unfold Operation.ofWords at h
  split at h
  · rename_i arithmetic _
    cases h
    cases ht
    cases arithmetic <;> decide
  · split at h
    · cases h
      cases ht
    · split at h
      · cases h
      · rename_i keyword _
        cases hname : nameOperand word operands n with
        | error e => rw [hname] at h; cases h
        | ok name =>
          rw [hname] at h
          have hne : name ≠ [] := by
            unfold nameOperand at hname
            split at hname
            · split at hname
              · cases hname
              · rename_i hempty
                cases hname
                simpa using hempty
            · cases hname
          -- every keyword has the name for its first operand
          cases hindex : indexOperand word operands n <;> rw [hindex] at h <;>
            cases keyword <;> cases h <;> cases ht <;> exact hne

namespace Cursor

/-! ### Events -/

/-- What a caller does to a cursor. -/
inductive Act where
  | hasMore
  | advance
  | kind
  | operand1
  | operand2
  | lineNumber
  /-- Step an iterator. -/
  | next
  deriving DecidableEq, Repr

/-- What an act gives if it does not fail. -/
abbrev Act.Answer : Act → Type
  | .hasMore => Bool
  | .advance => Unit
  | .kind => Kind
  | .operand1 => Text
  | .operand2 => Nat
  | .lineNumber => Option Int
  | .next => Option Command

/-- Do something to a cursor. -/
def perform (c : Cursor) : (act : Act) → Except Failure act.Answer × Cursor
  | .hasMore => (.ok c.hasMore, c)
  | .advance => c.advance
  | .kind => (c.kind, c)
  | .operand1 => (c.operand1, c)
  | .operand2 => (c.operand2, c)
  | .lineNumber => (.ok c.lineNumber, c)
  | .next => c.next

/-- An act, its answer, and the cursor before and after it. -/
structure Event where
  act : Act
  before : Cursor
  answer : Except Failure act.Answer
  after : Cursor

/-- What happens when something is done to a cursor. -/
def event (c : Cursor) (act : Act) : Event := ⟨act, c, (c.perform act).1, (c.perform act).2⟩

/-- What a line is read as by an event that reads one: an advance, or a step of an iterator, made
while there are lines left. -/
def Event.reading? : Event → Option (Except Failure (Option Command))
  | ⟨.advance, before, answer, after⟩ =>
    if before.hasMore then some (answer.map fun _ => after.current) else none
  | ⟨.next, before, answer, _⟩ => if before.hasMore then some answer else none
  | _ => none

/-- What lines are read as by events, in order. -/
def readings (events : List Event) : List (Except Failure (Option Command)) :=
  events.filterMap Event.reading?

/-- The commands among what was read. -/
def successes (results : List (Except Failure (Option Command))) : List (Option Command) :=
  results.filterMap Except.toOption

/-- What the lines of a source are read as. -/
def lineReadings (source : Text) : List (Except Failure (Option Command)) :=
  (writtenLines source).map fun line => Command.parse line.1 line.2

/-- The cursor behind its next line. A line that cannot be read leaves the current command. -/
def past (c : Cursor) (line : CodeLine) : Cursor :=
  { c with
    position := c.position + 1
    current := (Command.parse line.code line.number).toOption.getD c.current }

section Event

variable {c : Cursor} {line : CodeLine} {act : Act}

theorem hasMore_of_some (h : c.lines[c.position]? = some line) : c.hasMore = true :=
  decide_eq_true (List.getElem?_eq_some_iff.mp h).1

theorem advance_of_some (h : c.lines[c.position]? = some line) :
    c.advance = ((Command.parse line.code line.number).map fun _ => (), c.past line) := by
  unfold advance past
  rw [h]
  cases hparse : Command.parse line.code line.number <;> simp [hparse, Except.map, Except.toOption]

theorem next_of_some (h : c.lines[c.position]? = some line) :
    c.next = (Command.parse line.code line.number, c.past line) := by
  unfold next
  rw [if_pos (hasMore_of_some h), advance_of_some h]
  cases hparse : Command.parse line.code line.number <;>
    simp [past, hparse, Except.map, Except.toOption]

theorem next_of_none (h : c.lines[c.position]? = none) : c.next = (.ok none, c) := by
  have hmore : ¬ c.hasMore = true := by
    simpa [hasMore] using List.getElem?_eq_none_iff.mp h
  rw [next, if_neg hmore]

theorem advance_of_none (h : c.lines[c.position]? = none) :
    c.advance = (.error (.diagnostic ⟨.exhausted, none⟩), c) := by
  rw [advance, h]

/-- **An event that reads** the next line gives what is read there, and uses it up. -/
theorem event_of_some (h : c.lines[c.position]? = some line) (hact : act = .advance ∨ act = .next) :
    (c.event act).reading? = some (Command.parse line.code line.number) ∧
      (c.event act).after = c.past line := by
  have hmore := hasMore_of_some h
  rcases hact with rfl | rfl
  · simp only [event, perform, advance_of_some h, Event.reading?, hmore, if_true, past]
    cases Command.parse line.code line.number <;> simp [Except.map, Except.toOption]
  · simp only [event, perform, next_of_some h, Event.reading?, hmore, if_true, and_self]

/-- **Every other event** reads no line and leaves the cursor as it is. -/
theorem event_of_idle (h : c.lines[c.position]? = none ∨ act ≠ .advance ∧ act ≠ .next) :
    (c.event act).reading? = none ∧ (c.event act).after = c := by
  cases act with
  | hasMore | kind | operand1 | operand2 | lineNumber => exact ⟨rfl, rfl⟩
  | advance | next =>
    have hnone := h.resolve_right (by simp)
    have hmore : c.hasMore = false := by
      simpa [hasMore] using List.getElem?_eq_none_iff.mp hnone
    simp [event, perform, advance_of_none hnone, next_of_none hnone, Event.reading?, hmore]

/-- An event reads the next line, or it does nothing. -/
theorem event_cases (c : Cursor) (act : Act) :
    (∃ line, c.lines[c.position]? = some line ∧
      (c.event act).reading? = some (Command.parse line.code line.number) ∧
      (c.event act).after = c.past line) ∨
    (c.event act).reading? = none ∧ (c.event act).after = c := by
  cases hline : c.lines[c.position]? with
  | none => exact .inr (event_of_idle (.inl hline))
  | some line =>
    by_cases hact : act = .advance ∨ act = .next
    · exact .inl ⟨line, rfl, event_of_some hline hact⟩
    · exact .inr (event_of_idle (.inr (not_or.mp hact)))

end Event

/-! ### Walks -/

/-- Events that follow each other lead from one cursor to another. -/
inductive Walk : Cursor → List Event → Cursor → Prop
  | nil (c : Cursor) : Walk c [] c
  | cons {c c' : Cursor} {events : List Event} (act : Act) : Walk (c.event act).after events c' →
      Walk c (c.event act :: events) c'

section Walk

variable {c c₁ c₂ : Cursor} {events past future : List Event}

theorem walk_single (c : Cursor) (act : Act) : Walk c [c.event act] (c.event act).after :=
  .cons act (.nil _)

theorem Walk.append (h : Walk c past c₁) (h' : Walk c₁ future c₂) : Walk c (past ++ future) c₂ := by
  induction h with
  | nil c => exact h'
  | cons act _ ih => exact .cons act (ih h')

/-- A walk can be cut at every moment. -/
theorem Walk.exists_of_append (h : Walk c (past ++ future) c₂) :
    ∃ c₁, Walk c past c₁ ∧ Walk c₁ future c₂ := by
  induction past generalizing c with
  | nil => exact ⟨c, .nil c, h⟩
  | cons e past ih =>
    cases h with
    | cons act h =>
      obtain ⟨c₁, hpast, hfuture⟩ := ih h
      exact ⟨c₁, .cons act hpast, hfuture⟩

/-- An event of a walk is an act on a cursor that the walk comes to. -/
theorem Walk.exists_of_mem (h : Walk c events c₂) {e : Event} (he : e ∈ events) :
    ∃ past c₁ act, Walk c past c₁ ∧ e = c₁.event act := by
  induction h with
  | nil => cases he
  | @cons c _ _ act _ ih =>
    rcases List.mem_cons.mp he with rfl | he
    · exact ⟨[], c, act, .nil c, rfl⟩
    · obtain ⟨past, c₁, act', hpast, rfl⟩ := ih he
      exact ⟨_, c₁, act', .cons act hpast, rfl⟩

end Walk

/-! ### What was read -/

/-- **What a cursor has read** after events: the first lines of the source, as many as its position
says, each once and in order. The current command is the last that could be read. -/
structure HasRead (source : Text) (events : List Event) (c : Cursor) : Prop where
  lines : c.lines = sourceLines source
  position_eq : c.position = (readings events).length
  position_le : c.position ≤ c.lines.length
  readings_eq : readings events = (lineReadings source).take c.position
  current_eq : ∃ commands : List Command, successes (readings events) = commands.map some ∧
    c.current = commands.getLast?

theorem hasRead_start (source : Text) : HasRead source [] (ofSource source) where
  lines := rfl
  position_eq := rfl
  position_le := Nat.zero_le _
  readings_eq := rfl
  current_eq := ⟨[], rfl, rfl⟩

section HasRead

variable {source : Text} {events more : List Event} {c c' : Cursor} {line : CodeLine}

/-- The line at the position of a cursor is one of the source. -/
theorem HasRead.exists_line (h : HasRead source events c) (hline : c.lines[c.position]? = some line) :
    (lineReadings source)[c.position]? = some (Command.parse line.code line.number) ∧
      Command.parse line.code line.number ≠ .ok none := by
  rw [h.lines, sourceLines_eq_map, List.getElem?_map] at hline
  obtain ⟨written, hwritten, rfl⟩ := Option.map_eq_some_iff.mp hline
  refine ⟨?_, fun hnone => ?_⟩
  · rw [lineReadings, List.getElem?_map, hwritten, Option.map_some, parse_code]
  · have hcode := (List.mem_filter.mp (List.mem_of_getElem? hwritten)).2
    have hblank := code_of_parse_none hnone
    rw [Text.code_code] at hblank
    simp [hblank] at hcode

/-- **One event** reads the next line of the source, or none. -/
theorem HasRead.event (h : HasRead source events c) (act : Act) :
    HasRead source (events ++ [c.event act]) (c.event act).after := by
  rcases event_cases c act with ⟨line, hline, hreading, hafter⟩ | ⟨hreading, hafter⟩
  · obtain ⟨hread, hsome⟩ := h.exists_line hline
    have hreadings : readings (events ++ [c.event act]) =
        readings events ++ [Command.parse line.code line.number] := by
      simp [readings, hreading]
    obtain ⟨commands, hcommands, hcurrent⟩ := h.current_eq
    rw [successes] at hcommands
    rw [hafter]
    constructor
    · exact h.lines
    · rw [hreadings, List.length_append, ← h.position_eq]
      rfl
    · exact (List.getElem?_eq_some_iff.mp hline).1
    · rw [hreadings, h.readings_eq, past, List.take_add_one, hread]
      rfl
    · rw [hreadings, successes, List.filterMap_append]
      cases hparse : Command.parse line.code line.number with
      | error f =>
        refine ⟨commands, ?_, ?_⟩
        · simp [hcommands, Except.toOption]
        · simpa [past, hparse, Except.toOption] using hcurrent
      | ok command =>
        cases command with
        | none => exact absurd hparse hsome
        | some command =>
          refine ⟨commands ++ [command], ?_, ?_⟩
          · simp [hcommands, Except.toOption]
          · simp [past, hparse, Except.toOption]
  · have hreadings : readings (events ++ [c.event act]) = readings events := by
      simp [readings, hreading]
    rw [hafter]
    constructor
    · exact h.lines
    · rw [hreadings]; exact h.position_eq
    · exact h.position_le
    · rw [hreadings]; exact h.readings_eq
    · rw [hreadings]; exact h.current_eq

/-- **Every moment of a walk.** -/
theorem HasRead.walk (h : HasRead source events c) (hwalk : Walk c more c') :
    HasRead source (events ++ more) c' := by
  induction hwalk generalizing events with
  | nil c => rwa [List.append_nil]
  | @cons c _ _ act _ ih =>
    have := ih (h.event act)
    rwa [List.append_assoc] at this

end HasRead

/-! ### Calls -/

/-- What a caller asks for: a single act, or to step a new iterator until it ends. -/
inductive Call where
  | single (act : Act)
  | drain
  deriving DecidableEq, Repr

/-- The steps of an iterator when these lines are left: one for each of them, up to the first that
cannot be read, and one at the end that finds no line. -/
def iteration (c : Cursor) : List CodeLine → List Event
  | [] => [c.event .next]
  | _ :: left =>
    match c.next with
    | (.ok (some _), c') => c.event .next :: c'.iteration left
    | _ => [c.event .next]

/-- The events of a call. -/
def Call.events (c : Cursor) : Call → List Event
  | .single act => [c.event act]
  | .drain => c.iteration (c.lines.drop c.position)

/-- The cursor after a call. -/
def Call.after (c : Cursor) : Call → Cursor
  | .single act => (c.perform act).2
  | .drain => c.drain.2

/-- The events of calls one after the other. -/
def history (c : Cursor) : List Call → List Event
  | [] => []
  | call :: more => call.events c ++ history (call.after c) more

/-- The cursor after calls one after the other. -/
def afterCalls (c : Cursor) (calls : List Call) : Cursor := calls.foldl Call.after c

section Calls

variable {source : Text} {events : List Event} {c : Cursor}

/-- **To drain** a cursor is to step an iterator until it ends: the cursor is where the steps lead,
and the answer is what they read. -/
theorem HasRead.drainOnto (h : HasRead source events c) {left : List CodeLine}
    (hleft : c.lines.drop c.position = left) (acc : List Command) :
    Walk c (c.iteration left) (Cursor.drainOnto acc c left).2 ∧
      (Cursor.drainOnto acc c left).1.map (List.map some) =
        ((readings (c.iteration left)).mapM id).map (acc.reverse.map some ++ ·) := by
  induction left generalizing c events acc with
  | nil =>
    have hnone : c.lines[c.position]? = none := by
      rw [← List.head?_drop, hleft]
      rfl
    have ⟨hreading, hafter⟩ : (c.event .next).reading? = none ∧ (c.event .next).after = c :=
      event_of_idle (.inl hnone)
    have hwalk := walk_single c .next
    rw [hafter] at hwalk
    refine ⟨hwalk, ?_⟩
    simp [Cursor.drainOnto, iteration, readings, hreading, Except.map, pure, Except.pure]
  | cons line left ih =>
    have hline : c.lines[c.position]? = some line := by
      rw [← List.head?_drop, hleft]
      rfl
    have hnext := next_of_some hline
    obtain ⟨hreading, hafter⟩ := event_of_some hline (.inr rfl)
    have hwalk := walk_single c .next
    rw [hafter] at hwalk
    cases hparse : Command.parse line.code line.number with
    | error f =>
      rw [hparse] at hnext hreading
      simp only [iteration, Cursor.drainOnto, hnext]
      exact ⟨hwalk, by simp [readings, hreading, Except.map, bind, Except.bind]⟩
    | ok command =>
      cases command with
      | none => exact absurd hparse (h.exists_line hline).2
      | some command =>
        rw [hparse] at hnext hreading
        have hrest : (c.past line).lines.drop (c.past line).position = left := by
          rw [past, ← List.drop_drop, hleft]
          rfl
        obtain ⟨hmore, hanswer⟩ := ih (hafter ▸ h.event .next) hrest (command :: acc)
        simp only [iteration, Cursor.drainOnto, hnext]
        refine ⟨.cons .next (hafter ▸ hmore), ?_⟩
        rw [hanswer]
        have hreadings : readings (c.event .next :: (c.past line).iteration left) =
            .ok (some command) :: readings ((c.past line).iteration left) := by
          simp [readings, hreading]
        rw [hreadings, List.mapM_cons]
        cases hrest : (readings ((c.past line).iteration left)).mapM id <;>
          simp [Except.map, bind, Except.bind, pure, Except.pure]

/-- **Calls make a walk**, whatever they are. -/
theorem HasRead.walk_history (h : HasRead source events c) (calls : List Call) :
    Walk c (c.history calls) (c.afterCalls calls) := by
  induction calls generalizing c events with
  | nil => exact .nil c
  | cons call more ih =>
    have hcall : Walk c (call.events c) (call.after c) := by
      cases call with
      | single act => exact walk_single c act
      | drain => exact (h.drainOnto rfl []).1
    exact hcall.append (ih (h.walk hcall))

/-- The first operand of the current command is not empty. -/
theorem HasRead.operand1_ne_nil (h : HasRead source events c) {t : Text}
    (ht : c.current.bind Command.operand1? = some t) : t ≠ [] := by
  obtain ⟨command, hcurrent, hoperand⟩ := Option.bind_eq_some_iff.mp ht
  obtain ⟨commands, hcommands, hlast⟩ := h.current_eq
  -- the current command is what a line of the source was read as
  have hmem : some command ∈ successes (readings events) := by
    rw [hcommands]
    exact List.mem_map_of_mem (List.mem_of_getLast? (hlast ▸ hcurrent))
  obtain ⟨result, hresult, hok⟩ := List.mem_filterMap.mp hmem
  rw [h.readings_eq] at hresult
  obtain ⟨line, -, hparse⟩ := List.mem_map.mp (List.mem_of_mem_take hresult)
  cases result with
  | error f => cases hok
  | ok value =>
    cases hok
    obtain ⟨-, hop, -⟩ := operationOf_of_parse hparse
    exact operand1_ne_nil_of_ofWords hop hoperand

/-- An advance says that there are no more commands exactly at the end of the lines. -/
theorem HasRead.advance_eq_exhausted_iff (h : HasRead source events c) :
    c.advance.1 = .error (.diagnostic ⟨.exhausted, none⟩) ↔ c.position = c.lines.length := by
  cases hline : c.lines[c.position]? with
  | none =>
    have hle := List.getElem?_eq_none_iff.mp hline
    rw [advance_of_none hline]
    exact ⟨fun _ => Nat.le_antisymm h.position_le hle, fun _ => rfl⟩
  | some line =>
    have hlt := (List.getElem?_eq_some_iff.mp hline).1
    refine ⟨fun hexhausted => ?_, fun hend => absurd hend (Nat.ne_of_lt hlt)⟩
    rw [advance_of_some hline] at hexhausted
    cases hparse : Command.parse line.code line.number with
    | ok command => rw [hparse] at hexhausted; cases hexhausted
    | error f =>
      -- a fault on a line names the line
      rw [hparse] at hexhausted
      have hline := (arisesOn_parse hparse).isAt _ (Except.error.inj hexhausted)
      cases hline

theorem operand1_eq_ok {t : Text} (h : c.operand1 = .ok t) :
    c.current.bind Command.operand1? = some t := by
  unfold operand1 command at h
  cases hcurrent : c.current with
  | none => rw [hcurrent] at h; cases h
  | some command =>
    rw [hcurrent] at h
    simp only at h
    split at h
    · cases h; assumption
    · cases h

theorem operand2_eq_ok {n : Nat} (h : c.operand2 = .ok n) :
    c.current.bind Command.operand2? = some n := by
  unfold operand2 command at h
  cases hcurrent : c.current with
  | none => rw [hcurrent] at h; cases h
  | some command =>
    rw [hcurrent] at h
    simp only at h
    split at h
    · cases h; assumption
    · cases h

end Calls

/-- **Nothing is lost and nothing is repeated.** Whatever is asked of a cursor over a source, and
also after failures: at every moment it has read the first lines of the source that are not blank,
each once and in order, as many as its position says, and its current command is the last one that
could be read. An event that reads a line moves the position by one, and every other event changes
nothing. An advance says that there are no more commands exactly at the end of the lines. An operand
that is given belongs to the current command, and the first is not empty. To drain the cursor gives
what the steps of an iterator read until it ends. -/
theorem history_reads_lines_in_order (source : Text) (calls : List Call) :
    let start := ofSource source
    let events := start.history calls
    let final := start.afterCalls calls
    (∀ past future, events = past ++ future →
      ∃ c, Walk start past c ∧ Walk c future final ∧ HasRead source past c) ∧
    (∀ e ∈ events,
      (e.reading?.isSome = true → e.after.position = e.before.position + 1) ∧
      (e.reading? = none → e.after = e.before)) ∧
    (∀ before answer after, ⟨.advance, before, answer, after⟩ ∈ events →
      (answer = .error (.diagnostic ⟨.exhausted, none⟩) ↔
        before.position = before.lines.length)) ∧
    (∀ before t after, ⟨.operand1, before, .ok t, after⟩ ∈ events →
      before.current.bind Command.operand1? = some t ∧ t ≠ []) ∧
    (∀ before n after, ⟨.operand2, before, .ok n, after⟩ ∈ events →
      before.current.bind Command.operand2? = some n) ∧
    final.drain.1.map (List.map some) = (readings (Call.drain.events final)).mapM id := by
  intro start events final
  have hstart := hasRead_start source
  have hwalk : Walk start events final := hstart.walk_history calls
  have hmoment {e : Event} (he : e ∈ events) :
      ∃ past c act, HasRead source past c ∧ e = c.event act := by
    obtain ⟨past, c, act, hpast, rfl⟩ := hwalk.exists_of_mem he
    exact ⟨past, c, act, hstart.walk hpast, rfl⟩
  refine ⟨?_, ?_, ?_, ?_, ?_, ?_⟩
  · intro past future hevents
    obtain ⟨c, hpast, hfuture⟩ := (hevents ▸ hwalk).exists_of_append
    exact ⟨c, hpast, hfuture, hstart.walk hpast⟩
  · intro e he
    obtain ⟨past, c, act, -, rfl⟩ := hmoment he
    rcases event_cases c act with ⟨line, -, hreading, hafter⟩ | ⟨hreading, hafter⟩
    · rw [hreading, hafter]
      exact ⟨fun _ => rfl, nofun⟩
    · rw [hreading, hafter]
      exact ⟨nofun, fun _ => rfl⟩
  · intro before answer after he
    obtain ⟨past, c, act, hc, heq⟩ := hmoment he
    cases heq
    exact hc.advance_eq_exhausted_iff
  · intro before t after he
    obtain ⟨past, c, act, hc, heq⟩ := hmoment he
    simp only [event, Event.mk.injEq] at heq
    obtain ⟨rfl, rfl, hanswer, -⟩ := heq
    have hoperand := operand1_eq_ok (eq_of_heq hanswer).symm
    exact ⟨hoperand, hc.operand1_ne_nil hoperand⟩
  · intro before n after he
    obtain ⟨past, c, act, hc, heq⟩ := hmoment he
    simp only [event, Event.mk.injEq] at heq
    obtain ⟨rfl, rfl, hanswer, -⟩ := heq
    exact operand2_eq_ok (eq_of_heq hanswer).symm
  · refine ((hstart.walk hwalk).drainOnto rfl []).2.trans ?_
    exact congrFun Except.map_id _

/-- A word that starts no command is read by the iterator that is drained, which ends there. The
command before it stays current until the next line is read. -/
theorem history_reads_past_unknown_word :
    let source := "push local 7 // seven\n\nbogus\nadd".toList
    let calls := [.single .advance, .drain, .single .operand2, .single .next, .single .advance]
    ∃ c, Walk (ofSource source) ((ofSource source).history calls) c ∧
      HasRead source ((ofSource source).history calls) c ∧
      c.position = 3 ∧ c.current = some ⟨.arithmetic .add, 4⟩ := by
  intro source calls
  obtain ⟨c, hwalk, hend, hread⟩ :=
    (history_reads_lines_in_order source calls).1 _ [] (List.append_nil _).symm
  cases hend
  exact ⟨_, hwalk, hread, rfl, rfl⟩

end Cursor

end HackStack.Stack
