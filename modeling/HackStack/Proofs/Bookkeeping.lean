import HackStack.Proofs.Layout

/-!
# The books of a writer

A caller may ask anything of a writer at any time: to write a command or lines, to close,
to enter a block and to leave it, and it may go on after a failure and after the writer
was closed. Each such call is an `Event`.

A call that closes does so once. Every other call has lines to send, or is refused at once
and changes nothing (`perform_cases`): with a diagnostic, or because its index is too long to
be written. To send lines fails on a closed sink, and by then the number for the labels of a
comparison is already used up.

So what a writer has counted can be read off the calls that were made: they are in its
books (`Balanced`), whatever they were and however they ended (`Balanced.history`).
-/

namespace HackStack.Stack

open Hack

namespace Writer

/-! ### Calls -/

/-- What a caller asks of a writer. -/
inductive Call where
  | arithmetic (mnemonic : Text)
  | move (direction : Direction) (segment : Text) (index : Int)
  | write (lines : List Text)
  | close
  /-- Start a block at the end of which the writer is closed. -/
  | enter
  /-- End such a block. -/
  | leave
  deriving DecidableEq, Repr

/-- The words for comparisons. -/
def comparisonWords : List Text := ["eq".toList, "gt".toList, "lt".toList]

/-- Whether a call is for a comparison. -/
def Call.isComparison : Call → Bool
  | .arithmetic mnemonic => mnemonic ∈ comparisonWords
  | _ => false

/-- Whether a call closes the writer. -/
def Call.closes : Call → Bool
  | .close | .leave => true
  | _ => false

/-- Do what a call asks for, and give the lines that were sent. -/
def perform (w : Writer) : Call → Except Failure (List Text) × Writer
  | .arithmetic mnemonic => w.arithmetic mnemonic
  | .move direction segment index => w.move direction segment index
  | .write lines => ((w.write lines).1.map fun _ => lines, (w.write lines).2)
  | .enter => (.ok [], w)
  | .close | .leave => (.ok [], w.close.2)

/-- A call, how it ended, and the writer before and after it. -/
structure Event where
  call : Call
  before : Writer
  answer : Except Failure (List Text)
  after : Writer

/-- The lines of a call that succeeded. -/
def Event.sent (e : Event) : List Text := e.answer.toOption.getD []

/-- What happens at a call. -/
def event (w : Writer) (call : Call) : Event := ⟨call, w, (w.perform call).1, (w.perform call).2⟩

/-- What happens at calls one after the other. -/
def history (w : Writer) : List Call → List Event
  | [] => []
  | call :: more => w.event call :: (w.event call).after.history more

/-- The writer after calls one after the other. -/
def afterCalls (w : Writer) (calls : List Call) : Writer :=
  calls.foldl (fun w call => (w.perform call).2) w

theorem afterCalls_cons (w : Writer) (call : Call) (more : List Call) :
    w.afterCalls (call :: more) = (w.event call).after.afterCalls more := rfl

theorem map_call_history (w : Writer) (calls : List Call) :
    (w.history calls).map (·.call) = calls := by
  induction calls generalizing w with
  | nil => rfl
  | cons call more ih => rw [history, List.map_cons, ih]; rfl

/-! ### One call -/

/-- The lines that a call is to send, where the number is for the labels of a comparison. -/
def Call.lines (labels : Nat) : Call → Except Failure (List Text)
  | .arithmetic mnemonic =>
    match Arithmetic.ofText? mnemonic with
    | some op => .ok ((op.lines labels).map Line.render)
    | none => .error (unknownArithmetic mnemonic)
  | .move direction segment index =>
    (moveLines direction segment index).map (List.map Line.render)
  | .write lines => .ok lines
  | .close | .enter | .leave => .ok []

/-- The writer that has used up the number of a comparison's labels, if the call is for one. -/
def counted (w : Writer) (call : Call) : Writer :=
  { w with labels := w.labels + if call.isComparison then 1 else 0 }

/-- The sorts of diagnostics with which a call is refused. -/
def refusals : List Category :=
  [.unsupportedArithmetic, .unsupportedSegment, .invalidOperand, .invalidDirection]

section Lines

variable {w : Writer} {call : Call}

theorem sent_nil (w : Writer) : w.sent [] = w := by
  simp [sent, instructionCount]

/-- Lines are taken, unless the sink is closed and there is one. -/
theorem write_eq (w : Writer) (lines : List Text) :
    w.write lines = if w.sink.isClosed && !lines.isEmpty then (.error .closedSink, w)
      else (.ok (), w.sent lines) := by
  cases hclosed : w.sink.isClosed with
  | false => rw [w.write_of_open lines hclosed, foldl_put]; rfl
  | true =>
    cases lines with
    | nil => simp [write, sent_nil]
    | cons line more => rw [w.write_of_closed line more hclosed]; rfl

theorem isComparison_arithmetic (mnemonic : Text) :
    (Call.arithmetic mnemonic).isComparison =
      (Arithmetic.ofText? mnemonic).any Arithmetic.isComparison := by
  cases hop : Arithmetic.ofText? mnemonic with
  | some op =>
    obtain rfl := Arithmetic.ofText?_eq_some_iff.mp hop
    cases op <;> rfl
  | none =>
    have hne (op : Arithmetic) : mnemonic ≠ op.mnemonic := by
      intro heq
      rw [Arithmetic.ofText?_eq_some_iff.mpr heq] at hop
      cases hop
    have hwords : mnemonic ∉ comparisonWords := by
      simp only [comparisonWords, List.mem_cons, List.not_mem_nil, or_false, not_or]
      exact ⟨hne .eq, hne .gt, hne .lt⟩
    simpa [Call.isComparison] using hwords

theorem countLabels_eq (w : Writer) (mnemonic : Text) :
    w.countLabels mnemonic = w.counted (.arithmetic mnemonic) := by
  rw [countLabels, counted, isComparison_arithmetic]
  split <;> rfl

/-- How a call is refused: with one of four sorts of diagnostics, or because the index of a move
has too many digits. -/
def Call.IsRefused (call : Call) (f : Failure) : Prop :=
  (∃ d, f = .diagnostic d ∧ d.category ∈ refusals) ∨
    f = .numeral .unwritable ∧ ∃ direction segment index,
      call = .move direction segment index ∧ Numeral.isWritable index = false

theorem category_of_isRefusal {name : Text} {index : Int} {cause : Cause}
    (h : cause.IsRefusal name index) : cause.category ∈ refusals := by
  cases h <;> simp [Cause.category, refusals]

/-- What is not written out is refused as such, or its index has too many digits. -/
theorem of_writeOut_eq_error {name : Text} {index : Int} {code : Except Cause (List Line)}
    {f : Failure} (hbad : ∀ cause, code = .error cause → cause.IsRefusal name index)
    (hlong : Numeral.isWritable index = true →
      writeOut name index code = code.mapError fun cause => .diagnostic ⟨cause, none⟩)
    (h : writeOut name index code = .error f) :
    (∃ d, f = .diagnostic d ∧ d.category ∈ refusals) ∨
      f = .numeral .unwritable ∧ Numeral.isWritable index = false := by
  cases hindex : Numeral.isWritable index with
  | true =>
    rw [hlong hindex] at h
    cases code with
    | error cause => cases h; exact .inl ⟨_, rfl, category_of_isRefusal (hbad cause rfl)⟩
    | ok lines => cases h
  | false =>
    cases code with
    | error cause =>
      simp only [writeOut, Diagnostic.failure, Except.error.injEq] at h
      split at h
      · exact .inl ⟨_, h.symm, category_of_isRefusal (hbad cause rfl)⟩
      · exact .inr ⟨h.symm, rfl⟩
    | ok lines =>
      simp only [writeOut] at h
      split at h
      · cases h
      · cases h
        exact .inr ⟨rfl, rfl⟩

theorem isRefused_of_moveLines {direction : Direction} {segment : Text} {index : Int}
    {f : Failure} (h : moveLines direction segment index = .error f) :
    (Call.move direction segment index).IsRefused f := by
  have hmove : (∃ d, f = .diagnostic d ∧ d.category ∈ refusals) ∨
      f = .numeral .unwritable ∧ Numeral.isWritable index = false := by
    unfold moveLines at h
    split at h
    · exact of_writeOut_eq_error (fun _ => isRefusal_of_pushCode) (pushLines_of_isWritable _) h
    · exact of_writeOut_eq_error (fun _ => isRefusal_of_popCode) (popLines_of_isWritable _) h
    · cases h
      exact .inl ⟨_, rfl, by simp [Diagnostic.category, Cause.category, refusals]⟩
  exact hmove.imp_right fun ⟨hf, hindex⟩ => ⟨hf, direction, segment, index, rfl, hindex⟩

/-- What is refused is no comparison. -/
theorem of_lines_eq_error {labels : Nat} {f : Failure} (h : call.lines labels = .error f) :
    call.isComparison = false ∧ call.IsRefused f := by
  cases call with
  | arithmetic mnemonic =>
    rw [isComparison_arithmetic]
    rw [Call.lines] at h
    cases hop : Arithmetic.ofText? mnemonic with
    | some op => rw [hop] at h; cases h
    | none =>
      rw [hop] at h
      cases h
      exact ⟨rfl, .inl ⟨_, rfl, by simp [Diagnostic.category, Cause.category, refusals]⟩⟩
  | move direction segment index =>
    refine ⟨rfl, ?_⟩
    rw [Call.lines] at h
    cases hlines : moveLines direction segment index with
    | ok code => rw [hlines] at h; cases h
    | error e => rw [hlines] at h; cases h; exact isRefused_of_moveLines hlines
  | write _ | close | enter | leave => cases h

/-- Code is sent like the lines that it is written in. -/
theorem emit_eq (w : Writer) (code : List Line) :
    w.emit code = ((w.write (code.map Line.render)).1.map fun _ => code.map Line.render,
      (w.write (code.map Line.render)).2) := by
  rw [emit]
  split
  · rename_i hwrite; rw [hwrite]; rfl
  · rename_i hwrite; rw [hwrite]; rfl

/-- **A call that does not close** is refused, or it sends its lines. -/
theorem perform_of_not_closes (w : Writer) (h : call.closes = false) :
    w.perform call = match call.lines w.labels with
      | .error f => (.error f, w)
      | .ok lines => (((w.counted call).write lines).1.map fun _ => lines,
          ((w.counted call).write lines).2) := by
  cases call with
  | arithmetic mnemonic =>
    simp only [perform, arithmetic, Call.lines, countLabels_eq, emit_eq]
    cases Arithmetic.ofText? mnemonic <;> rfl
  | move direction segment index =>
    simp only [perform, move, Call.lines, emit_eq]
    cases moveLines direction segment index <;> rfl
  | write lines => rfl
  | enter => rfl
  | close | leave => cases h

/-- **What a call does**: it closes, it is refused, it fails on a closed sink, or it sends its
lines. -/
theorem perform_cases (w : Writer) (call : Call) :
    (call.closes = true ∧ w.perform call = (.ok [], w.close.2)) ∨
    call.closes = false ∧
      ((∃ f, call.lines w.labels = .error f ∧ w.perform call = (.error f, w)) ∨
      ∃ lines, call.lines w.labels = .ok lines ∧
        (w.sink.isClosed = true ∧ w.perform call = (.error .closedSink, w.counted call) ∨
        (w.sink.isClosed = true → lines = []) ∧
          w.perform call = (.ok lines, (w.counted call).sent lines))) := by
  cases hcloses : call.closes with
  | true =>
    refine .inl ⟨rfl, ?_⟩
    cases call with
    | close | leave => rfl
    | arithmetic _ | move _ _ _ | write _ | enter => cases hcloses
  | false =>
    refine .inr ⟨rfl, ?_⟩
    rw [perform_of_not_closes w hcloses]
    cases hlines : call.lines w.labels with
    | error f => exact .inl ⟨f, rfl, rfl⟩
    | ok lines =>
      refine .inr ⟨lines, rfl, ?_⟩
      have hsink : (w.counted call).sink = w.sink := rfl
      simp only [write_eq, hsink]
      split
      · rename_i hrefused
        rw [Bool.and_eq_true] at hrefused
        exact .inl ⟨hrefused.1, rfl⟩
      · rename_i htaken
        refine .inr ⟨fun hclosed => ?_, rfl⟩
        simpa [hclosed] using htaken

theorem event_of_closes (w : Writer) (h : call.closes = true) :
    (w.event call).sent = [] ∧ (w.event call).after = w.close.2 := by
  rcases perform_cases w call with ⟨-, hperform⟩ | ⟨hcloses, -⟩
  · simp [event, Event.sent, hperform, Except.toOption]
  · rw [h] at hcloses
    cases hcloses

/-- **Of a call that does not close** all that counts is the lines that it has sent, none on a
closed sink, and whether it is for a comparison. -/
theorem event_of_not_closes (w : Writer) (h : call.closes = false) :
    (w.event call).after = (w.counted call).sent (w.event call).sent ∧
      (w.sink.isClosed = true → (w.event call).sent = []) := by
  rcases perform_cases w call with ⟨hcloses, -⟩ | ⟨-, ⟨e, hlines, hperform⟩ |
    ⟨lines, hlines, ⟨hclosed, hperform⟩ | ⟨hclosed, hperform⟩⟩⟩
  · rw [h] at hcloses
    cases hcloses
  · have hcounted : w.counted call = w := by
      rw [counted, (of_lines_eq_error hlines).1]
      rfl
    simp [event, Event.sent, hperform, Except.toOption, hcounted, sent_nil]
  · simp [event, Event.sent, hperform, Except.toOption, sent_nil]
  · simpa [event, Event.sent, hperform, Except.toOption] using hclosed

end Lines

/-! ### The books -/

/-- **The books of a writer** after events: what it has counted and sent is told by the calls and by
how they ended. -/
structure Balanced (events : List Event) (w : Writer) : Prop where
  closed : w.closed = events.any (·.call.closes)
  closes : w.sink.closes = if w.closed then 1 else 0
  labels : w.labels = events.countP (·.call.isComparison)
  lines : w.sink.lines.toList = events.flatMap Event.sent
  instructions : w.instructions = instructionCount w.sink.lines.toList

theorem balanced_new : Balanced [] new where
  closed := rfl
  closes := rfl
  labels := rfl
  lines := rfl
  instructions := rfl

section Balanced

variable {events : List Event} {w : Writer}

theorem Balanced.isClosed (h : Balanced events w) : w.sink.isClosed = w.closed := by
  rw [Sink.isClosed, h.closes]
  cases w.closed <;> rfl

/-- **One call** is entered in the books. -/
theorem Balanced.event (h : Balanced events w) (call : Call) :
    Balanced (events ++ [w.event call]) (w.event call).after := by
  have hcall : (w.event call).call = call := rfl
  cases hcloses : call.closes with
  | true =>
    obtain ⟨hsent, hafter⟩ := event_of_closes w hcloses
    have hcomparison : call.isComparison = false := by
      cases call with
      | arithmetic _ => cases hcloses
      | _ => rfl
    rw [hafter]
    cases hclosed : w.closed with
    | true =>
      rw [w.close_of_closed hclosed]
      constructor
      · simp [hcall, hcloses, hclosed]
      · exact h.closes
      · simp [hcall, hcomparison, h.labels]
      · simp [hsent, h.lines]
      · exact h.instructions
    | false =>
      have hcloses' := h.closes
      simp only [hclosed, Bool.false_eq_true, if_false] at hcloses'
      simp only [close, hclosed, Bool.false_eq_true, if_false]
      constructor
      · simp [hcall, hcloses]
      · simp [hcloses']
      · simp [hcall, hcomparison, h.labels]
      · simp [hsent, h.lines]
      · exact h.instructions
  | false =>
    obtain ⟨hafter, -⟩ := event_of_not_closes w hcloses
    rw [hafter]
    constructor
    · simpa [sent, counted, hcall, hcloses] using h.closed
    · exact h.closes
    · simp [sent, counted, hcall, h.labels, List.countP_singleton]
    · simp [sent, counted, h.lines]
    · simp [sent, counted, h.instructions, instructionCount]

/-- **All calls** are entered in the books. -/
theorem Balanced.history (h : Balanced events w) (calls : List Call) :
    Balanced (events ++ w.history calls) (w.afterCalls calls) := by
  induction calls generalizing events w with
  | nil => rwa [Writer.history, List.append_nil]
  | cons call more ih =>
    have hmore := ih (h.event call)
    rwa [List.append_assoc] at hmore

end Balanced

/-! ### What a later call can change -/

section Later

variable {w : Writer} {call : Call}

theorem labels_event (w : Writer) (call : Call) :
    (w.event call).after.labels = w.labels + if call.isComparison then 1 else 0 := by
  cases hcloses : call.closes with
  | true =>
    rw [(event_of_closes w hcloses).2]
    cases call with
    | close | leave => simp only [close]; split <;> rfl
    | arithmetic _ | move _ _ _ | write _ | enter => cases hcloses
  | false =>
    rw [(event_of_not_closes w hcloses).1]
    rfl

/-- Numbers of labels are not given back. -/
theorem labels_le_afterCalls (w : Writer) (more : List Call) :
    w.labels ≤ (w.afterCalls more).labels := by
  induction more generalizing w with
  | nil => exact Nat.le_refl _
  | cons call more ih =>
    have hcall := labels_event w call
    have hmore := ih (w.event call).after
    rw [afterCalls_cons]
    omega

theorem labels_le_before (w : Writer) (calls : List Call) :
    ∀ e ∈ w.history calls, w.labels ≤ e.before.labels := by
  induction calls generalizing w with
  | nil => exact fun e he => absurd he List.not_mem_nil
  | cons call more ih =>
    have hcall := labels_event w call
    intro e he
    rcases List.mem_cons.mp he with rfl | he
    · exact Nat.le_refl _
    · have hmore := ih (w.event call).after e he
      omega

/-- **A closed sink stays as it is.** -/
theorem sink_afterCalls (hsink : w.sink.isClosed = true) (hclosed : w.closed = true)
    (more : List Call) : (w.afterCalls more).sink = w.sink := by
  induction more generalizing w with
  | nil => rfl
  | cons call more ih =>
    have hcall : (w.event call).after.sink = w.sink ∧ (w.event call).after.closed = true := by
      cases hcloses : call.closes with
      | true =>
        rw [(event_of_closes w hcloses).2, w.close_of_closed hclosed]
        exact ⟨rfl, hclosed⟩
      | false =>
        obtain ⟨hafter, hsent⟩ := event_of_not_closes w hcloses
        rw [hafter, hsent hsink, sent_nil]
        exact ⟨rfl, hclosed⟩
    rw [afterCalls_cons, ih (hcall.1 ▸ hsink) hcall.2, hcall.1]

theorem eq_event_of_mem {calls : List Call} {e : Event} (h : e ∈ w.history calls) :
    e = e.before.event e.call := by
  induction calls generalizing w with
  | nil => exact absurd h List.not_mem_nil
  | cons call more ih =>
    rcases List.mem_cons.mp h with rfl | h
    · rfl
    · exact ih h

/-- The books are in order before each of the calls. -/
theorem Balanced.exists_of_mem {events : List Event} (h : Balanced events w) {calls : List Call}
    {e : Event} (he : e ∈ w.history calls) : ∃ past, Balanced past e.before := by
  induction calls generalizing events w with
  | nil => exact absurd he List.not_mem_nil
  | cons call more ih =>
    rcases List.mem_cons.mp he with rfl | he
    · exact ⟨events, h⟩
    · exact ih (h.event call) he

/-- **A call that fails** was refused, or the sink was closed. -/
theorem event_of_error {f : Failure} (h : (w.event call).answer = .error f) :
    (f = .closedSink ∧ w.sink.isClosed = true) ∨ call.IsRefused f ∧ (w.event call).after = w := by
  have hanswer : (w.perform call).1 = .error f := h
  rcases perform_cases w call with ⟨-, hperform⟩ | ⟨-, ⟨e, hlines, hperform⟩ |
    ⟨lines, hlines, ⟨hclosed, hperform⟩ | ⟨-, hperform⟩⟩⟩
  · rw [hperform] at hanswer
    cases hanswer
  · rw [hperform] at hanswer
    cases hanswer
    exact .inr ⟨(of_lines_eq_error hlines).2, congrArg Prod.snd hperform⟩
  · rw [hperform] at hanswer
    cases hanswer
    exact .inl ⟨rfl, hclosed⟩
  · rw [hperform] at hanswer
    cases hanswer

end Later

/-! ### The labels of comparisons -/

section Labels

variable {w : Writer} {call : Call} {lines : List Text} {t : Text}

/-- The labels that an arithmetic command declares are those with its number. -/
theorem exists_label_of_mem {op : Arithmetic} {n : Nat} (ht : t ∈ (op.lines n).map Line.render)
    (hlabel : isLabel t = true) : ∃ name ∈ labelPair n, t = (Line.label name).render := by
  obtain ⟨l, hl, rfl⟩ := List.mem_map.mp ht
  rw [(readable_arithmetic op n l hl).1.isLabel] at hlabel
  cases l with
  | address _ | compute _ => cases hlabel
  | label name =>
    refine ⟨name, ?_, rfl⟩
    have hdeclared := mem_declared.mpr hl
    rw [declared_of_codes (.arithmetic op)] at hdeclared
    obtain ⟨k, hk, hname⟩ := List.mem_flatMap.mp hdeclared
    have hcount : (Operation.arithmetic op).labelCount ≤ 1 := by cases op <;> decide
    have hrange := List.mem_range'_1.mp hk
    obtain rfl : k = n := by omega
    exact hname

/-- A comparison that was written declares the labels with the number that was next. -/
theorem exists_label_of_comparison (hcall : call.isComparison = true)
    (hanswer : (w.event call).answer = .ok lines) (ht : t ∈ lines) (hlabel : isLabel t = true) :
    ∃ name ∈ labelPair w.labels, t = (Line.label name).render := by
  cases call with
  | move _ _ _ | write _ | close | enter | leave => cases hcall
  | arithmetic mnemonic =>
    rw [isComparison_arithmetic] at hcall
    obtain ⟨op, hop, -⟩ := Option.any_eq_true _ _ |>.mp hcall
    have hlines : (Call.arithmetic mnemonic).lines w.labels =
        .ok ((op.lines w.labels).map Line.render) := by
      rw [Call.lines, hop]
    have hperform : (w.perform (.arithmetic mnemonic)).1 = .ok lines := hanswer
    rw [perform_of_not_closes w rfl, hlines] at hperform
    obtain rfl : (op.lines w.labels).map Line.render = lines := by
      cases hwrite : ((w.counted (.arithmetic mnemonic)).write
          ((op.lines w.labels).map Line.render)).1 with
      | error f => simp [hwrite, Except.map] at hperform
      | ok => simpa [hwrite, Except.map] using hperform
    exact exists_label_of_mem ht hlabel

/-- Two events at which comparisons were written have no label in common. -/
def Event.Apart (e f : Event) : Prop :=
  e.call.isComparison = true → f.call.isComparison = true → ∀ lines lines',
    e.answer = .ok lines → f.answer = .ok lines' → ∀ t ∈ lines, isLabel t = true → t ∉ lines'

/-- **No label is declared twice.** -/
theorem pairwise_apart (w : Writer) (calls : List Call) :
    (w.history calls).Pairwise Event.Apart := by
  induction calls generalizing w with
  | nil => exact .nil
  | cons call more ih =>
    refine .cons (fun f hf hcall hcall' lines lines' hanswer hanswer' t ht hlabel ht' => ?_)
      (ih (w.event call).after)
    -- the number of the first comparison is used up when the second is written
    have hcount := labels_event w call
    rw [show call.isComparison = true from hcall, if_pos rfl] at hcount
    have hlater := labels_le_before (w.event call).after more f hf
    obtain ⟨name, hname, rfl⟩ := exists_label_of_comparison hcall hanswer ht hlabel
    rw [eq_event_of_mem hf] at hanswer'
    obtain ⟨name', hname', heq⟩ := exists_label_of_comparison hcall' hanswer' ht' hlabel
    have hsame : name = name' := by
      have hcode := congrArg Line.ofCode heq
      rw [Line.ofCode_render_label, Line.ofCode_render_label] at hcode
      exact Line.label.inj hcode
    exact disjoint_labelPair (by omega) hname (hsame ▸ hname')

end Labels

/-- **The books of a writer are in order** after any calls. Its sink is closed at most once, and
once exactly if a call has closed the writer. Its labels are as many as there were calls for
comparisons, those that failed on the closed sink included, and never become fewer. What was sent is
the lines of the calls that succeeded, in order; the instructions among them are counted, and
nothing is sent after the writer was closed. A call fails because the writer was closed before, or
it is refused and changes nothing: with one of four sorts of diagnostics, or because the index of a
move has too many digits. No two comparisons that were written declare the same label. -/
theorem history_keeps_books (calls : List Call) :
    let events := new.history calls
    let w := new.afterCalls calls
    (w.sink.closes ≤ 1 ∧ (w.sink.closes = 1 ↔ ∃ call ∈ calls, call.closes = true) ∧
      (w.closed = true ↔ w.sink.closes = 1)) ∧
    (w.labels = calls.countP Call.isComparison ∧
      ∀ more, w.labels ≤ (new.afterCalls (calls ++ more)).labels) ∧
    w.sink.lines.toList = events.flatMap Event.sent ∧
    w.sink.text = Text.ofLines (events.flatMap Event.sent) ∧
    w.instructions = (events.flatMap Event.sent).countP (fun line => line.head? ≠ some '(') ∧
    (w.closed = true → ∀ more, (new.afterCalls (calls ++ more)).sink.text = w.sink.text) ∧
    (∀ e ∈ events, ∀ f, e.answer = .error f → (f = .closedSink ∧ e.before.closed = true) ∨
      e.call.IsRefused f ∧ e.after = e.before) ∧
    events.Pairwise fun e f => e.call.isComparison = true → f.call.isComparison = true →
      ∀ lines lines', e.answer = .ok lines → f.answer = .ok lines' →
        ∀ t ∈ lines, isLabel t = true → t ∉ lines' := by
  intro events w
  have hbooks : Balanced events w := balanced_new.history calls
  have hmap : events.map (·.call) = calls := map_call_history new calls
  have hclosed : w.closed = true ↔ ∃ call ∈ calls, call.closes = true := by
    rw [hbooks.closed, ← hmap, List.any_eq_true]
    simp
  have hcloses := hbooks.closes
  have hafter (more : List Call) : new.afterCalls (calls ++ more) = w.afterCalls more :=
    List.foldl_append
  refine ⟨⟨?_, ?_, ?_⟩, ⟨?_, fun more => ?_⟩, hbooks.lines, ?_, ?_, fun hw more => ?_,
    fun e he f hf => ?_, pairwise_apart new calls⟩
  · rw [hcloses]
    split <;> decide
  · rw [← hclosed, hcloses]
    cases w.closed <;> decide
  · rw [hcloses]
    cases w.closed <;> decide
  · rw [hbooks.labels, ← hmap, List.countP_map]
    rfl
  · rw [hafter]
    exact labels_le_afterCalls w more
  · rw [Sink.text, hbooks.lines]
  · rw [hbooks.instructions, hbooks.lines, instructionCount]
    refine List.countP_congr fun line _ => ?_
    simp [isLabel]
  · rw [hafter, sink_afterCalls (hbooks.isClosed.trans hw) hw]
  · obtain ⟨past, hpast⟩ := balanced_new.exists_of_mem he
    rw [eq_event_of_mem he] at hf
    rcases event_of_error hf with ⟨rfl, hsink⟩ | ⟨hrefused, hsame⟩
    · exact .inl ⟨rfl, hpast.isClosed ▸ hsink⟩
    · exact .inr ⟨hrefused, eq_event_of_mem he ▸ hsame⟩

/-- A comparison on the closed sink fails, and its number is used up. -/
example :
    let w := new.afterCalls [.arithmetic "gt".toList, .close, .arithmetic "eq".toList, .leave]
    w.labels = 2 ∧ w.sink.closes = 1 ∧ w.sink.lines.size = w.instructions + 2 := by
  decide +kernel

end Writer

end HackStack.Stack
