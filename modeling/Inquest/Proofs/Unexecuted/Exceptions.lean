import Inquest.Proofs.Trace.Recording
import Inquest.Proofs.Unexecuted.Invocation
import Inquest.Proofs.Unexecuted.Requests

/-!
# Where an exception was caught

If an exception got in the way of an instruction, the answer names an event: the last one at
which a handler of the instruction caught an exception or, if there is none, the one that ended
the invocation.  The end of an invocation is an event of it.  Handlers are told apart by their
instruction only, and while an invocation runs, its handlers may run for another one: for a nested
invocation of the same method, or for one on another thread.  Then the event named is one of
theirs, and this is the only way in which it can miss the invocation that was searched.

## Main Definitions

* `Trace.CaughtBy` - an event at which a handler of an instruction caught an exception
* `Scope.CatchesAlone` - the handlers of an instruction serve one invocation only

## Main Statements

* `Scope.withinInvocation_exceptionCaught` - the two ways to an exception
* `Question.exceptionCaught_spec` - which invocation the event named belongs to
-/

namespace Inquest

/-- An exception was caught at the event, by one of the handlers of the instruction. -/
def Trace.CaughtBy (t : Trace) (i : Instruction) (event : EventId) : Prop :=
  ∃ r, t.record? event = some r ∧ r.kind = .exceptionCaught ∧ r.instruction ∈ i.handlers

namespace Scope

variable {s : Scope} {i : Instruction} {search x : Expectation} {start event : EventId}

/-- What the handlers of an instruction caught while an invocation ran was caught for this
invocation. -/
def CatchesAlone (s : Scope) (i : Instruction) (start : EventId) : Prop :=
  ∀ event, start ≤ event → event ≤ s.limit start → s.trace.CaughtBy i event →
    s.trace.startOf? event = some start

/-! ### The two ways to an exception -/

theorem caughtIn?_found (caught : s.caughtIn? i start = some event) :
    s.trace.CaughtBy i event ∧ start ≤ event ∧ event ≤ s.limit start := by
  unfold caughtIn? at caught
  split at caught
  · obtain ⟨r, recorded, meets, low, high⟩ := Trace.findLastBetween_found caught
    rw [Bool.and_eq_true, decide_eq_true_eq, decide_eq_true_eq] at meets
    exact ⟨⟨r, recorded, meets⟩, low, high⟩
  · cases caught


/-- An invocation that is said to have met an exception had one caught by a handler of the
instruction while it ran, or ended with one. -/
theorem withinInvocation_exceptionCaught (before : start < s.boundary)
    (verdict : s.withinInvocation i search start = .final (.exceptionCaught event)) :
    event < s.boundary ∧
      (s.trace.CaughtBy i event ∧ start ≤ event ∧ event ≤ s.limit start ∨
        s.trace.endOf? start = some event) := by
  unfold withinInvocation at verdict
  split at verdict
  · cases verdict
  · next e _ caught =>
    cases verdict
    obtain ⟨handled, low, high⟩ := caughtIn?_found caught
    have inside := Ident.lt_def.1 (limit_lt_boundary before)
    exact ⟨Ident.lt_def.2 (Nat.lt_of_le_of_lt high inside), .inl ⟨handled, low, high⟩⟩
  · next e _ escaped =>
    cases verdict
    obtain ⟨ended, inside, -⟩ := escapeFrom?_eq_some_iff.1 escaped
    exact ⟨inside, .inr ended⟩
  · split at verdict <;> cases verdict

theorem withoutInvocation_ne_exceptionCaught (m : Method) :
    s.withoutInvocation m i x search ≠ .final (.exceptionCaught event) := by
  unfold withoutInvocation
  dsimp only
  repeat' split
  all_goals simp

/-- Only an invocation that was searched, and that started before the boundary, is said to have met
an exception. -/
theorem analyse_exceptionCaught {instruction : InstructionId}
    (verdict : (s.analyse instruction x).verdict = .final (.exceptionCaught event)) :
    ∃ start i search, (s.analyse instruction x).methodExecution = some start ∧
      s.trace.program.instruction? instruction = some i ∧ start < s.boundary ∧
      s.withinInvocation i search start = .final (.exceptionCaught event) := by
  cases searched : (s.analyse instruction x).methodExecution with
  | some start =>
    obtain ⟨i, m, known, -, started, found⟩ := analyse_searched searched
    exact ⟨start, i, _, rfl, known, started, found.symm.trans verdict⟩
  | none =>
    rcases analyse_unsearched searched with unknown | ⟨i, m, -, -, asked⟩
    · rw [unknown] at verdict
      cases verdict
    · exact absurd (asked.symm.trans verdict) (withoutInvocation_ne_exceptionCaught m)

/-- Guards and callers do not make an exception the reason of an instruction. -/
theorem verdict_of_exceptionCaught {instruction : InstructionId}
    (settled : s.reasonOf instruction x = .ok (.exceptionCaught event)) :
    (s.analyse instruction x).verdict = .final (.exceptionCaught event) := by
  unfold reasonOf at settled
  cases verdict : (s.analyse instruction x).verdict with
  | final reason =>
    rw [verdict] at settled
    cases settled
    rfl
  | callers method callers y =>
    rw [verdict] at settled
    cases settled
  | guards guards y =>
    rw [verdict] at settled
    rcases s.settle_guards_cases guards y with ⟨-, -, branch, r, -, -, found⟩ | found
    · rw [found] at settled
      cases settled
    · rw [found] at settled
      cases settled

end Scope

namespace Question

/-- Where an exception is the reason, one invocation was searched, and the event named lies between
its start and the boundary.  The event belongs to this invocation if the handlers of the
instruction serve no other one meanwhile.  If it does not belong to it, one of these handlers
caught an exception there. -/
theorem exceptionCaught_spec (program : Program) (steps : List Recorder.Step)
    (unmarked : ∀ step ∈ steps, step.start? = none) (recorder : Recorder)
    (recorded : Recorder.run program steps = .ok recorder) (config : Config) (boundary : EventId)
    (q : Question) (reachable : Reachable ⟨recorder.trace, config, boundary⟩ q)
    (id : UnexecutedId) (n : Unexecuted) (found : q.node id = .ok n) (done : n.status = .done)
    (event : EventId) (reason : n.reason = .exceptionCaught event) :
    ∃ start i, n.methodExecution = some start ∧
      recorder.trace.program.instruction? n.instruction = some i ∧
      start ≤ event ∧ event < boundary ∧
      (Scope.CatchesAlone ⟨recorder.trace, config, boundary⟩ i start →
        recorder.trace.startOf? event = some start) ∧
      (recorder.trace.startOf? event ≠ some start → recorder.trace.CaughtBy i event) := by
  have fits := reachable.fits found
  have settled := fits.reason done
  rw [reason] at settled
  obtain ⟨start, i, search, execution, known, before, verdict⟩ :=
    Scope.analyse_exceptionCaught (Scope.verdict_of_exceptionCaught settled)
  have execution := (fits.methodExecution done).trans execution
  obtain ⟨inside, ⟨caught, low, high⟩ | ended⟩ :=
    Scope.withinInvocation_exceptionCaught before verdict
  · exact ⟨start, i, execution, known, low, inside,
      fun alone => alone event low high caught, fun _ => caught⟩
  · obtain ⟨low, belongs⟩ := Recorder.endOf?_spec unmarked recorded ended
    exact ⟨start, i, execution, known, low, inside, fun _ => belongs,
      fun elsewhere => absurd belongs elsewhere⟩

/-! ### A method that starts over -/

/-- One method, with an instruction and its handler. -/
def retryProgram : Program where
  classes := #[{ id := ⟨0⟩, name := "Retry", superclass := none }]
  methods := #[
    { id := ⟨0⟩, declaringClass := ⟨0⟩, name := "run", isStatic := false,
      instructions := #[⟨0⟩, ⟨1⟩] }]
  instructions := #[
    { id := ⟨0⟩, method := ⟨0⟩, position := 0, kind := .other, handlers := [⟨1⟩] },
    { id := ⟨1⟩, method := ⟨0⟩, position := 1, kind := .handler }]

/-- The method catches an exception, calls itself for another object, catches an exception there
too, and returns twice. -/
def retrySteps : List Recorder.Step := [
  .enter ⟨0⟩ ⟨0⟩ [some ⟨1⟩] none,
  .push { kind := .exceptionCaught, instruction := ⟨1⟩ },
  .enter ⟨0⟩ ⟨0⟩ [some ⟨2⟩] none,
  .push { kind := .exceptionCaught, instruction := ⟨1⟩ },
  .exit { kind := .returned, instruction := ⟨1⟩ },
  .exit { kind := .returned, instruction := ⟨1⟩ }]

/-- What is recorded of it. -/
def retried : Recorder where
  program := retryProgram
  events := #[
    { kind := .startMethod, instruction := ⟨0⟩, start := some ⟨0⟩, arguments := [some ⟨1⟩] },
    { kind := .exceptionCaught, instruction := ⟨1⟩, start := some ⟨0⟩ },
    { kind := .startMethod, instruction := ⟨0⟩, start := some ⟨2⟩, arguments := [some ⟨2⟩] },
    { kind := .exceptionCaught, instruction := ⟨1⟩, start := some ⟨2⟩ },
    { kind := .returned, instruction := ⟨1⟩, start := some ⟨2⟩ },
    { kind := .returned, instruction := ⟨1⟩, start := some ⟨0⟩ }]
  frames := Std.TreeMap.insert ∅ ⟨0⟩ []
  ends := (Std.TreeMap.insert ∅ ⟨2⟩ ⟨4⟩).insert ⟨0⟩ ⟨5⟩
  ends_recorded := ((EndsRecorded.empty 6).insert ⟨2⟩ (by decide)).insert ⟨0⟩ (by decide)

theorem run_retrySteps : Recorder.run retryProgram retrySteps = .ok retried := rfl

/-- The whole recording counts. -/
def retryScope : Scope := ⟨retried.trace, {}, ⟨6⟩⟩

/-- Why did the first instruction not execute for an object? -/
def retryAsked (object : ObjectId) : Question :=
  Question.add { scope := retryScope } ⟨0⟩ (.receiver object)

/-- Because of an exception, as far as the invocation for this object goes. -/
def retryExplained (object : ObjectId) (start other event : EventId) : Question where
  scope := retryScope
  nodes := #[
    { instruction := ⟨0⟩, expectation := .receiver object, status := .done,
      reason := .exceptionCaught event, methodExecution := some start, others := [other] }]
  index := (retryAsked object).index

theorem reachable_retryAsked (object : ObjectId) : Reachable retryScope (retryAsked object) := by
  have asked : Question.ask { scope := retryScope } ⟨0⟩ (.receiver object) =
      .ok (retryAsked object, ⟨0⟩) := rfl
  exact .ask .fresh asked

theorem reachable_retryInner : Reachable retryScope (retryExplained ⟨2⟩ ⟨2⟩ ⟨0⟩ ⟨3⟩) := by
  have explained : (retryAsked ⟨2⟩).explain ⟨0⟩ = .ok (retryExplained ⟨2⟩ ⟨2⟩ ⟨0⟩ ⟨3⟩) := rfl
  exact .explain (reachable_retryAsked ⟨2⟩) explained

theorem reachable_retryOuter : Reachable retryScope (retryExplained ⟨1⟩ ⟨0⟩ ⟨2⟩ ⟨3⟩) := by
  have explained : (retryAsked ⟨1⟩).explain ⟨0⟩ = .ok (retryExplained ⟨1⟩ ⟨0⟩ ⟨2⟩ ⟨3⟩) := rfl
  exact .explain (reachable_retryAsked ⟨1⟩) explained

/-- Of the two invocations the inner one has the handler for itself while it runs. -/
theorem catchesAlone_retryInner (i : Instruction) : retryScope.CatchesAlone i ⟨2⟩ := by
  rintro ⟨position⟩ low high ⟨r, recorded, caught, -⟩
  have low : 2 ≤ position := low
  have high : position ≤ 4 := high
  obtain rfl | rfl | rfl : position = 2 ∨ position = 3 ∨ position = 4 := by omega
  · cases recorded
    cases caught
  · rfl
  · cases recorded
    cases caught

theorem exceptionCaught_spec_retryInner :
    (∀ step ∈ retrySteps, step.start? = none) ∧
      Recorder.run retryProgram retrySteps = .ok retried ∧
      Reachable retryScope (retryExplained ⟨2⟩ ⟨2⟩ ⟨0⟩ ⟨3⟩) ∧
      retried.trace.startOf? ⟨3⟩ = some ⟨2⟩ := by
  have unmarked : ∀ step ∈ retrySteps, step.start? = none := by decide
  refine ⟨unmarked, run_retrySteps, reachable_retryInner, ?_⟩
  obtain ⟨start, i, execution, -, -, -, belongs, -⟩ :=
    exceptionCaught_spec retryProgram retrySteps unmarked retried run_retrySteps {} ⟨6⟩
      (retryExplained ⟨2⟩ ⟨2⟩ ⟨0⟩ ⟨3⟩) reachable_retryInner ⟨0⟩ _ rfl rfl ⟨3⟩ rfl
  cases execution
  exact belongs (catchesAlone_retryInner i)

/-- Of the outer invocation it is said that an exception was caught at an event of the inner
one. -/
theorem exceptionCaught_elsewhere_retryOuter :
    (∀ step ∈ retrySteps, step.start? = none) ∧
      Recorder.run retryProgram retrySteps = .ok retried ∧
      ∃ q n, Reachable retryScope q ∧ q.node ⟨0⟩ = .ok n ∧ n.status = .done ∧
        n.reason = .exceptionCaught ⟨3⟩ ∧ n.methodExecution = some ⟨0⟩ ∧
        retried.trace.startOf? ⟨3⟩ = some ⟨2⟩ :=
  ⟨by decide, run_retrySteps, retryExplained ⟨1⟩ ⟨0⟩ ⟨2⟩ ⟨3⟩, _, reachable_retryOuter, rfl, rfl,
    rfl, rfl, rfl⟩

end Question

end Inquest
