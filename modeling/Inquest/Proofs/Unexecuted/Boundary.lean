import Inquest.Proofs.Unexecuted.Evidence
import Inquest.Proofs.Unexecuted.Exceptions
import Inquest.Proofs.Unexecuted.Guards

/-!
# Nothing at the boundary or beyond

A question is asked about the events before its boundary.  Every event that an answer names is one
of these: the invocation that was searched, the invocations for other objects, the event at which
the instruction did execute or at which an exception got in the way, and the branch that went the
other way.  What the branch decided on comes before the branch, as far as the recording itself
refers to earlier events only.

## Main Definitions

* `Trace.Backward` - operands come from no later event

## Main Statements

* `Scope.execution?_lt_boundary` - executions that are reported
* `Scope.decidingEvents_lt_boundary` - the events that a reason points at
* `Question.evidence_before_boundary` - all events that a question names
-/

namespace Inquest

/-- The operands of an event come from no later one. -/
def Trace.Backward (t : Trace) : Prop :=
  ∀ e r, t.record? e = some r → ∀ o ∈ r.operands, o ≤ e

namespace Scope

variable {s : Scope} {i : Instruction} {m : Method} {search x : Expectation}
variable {start event : EventId} {instruction : InstructionId} {reason : Reason}

/-! ### What an analysis saw -/

/-- The invocation that was searched started before the boundary. -/
theorem methodExecution_lt_boundary
    (searched : (s.analyse instruction x).methodExecution = some start) : start < s.boundary := by
  obtain ⟨-, -, -, -, before, -⟩ := analyse_searched searched
  exact before

/-- The invocations that ran for other objects started before the boundary. -/
theorem others_lt_boundary (member : start ∈ (s.analyse instruction x).others) :
    start < s.boundary := by
  unfold analyse at member
  split at member
  · cases member
  · split at member
    · cases member
    · rw [others_analyseIn] at member
      exact lt_boundary_of_mem_invocationsMatching member

/-! ### What a reason points at -/

theorem lastCall?_lt_boundary {callers : IdentSet .instruction}
    (called : s.lastCall? callers = some event) : event < s.boundary := by
  obtain ⟨last, previous, found⟩ := Option.bind_eq_some_iff.1 called
  obtain ⟨r, -, -, -, high⟩ := Trace.findLastBetween_found found
  have next := index_of_previous previous
  have high := Ident.le_def.1 high
  exact Ident.lt_def.2 (by omega)

theorem withinInvocation_lt_boundary (before : start < s.boundary)
    (verdict : s.withinInvocation i search start = .final reason)
    (points : event ∈ reason.decidingEvents) : event < s.boundary := by
  rcases withinInvocation_final verdict with ⟨e, rfl, executed⟩ | ⟨e, rfl⟩ | rfl
  · obtain rfl := List.mem_singleton.1 points
    exact (executionIn?_found before executed).inside
  · obtain rfl := List.mem_singleton.1 points
    exact (withinInvocation_exceptionCaught before verdict).1
  · cases points

theorem withoutInvocation_lt_boundary
    (verdict : s.withoutInvocation m i x search = .final reason)
    (points : event ∈ reason.decidingEvents) : event < s.boundary := by
  unfold withoutInvocation at verdict
  dsimp only at verdict
  split at verdict
  · cases verdict
    split at points <;> cases points
  · split at verdict
    · next e called =>
      cases verdict
      obtain rfl := List.mem_singleton.1 points
      exact lastCall?_lt_boundary called
    · cases verdict

/-- A reason that an analysis gives by itself points at events before the boundary. -/
theorem final_lt_boundary (verdict : (s.analyse instruction x).verdict = .final reason)
    (points : event ∈ reason.decidingEvents) : event < s.boundary := by
  cases searched : (s.analyse instruction x).methodExecution with
  | some start =>
    obtain ⟨i, m, -, -, before, found⟩ := analyse_searched searched
    exact withinInvocation_lt_boundary before (found.symm.trans verdict) points
  | none =>
    rcases analyse_unsearched searched with unknown | ⟨i, m, -, -, found⟩
    · cases unknown.symm.trans verdict
      cases points
    · exact withoutInvocation_lt_boundary (found.symm.trans verdict) points

/-- An execution that is reported lies before the boundary. -/
theorem execution?_lt_boundary
    (reported : (s.analyse instruction x).verdict.execution? = some event) :
    event < s.boundary := by
  cases verdict : (s.analyse instruction x).verdict with
  | callers method callers y => simp [verdict, Verdict.execution?] at reported
  | guards guards y => simp [verdict, Verdict.execution?] at reported
  | final reason =>
    refine final_lt_boundary verdict ?_
    rw [verdict] at reported
    cases reason with
    | didExecute e =>
      cases reported
      exact List.mem_singleton_self event
    | _ => cases reported

/-- The reason of an instruction points at events before the boundary. -/
theorem decidingEvents_lt_boundary (backward : s.trace.Backward)
    (settled : s.reasonOf instruction x = .ok reason) (points : event ∈ reason.decidingEvents) :
    event < s.boundary := by
  unfold reasonOf at settled
  cases verdict : (s.analyse instruction x).verdict with
  | final reason' =>
    rw [verdict] at settled
    cases settled
    exact final_lt_boundary verdict points
  | callers method callers y =>
    rw [verdict] at settled
    cases settled
    cases points
  | guards guards y =>
    rw [verdict] at settled
    rcases s.settle_guards_cases guards y with
      ⟨guard, -, branch, r, reported, recorded, found⟩ | found
    · cases found.symm.trans settled
      have before := execution?_lt_boundary reported
      rcases List.mem_cons.1 points with rfl | listed
      · exact before
      · exact Nat.lt_of_le_of_lt (backward branch r recorded event listed) before
    · cases found.symm.trans settled
      cases points

end Scope

namespace Question

variable {s : Scope} {q : Question} {id : UnexecutedId} {n : Unexecuted} {e : EventId}

/-- Whether or not it is explained, a node points at events before the boundary. -/
theorem Settled.reason_lt_boundary (settled : Settled s q) (backward : s.trace.Backward)
    (found : q.node? id = some n) (points : e ∈ n.reason.decidingEvents) : e < s.boundary := by
  have fits := settled.sound.fits found
  rw [settled.scope] at fits
  cases status : n.status with
  | unvisited =>
    rw [fits.unvisited status] at points
    cases points
  | inProgress =>
    exact absurd ((status?_of_node? found).trans (congrArg some status)) (settled.resting id)
  | done => exact Scope.decidingEvents_lt_boundary backward (fits.reason status) points

/-- No event that a question names lies at the boundary or after it: not among the events that
decided a node, not among the invocations for other objects, and not the invocation that was
searched. -/
theorem evidence_before_boundary (s : Scope) (backward : s.trace.Backward) (q : Question)
    (reachable : Reachable s q) (id : UnexecutedId) (n : Unexecuted) (found : q.node id = .ok n) :
    (∃ events, q.decidingEvents id = .ok events ∧ ∀ e ∈ events, e < s.boundary) ∧
      (∀ e ∈ n.others, e < s.boundary) ∧
      ∀ e, n.methodExecution = some e → e < s.boundary := by
  have settled := reachable.settled
  have fits := reachable.fits found
  have known := node_eq_ok_iff.1 found
  refine ⟨?_, ?_⟩
  · obtain ⟨events, gathered, exact⟩ := settled.sound.decidingEvents_eq known
    refine ⟨events, gathered, fun e member => ?_⟩
    obtain ⟨a, m, -, found', points⟩ := (exact e).1 member
    exact settled.reason_lt_boundary backward found' points
  · cases status : n.status with
    | unvisited =>
      rw [fits.unvisited status]
      exact ⟨nofun, nofun⟩
    | inProgress =>
      exact absurd ((status?_of_node? known).trans (congrArg some status)) (settled.resting id)
    | done =>
      rw [fits.others status, fits.methodExecution status]
      exact ⟨fun e => Scope.others_lt_boundary, fun e => Scope.methodExecution_lt_boundary⟩

/-! ### A gate that is looked at too early -/

/-- Nothing counts from the second branch on. -/
def gateCut : Scope := ⟨gateRecorder.trace, {}, ⟨4⟩⟩

/-- Why did the guarded instruction not execute for the second object? -/
def gateCutAsked : Question := Question.add { scope := gateCut } ⟨2⟩ (.receiver ⟨2⟩)

/-- Because of the first branch, since the second one did not execute yet. -/
def gateCutExplained : Question where
  scope := gateCut
  nodes := #[
    { instruction := ⟨2⟩, expectation := .receiver ⟨2⟩, status := .done,
      reason := .wrongWay ⟨3⟩ [], methodExecution := some ⟨2⟩, others := [⟨0⟩],
      incoming := .ofList [⟨1⟩, ⟨2⟩] },
    { instruction := ⟨1⟩, expectation := .receiver ⟨2⟩, status := .done,
      reason := .wrongWay ⟨3⟩ [], methodExecution := some ⟨2⟩, others := [⟨0⟩],
      incoming := .ofList [⟨2⟩], outgoing := .ofList [⟨0⟩] },
    { instruction := ⟨0⟩, expectation := .receiver ⟨2⟩, status := .done,
      reason := .didExecute ⟨3⟩, methodExecution := some ⟨2⟩, others := [⟨0⟩],
      outgoing := .ofList [⟨0⟩, ⟨1⟩] }]
  index := (gateCutAsked.index.insert (⟨1⟩, .receiver ⟨2⟩) ⟨1⟩).insert (⟨0⟩, .receiver ⟨2⟩) ⟨2⟩

theorem reachable_gateCutExplained : Reachable gateCut gateCutExplained := by
  have asked : Question.ask { scope := gateCut } ⟨2⟩ (.receiver ⟨2⟩) =
      .ok (gateCutAsked, ⟨0⟩) := rfl
  have explained : gateCutAsked.explain ⟨0⟩ = .ok gateCutExplained := by
    with_unfolding_all rfl
  exact .explain (.ask .fresh asked) explained

theorem backward_gateCut : gateCut.trace.Backward := by
  rintro ⟨index⟩ r recorded o member
  have all : ∀ index < 7, ∀ r ∈ gateRecorder.events[index]?, ∀ o ∈ r.operands,
      o.index ≤ index := by decide
  exact all index (Array.getElem?_eq_some_iff.1 recorded).1 r recorded o member

/-- The second branch, which would count otherwise, is not named. -/
theorem evidence_before_boundary_gate :
    gateCut.trace.Backward ∧ Reachable gateCut gateCutExplained ∧
      ∃ events, gateCutExplained.decidingEvents ⟨0⟩ = .ok events ∧ ∀ e ∈ events, e < ⟨4⟩ :=
  ⟨backward_gateCut, reachable_gateCutExplained,
    (evidence_before_boundary gateCut backward_gateCut gateCutExplained
      reachable_gateCutExplained ⟨0⟩ _ rfl).1⟩

end Question

end Inquest
