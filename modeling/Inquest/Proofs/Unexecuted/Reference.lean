import Inquest.Unexecuted.Analysis
import Inquest.Proofs.Trace.Window

/-!
# The reason of an instruction, without a graph

A question works out reasons along a graph that remembers what it has seen.  Here the reason of
an instruction under an expectation is given by two analyses at most, neither of which looks at
a graph: the analysis of the instruction itself and, where guarding branches decide, the
analysis of each of these branches.

## Main Definitions

* `Verdict.execution?`, `Verdict.isFinal` - what a verdict says by itself
* `Scope.settle`, `Scope.reasonOf` - the reason that a verdict, or an instruction, comes to
* `Scope.decidersOf` - the instructions that decide, with the expectation on them

## Main Statements

* `Scope.analyse_cases` - everything that the analysis of an instruction can come to
* `Scope.reasonOf_total` - every instruction has a reason, and it is never `unexplained`
* `Scope.execution?_of_reasonOf` - a reason reports an execution only if the analysis of the
  instruction itself found it
-/

namespace Inquest

/-- The event at which an instruction did execute, if its verdict is final and says so. -/
def Verdict.execution? : Verdict → Option EventId
  | .final reason => reason.execution?
  | _ => none

/-- Whether a verdict needs no other instruction. -/
def Verdict.isFinal : Verdict → Bool
  | .final _ => true
  | _ => false

theorem Verdict.execution?_of_not_isFinal {v : Verdict} (undecided : v.isFinal = false) :
    v.execution? = none := by
  cases v with
  | final reason => cases undecided
  | callers method callers x => rfl
  | guards guards x => rfl

theorem Verdict.children_of_isFinal {v : Verdict} (final : v.isFinal = true) :
    v.children = [] := by
  cases v with
  | final reason => rfl
  | callers method callers x => cases final
  | guards guards x => cases final

namespace Scope

variable {s : Scope}

/-- The reason that a verdict comes to.  Callers have no say beyond being there; of the guarding
branches, the first one counts whose own analysis finds that it did execute. -/
def settle (s : Scope) : Verdict → Except Fault Reason
  | .final reason => .ok reason
  | .callers method callers _ => .ok (.methodDidNotExecute method callers)
  | .guards guards x =>
    match guards.findSome? fun guard => (s.analyse guard x).verdict.execution? with
    | some branch => Reason.wrongWay branch <$> s.trace.operands branch
    | none => .ok (.branchDidNotExecute (.ofList guards))

/-- The reason of an instruction under an expectation. -/
def reasonOf (s : Scope) (instruction : InstructionId) (x : Expectation) : Except Fault Reason :=
  s.settle (s.analyse instruction x).verdict

/-- The instructions that decide an instruction, with the expectation on them: its guarding
branches, or the callers of its method. -/
def decidersOf (s : Scope) (instruction : InstructionId) (x : Expectation) :
    List (InstructionId × Expectation) :=
  (s.analyse instruction x).verdict.children

/-! ### What an analysis can come to -/

/-- What is said about an instruction in an invocation that was searched. -/
theorem withinInvocation_cases (s : Scope) (i : Instruction) (search : Expectation)
    (start : EventId) :
    (∃ reason, s.withinInvocation i search start = .final reason ∧ reason ≠ .unexplained ∧
        reason.execution? = none) ∨
      (∃ event r, s.withinInvocation i search start = .final (.didExecute event) ∧
        s.trace.record? event = some r) ∨
      s.withinInvocation i search start = .guards i.guards search := by
  unfold withinInvocation
  cases executed : s.executionIn? i.id start with
  | some event =>
    obtain ⟨r, recorded, -⟩ := Trace.findBetween_found executed
    exact .inr (.inl ⟨event, r, rfl, recorded⟩)
  | none =>
    cases caught : s.caughtIn? i start with
    | some event => exact .inl ⟨_, rfl, by simp, rfl⟩
    | none =>
      cases escaped : s.escapeFrom? start with
      | some event => exact .inl ⟨_, rfl, by simp, rfl⟩
      | none =>
        by_cases unguarded : i.guards.isEmpty = true
        · exact .inl ⟨.unknown, by simp [unguarded], by simp, rfl⟩
        · exact .inr (.inr (by simp [unguarded]))

/-- What is said about an instruction whose method has no invocation to search. -/
theorem withoutInvocation_cases (s : Scope) (m : Method) (i : Instruction)
    (x search : Expectation) :
    (∃ reason, s.withoutInvocation m i x search = .final reason ∧ reason ≠ .unexplained ∧
        reason.execution? = none) ∨
      (∃ event r, s.withoutInvocation m i x search = .final (.didExecute event) ∧
        s.trace.record? event = some r) ∨
      s.withoutInvocation m i x search =
        .callers m.id (s.callersOf m search) (x.forCallers s.trace.program i.id) := by
  unfold withoutInvocation
  by_cases nobody : (s.callersOf m search).isEmpty = true
  · refine .inl ⟨_, if_pos nobody, ?_, ?_⟩ <;> cases m.isEntryPoint <;> simp [Reason.execution?]
  · simp only [if_neg nobody]
    cases called : s.lastCall? (s.callersOf m search) with
    | none => exact .inr (.inr rfl)
    | some event =>
      obtain ⟨last, -, found⟩ := Option.bind_eq_some_iff.1 called
      obtain ⟨r, recorded, -⟩ := Trace.findLastBetween_found found
      exact .inr (.inl ⟨event, r, rfl, recorded⟩)

/-- The verdict on an instruction of a known method comes from the invocation that was searched,
from the callers, or from nothing at all. -/
theorem analyseIn_cases (s : Scope) (m : Method) (i : Instruction) (x : Expectation) :
    (∃ start, (s.analyseIn m i x).verdict =
        s.withinInvocation i (x.forMethodSearch s.trace.program i.id m.isStatic) start) ∨
      (s.analyseIn m i x).verdict =
        s.withoutInvocation m i x (x.forMethodSearch s.trace.program i.id m.isStatic) ∨
      (s.analyseIn m i x).verdict = .final .unknown := by
  unfold analyseIn
  dsimp only
  split
  · next start latest => exact .inl ⟨start, rfl⟩
  · split
    · exact .inr (.inl rfl)
    · exact .inr (.inr rfl)

theorem analyse_eq_analyseIn {instruction : InstructionId} {i : Instruction} {m : Method}
    {x : Expectation} (known : s.trace.program.instruction? instruction = some i)
    (owner : s.trace.program.method? i.method = some m) :
    s.analyse instruction x = s.analyseIn m i x := by
  simp only [analyse, known, owner]

/-- Everything that an analysis can come to: a reason that reports no execution, an execution
that was recorded, the guards of the instruction under the expectation on its method, or the
callers of its method under the expectation on them. -/
theorem analyse_cases (s : Scope) (instruction : InstructionId) (x : Expectation) :
    (∃ reason, (s.analyse instruction x).verdict = .final reason ∧ reason ≠ .unexplained ∧
        reason.execution? = none) ∨
      (∃ event r, (s.analyse instruction x).verdict = .final (.didExecute event) ∧
        s.trace.record? event = some r) ∨
      ∃ i m, s.trace.program.instruction? instruction = some i ∧
        s.trace.program.method? i.method = some m ∧
        ((s.analyse instruction x).verdict =
            .guards i.guards (x.forMethodSearch s.trace.program i.id m.isStatic) ∨
          (s.analyse instruction x).verdict =
            .callers m.id
              (s.callersOf m (x.forMethodSearch s.trace.program i.id m.isStatic))
              (x.forCallers s.trace.program i.id)) := by
  cases known : s.trace.program.instruction? instruction with
  | none => exact .inl ⟨.unknown, by simp [analyse, known], by simp, rfl⟩
  | some i =>
    cases owner : s.trace.program.method? i.method with
    | none => exact .inl ⟨.unknown, by simp [analyse, known, owner], by simp, rfl⟩
    | some m =>
      rw [analyse_eq_analyseIn known owner]
      rcases s.analyseIn_cases m i x with ⟨start, verdict⟩ | verdict | verdict
      · rw [verdict]
        rcases s.withinInvocation_cases i _ start with found | found | found
        · exact .inl found
        · exact .inr (.inl found)
        · exact .inr (.inr ⟨i, m, rfl, owner, .inl found⟩)
      · rw [verdict]
        rcases s.withoutInvocation_cases m i x _ with found | found | found
        · exact .inl found
        · exact .inr (.inl found)
        · exact .inr (.inr ⟨i, m, rfl, owner, .inr found⟩)
      · exact .inl ⟨.unknown, verdict, by simp, rfl⟩

/-- An execution that an analysis reports was recorded. -/
theorem recorded_of_execution? {instruction : InstructionId} {x : Expectation} {event : EventId}
    (reported : (s.analyse instruction x).verdict.execution? = some event) :
    ∃ r, s.trace.record? event = some r := by
  rcases s.analyse_cases instruction x with
    ⟨reason, verdict, -, silent⟩ | ⟨e, r, verdict, recorded⟩ | ⟨i, m, -, -, verdict | verdict⟩
  · simp [verdict, Verdict.execution?, silent] at reported
  · rw [verdict] at reported
    cases reported
    exact ⟨r, recorded⟩
  · simp [verdict, Verdict.execution?] at reported
  · simp [verdict, Verdict.execution?] at reported

/-! ### The reason of an instruction -/

/-- The reason that guarding branches come to. -/
theorem settle_guards_cases (s : Scope) (guards : List InstructionId) (x : Expectation) :
    (∃ guard ∈ guards, ∃ branch r, (s.analyse guard x).verdict.execution? = some branch ∧
        s.trace.record? branch = some r ∧
        s.settle (.guards guards x) = .ok (.wrongWay branch r.operands)) ∨
      s.settle (.guards guards x) = .ok (.branchDidNotExecute (.ofList guards)) := by
  cases decided : guards.findSome? fun guard => (s.analyse guard x).verdict.execution? with
  | none => exact .inr (by simp only [settle, decided])
  | some branch =>
    obtain ⟨guard, member, reported⟩ := List.exists_of_findSome?_eq_some decided
    obtain ⟨r, recorded⟩ := recorded_of_execution? reported
    refine .inl ⟨guard, member, branch, r, reported, recorded, ?_⟩
    simp [settle, decided, Trace.operands, Trace.read, recorded, Functor.map, Except.map]

/-- Every instruction has a reason, and somebody who knows it knows more than nothing. -/
theorem reasonOf_total (s : Scope) (instruction : InstructionId) (x : Expectation) :
    ∃ reason, s.reasonOf instruction x = .ok reason ∧ reason ≠ .unexplained := by
  unfold reasonOf
  rcases s.analyse_cases instruction x with
    ⟨reason, verdict, explained, -⟩ | ⟨e, r, verdict, -⟩ | ⟨i, m, -, -, verdict | verdict⟩
  · exact ⟨reason, by rw [verdict, settle], explained⟩
  · exact ⟨.didExecute e, by rw [verdict, settle], by simp⟩
  · rw [verdict]
    rcases s.settle_guards_cases i.guards
      (x.forMethodSearch s.trace.program i.id m.isStatic) with
      ⟨-, -, branch, r, -, -, reason⟩ | reason
    · exact ⟨_, reason, by simp⟩
    · exact ⟨_, reason, by simp⟩
  · exact ⟨_, by rw [verdict, settle], by simp⟩

/-- A reason reports an execution only if the analysis of the instruction itself found it: what
guards and callers contribute is never an execution of the instruction. -/
theorem execution?_of_reasonOf {instruction : InstructionId} {x : Expectation} {reason : Reason}
    (settled : s.reasonOf instruction x = .ok reason) :
    reason.execution? = (s.analyse instruction x).verdict.execution? := by
  unfold reasonOf at settled
  cases verdict : (s.analyse instruction x).verdict with
  | final r =>
    rw [verdict] at settled
    cases settled
    rfl
  | callers method callers y =>
    rw [verdict] at settled
    cases settled
    rfl
  | guards guards y =>
    rw [verdict] at settled
    rcases s.settle_guards_cases guards y with ⟨-, -, branch, r, -, -, found⟩ | found
    · rw [found] at settled
      cases settled
      rfl
    · rw [found] at settled
      cases settled
      rfl

end Scope

end Inquest
