import Inquest.Proofs.Unexecuted.Reference

/-!
# The invocation that is searched

An analysis searches the latest invocation of a method that meets the expectation.  It looks at the
events from the start of the invocation up to its recorded end, and never at the boundary or
beyond.  Only events of this very invocation count as executions of an instruction, and the first
of them is the one that is reported.

## Main Definitions

* `Scope.ExecutedAt` - an instruction executed at an event of an invocation

## Main Statements

* `Scope.le_limit_iff` - the events that are looked at
* `Scope.executionIn?_found`, `Scope.exists_executionIn?_le` - the first execution is found
* `Scope.withinInvocation_final` - the reasons that an invocation gives by itself
* `Scope.analyse_searched`, `Scope.analyse_unsearched` - what is said after an invocation was
  searched, and where there was none
-/

namespace Inquest.Scope

variable {s : Scope} {i : Instruction} {m : Method} {search x : Expectation}
variable {start event : EventId} {instruction : InstructionId}

/-! ### How far an invocation is looked at -/

theorem endOf?_eq_some_iff {finish : EventId} :
    s.endOf? start = some finish ↔ s.trace.endOf? start = some finish ∧ finish < s.boundary := by
  simp [endOf?, Option.filter_eq_some_iff]

/-- An exception ended an invocation if the invocation ended before the boundary, at an event that
is an exception. -/
theorem escapeFrom?_eq_some_iff {finish : EventId} : s.escapeFrom? start = some finish ↔
    s.trace.endOf? start = some finish ∧ finish < s.boundary ∧
      (s.trace.record? finish).any (·.kind.isException) = true := by
  simp only [escapeFrom?, Option.map_eq_some_iff, Option.filter_eq_some_iff, Bool.and_eq_true,
    decide_eq_true_eq, Option.any_eq_true]
  constructor
  · rintro ⟨⟨finish, r⟩, ⟨ended, before, exceptional⟩, rfl⟩
    obtain ⟨ended, recorded⟩ := Trace.endRecord?_eq_some_iff.1 ended
    exact ⟨ended, before, r, recorded, exceptional⟩
  · rintro ⟨ended, before, r, recorded, exceptional⟩
    have ended := Trace.endRecord?_eq_some_iff.2 ⟨ended, recorded⟩
    exact ⟨(finish, r), ⟨ended, before, exceptional⟩, rfl⟩

theorem index_of_previous {last : EventId} (previous : event.previous = some last) :
    event.index = last.index + 1 := by
  unfold EventId.previous at previous
  split at previous
  · cases previous
  · cases previous
    show event.index = event.index - 1 + 1
    omega

/-- The events that are looked at lie before the boundary and not after the recorded end. -/
theorem le_limit_iff (before : start < s.boundary) :
    event ≤ s.limit start ↔
      event < s.boundary ∧ ∀ finish, s.trace.endOf? start = some finish → event ≤ finish := by
  unfold limit
  split
  · next finish ended =>
    obtain ⟨recorded, inside⟩ := endOf?_eq_some_iff.1 ended
    refine ⟨fun upTo => ⟨Nat.lt_of_le_of_lt upTo inside, ?_⟩,
      fun looked => looked.2 finish recorded⟩
    intro finish' recorded'
    rw [recorded, Option.some.injEq] at recorded'
    exact recorded' ▸ upTo
  · next last unended previous =>
    have next := index_of_previous previous
    refine ⟨fun upTo => ?_, fun looked => ?_⟩
    · have upTo : event.index ≤ last.index := upTo
      refine ⟨Ident.lt_def.2 (by omega), fun finish recorded => ?_⟩
      -- an end that does not count lies at the boundary or beyond
      have beyond : ¬ finish < s.boundary := fun inside => by
        rw [endOf?_eq_some_iff.2 ⟨recorded, inside⟩] at unended
        cases unended
      have beyond := mt Ident.lt_def.2 beyond
      exact Ident.le_def.2 (by omega)
    · have before := Ident.lt_def.1 looked.1
      exact Ident.le_def.2 (by omega)
  · next _ previous =>
    have before := Ident.lt_def.1 before
    unfold EventId.previous at previous
    split at previous
    · omega
    · cases previous

/-- No event at or after the boundary is looked at. -/
theorem limit_lt_boundary (before : start < s.boundary) : s.limit start < s.boundary :=
  ((le_limit_iff before).1 (Nat.le_refl _)).1

/-! ### Executions -/

/-- The instruction executed at the event, as far as the invocation is looked at. -/
structure ExecutedAt (s : Scope) (instruction : InstructionId) (start event : EventId) : Prop where
  /-- The event executed the instruction, and it belongs to the invocation. -/
  recorded : ∃ r, s.trace.record? event = some r ∧ r.instruction = instruction ∧
    r.start = some start ∧ r.kind.isArtificial = false
  notBefore : start ≤ event
  inside : event < s.boundary
  notAfter : ∀ finish, s.trace.endOf? start = some finish → event ≤ finish

theorem executionIn?_found (before : start < s.boundary)
    (found : s.executionIn? instruction start = some event) :
    s.ExecutedAt instruction start event := by
  obtain ⟨r, recorded, meets, low, high⟩ := Trace.findBetween_found found
  obtain ⟨inside, notAfter⟩ := (le_limit_iff before).1 high
  simp only [Bool.and_eq_true, decide_eq_true_eq, Bool.not_eq_true'] at meets
  exact ⟨⟨r, recorded, meets.1.1, meets.1.2, meets.2⟩, low, inside, notAfter⟩

/-- If an instruction executed in an invocation, its first execution is found. -/
theorem exists_executionIn?_le (executed : s.ExecutedAt instruction start event) :
    ∃ found, s.executionIn? instruction start = some found ∧ found ≤ event := by
  obtain ⟨r, recorded, executes, belongs, real⟩ := executed.recorded
  have before : start < s.boundary := Nat.lt_of_le_of_lt executed.notBefore executed.inside
  have high : event ≤ s.limit start :=
    (le_limit_iff before).2 ⟨executed.inside, executed.notAfter⟩
  exact Trace.exists_findBetween_le executed.notBefore high recorded
    (by simp [executes, belongs, real])

/-! ### Verdicts -/

/-- What an invocation says about the execution of an instruction is what the search for it
finds. -/
theorem execution?_withinInvocation :
    (s.withinInvocation i search start).execution? = s.executionIn? i.id start := by
  unfold withinInvocation
  cases s.executionIn? i.id start with
  | some event => rfl
  | none =>
    cases s.caughtIn? i start with
    | some event => rfl
    | none =>
      cases s.escapeFrom? start with
      | some event => rfl
      | none =>
        show (if i.guards.isEmpty = true then _ else _ : Verdict).execution? = none
        split <;> rfl

/-- By itself an invocation gives one of three reasons; otherwise it leaves it to the guards. -/
theorem withinInvocation_final {reason : Reason}
    (verdict : s.withinInvocation i search start = .final reason) :
    (∃ event, reason = .didExecute event ∧ s.executionIn? i.id start = some event) ∨
      (∃ event, reason = .exceptionCaught event) ∨ reason = .unknown := by
  unfold withinInvocation at verdict
  split at verdict
  · next event executed =>
    cases verdict
    exact .inl ⟨event, rfl, executed⟩
  · cases verdict
    exact .inr (.inl ⟨_, rfl⟩)
  · cases verdict
    exact .inr (.inl ⟨_, rfl⟩)
  · split at verdict
    · cases verdict
      exact .inr (.inr rfl)
    · cases verdict

/-! ### Analyses -/

/-- The invocation that is searched is the latest one that meets the expectation on the method. -/
theorem methodExecution_analyseIn :
    (s.analyseIn m i x).methodExecution =
      (s.invocationsMatching m.id
        (x.forMethodSearch s.trace.program i.id m.isStatic) .yes).getLast? := by
  unfold analyseIn
  dsimp only
  split
  · next start latest => exact latest.symm
  · next none => split <;> exact none.symm

theorem others_analyseIn :
    (s.analyseIn m i x).others =
      s.invocationsMatching m.id (x.forMethodSearch s.trace.program i.id m.isStatic) .no := by
  unfold analyseIn
  dsimp only
  split
  · rfl
  · split <;> rfl

theorem verdict_analyseIn (searched : (s.analyseIn m i x).methodExecution = some start) :
    (s.analyseIn m i x).verdict =
      s.withinInvocation i (x.forMethodSearch s.trace.program i.id m.isStatic) start := by
  rw [methodExecution_analyseIn] at searched
  unfold analyseIn
  simp only [searched]

/-- The invocations of a method that count lie before the boundary. -/
theorem lt_boundary_of_mem_invocationsMatching {method : MethodId} {outcome : Match}
    (member : start ∈ s.invocationsMatching method search outcome) : start < s.boundary := by
  have listed := (List.mem_filter.1 member).1
  exact of_decide_eq_true (List.mem_filter.1 listed).2

/-- After an invocation was searched, the verdict is what this invocation says. -/
theorem analyse_searched (searched : (s.analyse instruction x).methodExecution = some start) :
    ∃ i m, s.trace.program.instruction? instruction = some i ∧
      s.trace.program.method? i.method = some m ∧ start < s.boundary ∧
      (s.analyse instruction x).verdict =
        s.withinInvocation i (x.forMethodSearch s.trace.program i.id m.isStatic) start := by
  cases known : s.trace.program.instruction? instruction with
  | none => simp [analyse, known] at searched
  | some i =>
    cases owner : s.trace.program.method? i.method with
    | none => simp [analyse, known, owner] at searched
    | some m =>
      rw [analyse_eq_analyseIn known owner] at searched ⊢
      have latest := searched
      rw [methodExecution_analyseIn] at latest
      exact ⟨i, m, rfl, owner,
        lt_boundary_of_mem_invocationsMatching (List.mem_of_getLast? latest),
        verdict_analyseIn searched⟩

/-- Where no invocation was searched, nothing is known or the callers of the method are asked. -/
theorem analyse_unsearched (unsearched : (s.analyse instruction x).methodExecution = none) :
    (s.analyse instruction x).verdict = .final .unknown ∨
      ∃ i m, s.trace.program.instruction? instruction = some i ∧
        s.trace.program.method? i.method = some m ∧
        (s.analyse instruction x).verdict =
          s.withoutInvocation m i x (x.forMethodSearch s.trace.program i.id m.isStatic) := by
  cases known : s.trace.program.instruction? instruction with
  | none => exact .inl (by simp [analyse, known])
  | some i =>
    cases owner : s.trace.program.method? i.method with
    | none => exact .inl (by simp [analyse, known, owner])
    | some m =>
      rw [analyse_eq_analyseIn known owner] at unsearched ⊢
      rw [methodExecution_analyseIn] at unsearched
      unfold analyseIn
      simp only [unsearched]
      split
      · exact .inr ⟨i, m, rfl, owner, rfl⟩
      · exact .inl rfl

end Inquest.Scope
