import Inquest.Proofs.Program.Numbering
import Inquest.Proofs.Unexecuted.Invocation
import Inquest.Proofs.Unexecuted.Requests
import Inquest.Proofs.Unexecuted.Translation
import Inquest.Trace.Recorder

/-!
# Branches that went the other way

Where the branches that guard an instruction decide, each of them is asked about with the
expectation on the method.  This expectation means the same to every instruction of the method, so
all of them search the same invocation as the guarded instruction did.  A guard that executed there
did not let the instruction execute, and the first execution of the first such guard is what the
answer points at.

## Main Definitions

* `Program.GuardsLocal` - guards lie in the method of the instruction that they guard
* `Scope.DecidedAt` - the first execution of the first guard that executed in an invocation

## Main Statements

* `Scope.findSome?_executionIn?` - the search for a guard that executed is exact
* `Question.wrongWay_exact` - when an answer points at a branch, and at which one
-/

namespace Inquest

/-- The guards of an instruction are instructions of the same method. -/
def Program.GuardsLocal (p : Program) : Prop :=
  ∀ (id : InstructionId) (i : Instruction), p.instruction? id = some i →
    ∀ guard ∈ i.guards, ∃ g, p.instruction? guard = some g ∧ g.method = i.method

namespace Scope

variable {s : Scope} {i : Instruction} {m : Method} {x : Expectation} {start branch : EventId}
variable {instruction guard : InstructionId} {guards : List InstructionId}

/-- Of some guards, the first one that executed in an invocation did so at the event, and not
earlier. -/
def DecidedAt (s : Scope) (guards : List InstructionId) (start branch : EventId) : Prop :=
  ∃ earlier guard later, guards = earlier ++ guard :: later ∧
    (∀ other ∈ earlier, ∀ event, ¬ s.ExecutedAt other start event) ∧
    s.ExecutedAt guard start branch ∧ ∀ event, s.ExecutedAt guard start event → branch ≤ event

theorem executionIn?_eq_none_iff (before : start < s.boundary) :
    s.executionIn? instruction start = none ↔ ∀ event, ¬ s.ExecutedAt instruction start event := by
  constructor
  · intro missing event executed
    obtain ⟨found, first, -⟩ := exists_executionIn?_le executed
    rw [missing] at first
    cases first
  · intro nowhere
    rw [Option.eq_none_iff_forall_ne_some]
    intro event found
    exact nowhere event (executionIn?_found before found)

/-- The search for a guard that executed gives the first execution of the first such guard. -/
theorem findSome?_executionIn? (before : start < s.boundary)
    (found : guards.findSome? (s.executionIn? · start) = some branch) :
    s.DecidedAt guards start branch := by
  obtain ⟨earlier, guard, later, listed, first, none⟩ := List.findSome?_eq_some_iff.1 found
  refine ⟨earlier, guard, later, listed, fun other member => ?_,
    executionIn?_found before first, fun event executed => ?_⟩
  · exact (executionIn?_eq_none_iff before).1 (none other member)
  · obtain ⟨found, first', le⟩ := exists_executionIn?_le executed
    rw [first, Option.some.injEq] at first'
    exact first' ▸ le

/-- Where a reason came from the guards, an invocation left it to them. -/
theorem guards_of_kind {search : Expectation} {reason : Reason}
    (settled : s.settle (s.withinInvocation i search start) = .ok reason)
    (guarded : reason.kind = .wrongWay ∨ reason.kind = .branchDidNotExecute) :
    s.withinInvocation i search start = .guards i.guards search := by
  rcases s.withinInvocation_cases i search start with ⟨_, verdict, -⟩ | ⟨_, _, verdict, -⟩ | verdict
  · rw [verdict] at settled
    cases settled
    rcases withinInvocation_final verdict with ⟨event, rfl, -⟩ | ⟨event, rfl⟩ | rfl <;>
      rcases guarded with kind | kind <;> cases kind
  · rw [verdict] at settled
    cases settled
    rcases guarded with kind | kind <;> cases kind
  · exact verdict

section Guarded

variable (numbered : s.trace.program.Numbered) (confined : s.trace.program.GuardsLocal)
variable (known : s.trace.program.instruction? instruction = some i)
variable (owner : s.trace.program.method? i.method = some m)
variable (searched : (s.analyse instruction x).methodExecution = some start)

include numbered confined known owner searched

/-- A guard is sought in the invocation that was searched for the instruction it guards. -/
theorem analyse_guard (member : guard ∈ i.guards) :
    (s.analyse guard (x.forMethodSearch s.trace.program i.id m.isStatic)).methodExecution =
        some start ∧
      (s.analyse guard (x.forMethodSearch s.trace.program i.id m.isStatic)).others =
        (s.analyse instruction x).others ∧
      (s.analyse guard (x.forMethodSearch s.trace.program i.id m.isStatic)).verdict.execution? =
        s.executionIn? guard start := by
  obtain ⟨g, known', sameMethod⟩ := confined instruction i known guard member
  have owner' : s.trace.program.method? g.method = some m := sameMethod ▸ owner
  rw [analyse_eq_analyseIn known owner] at searched ⊢
  rw [analyse_eq_analyseIn known' owner']
  have same :
      (s.analyseIn m g (x.forMethodSearch s.trace.program i.id m.isStatic)).methodExecution =
        some start := by
    rw [methodExecution_analyseIn, Expectation.forMethodSearch_forMethodSearch,
      ← methodExecution_analyseIn]
    exact searched
  refine ⟨same, ?_, ?_⟩
  · rw [others_analyseIn, others_analyseIn, Expectation.forMethodSearch_forMethodSearch]
  · rw [verdict_analyseIn same, execution?_withinInvocation, numbered guard g known']

/-- The reason that guards come to points at the first execution of the first guard that executed
in the invocation, if there is one. -/
theorem settle_guards_exact (before : start < s.boundary) {reason : Reason}
    (settled : s.settle (.guards i.guards (x.forMethodSearch s.trace.program i.id m.isStatic)) =
      .ok reason) :
    (∃ branch dependencies, reason = .wrongWay branch dependencies ∧
        s.DecidedAt i.guards start branch ∧ s.trace.operands branch = .ok dependencies) ∨
      reason = .branchDidNotExecute (.ofList i.guards) ∧
        ∀ guard ∈ i.guards, ∀ event, ¬ s.ExecutedAt guard start event := by
  have reported : (i.guards.findSome? fun guard =>
      (s.analyse guard (x.forMethodSearch s.trace.program i.id m.isStatic)).verdict.execution?) =
        i.guards.findSome? (s.executionIn? · start) := by
    rw [← List.head?_filterMap, ← List.head?_filterMap]
    refine congrArg List.head? (List.filterMap_congr fun guard member => ?_)
    exact (analyse_guard numbered confined known owner searched member).2.2
  rw [settle, reported] at settled
  cases decided : i.guards.findSome? (s.executionIn? · start) with
  | some branch =>
    rw [decided] at settled
    obtain ⟨dependencies, operands, rfl⟩ := map_eq_ok_iff.1 settled
    exact .inl ⟨branch, dependencies, rfl, findSome?_executionIn? before decided, operands⟩
  | none =>
    rw [decided] at settled
    cases settled
    refine .inr ⟨rfl, fun guard member => (executionIn?_eq_none_iff before).1 ?_⟩
    exact List.findSome?_eq_none_iff.1 decided guard member

end Guarded

end Scope

namespace Question

/-- Where the guards of an instruction decided, every guard was sought in the invocation that was
searched for the instruction, and past the same other invocations.  The answer points at a branch
exactly if some guard executed in that invocation, and then at the first execution of the first
such guard. -/
theorem wrongWay_exact (steps : List Draft.Step) (draft : Draft)
    (drafted : Draft.run steps = .ok draft) (confined : draft.program.GuardsLocal) (s : Scope)
    (program : s.trace.program = draft.program) (q : Question) (reachable : Reachable s q)
    (id : UnexecutedId) (n : Unexecuted) (found : q.node id = .ok n) (done : n.status = .done)
    (start : EventId) (searched : n.methodExecution = some start)
    (guarded : n.reason.kind = .wrongWay ∨ n.reason.kind = .branchDidNotExecute) :
    ∃ i m, s.trace.program.instruction? n.instruction = some i ∧
      s.trace.program.method? i.method = some m ∧
      (∀ guard ∈ i.guards, ∃ c g,
        q.lookup? guard
            (n.expectation.forMethodSearch s.trace.program n.instruction m.isStatic) = some c ∧
        q.node c = .ok g ∧ g.status = .done ∧ g.methodExecution = some start ∧
        g.others = n.others) ∧
      (n.reason.kind = .wrongWay ↔ ∃ guard ∈ i.guards, ∃ event, s.ExecutedAt guard start event) ∧
      ∀ branch dependencies, n.reason = .wrongWay branch dependencies →
        s.DecidedAt i.guards start branch ∧ s.trace.operands branch = .ok dependencies := by
  have numbered : s.trace.program.Numbered := program ▸ Draft.numbered_of_run drafted
  have confined : s.trace.program.GuardsLocal := program ▸ confined
  have settled := reachable.settled
  have fits := reachable.fits found
  have searched := (fits.methodExecution done).symm.trans searched
  obtain ⟨i, m, known, owner, before, verdict⟩ := Scope.analyse_searched searched
  have reason := fits.reason done
  rw [Scope.reasonOf, verdict] at reason
  have left := Scope.guards_of_kind reason guarded
  rw [left] at verdict reason
  refine ⟨i, m, known, owner, fun guard member => ?_, ?_⟩
  · rw [← numbered n.instruction i known]
    have decides : (guard, n.expectation.forMethodSearch s.trace.program i.id m.isStatic) ∈
        s.decidersOf n.instruction n.expectation := by
      rw [Scope.decidersOf, verdict]
      exact List.mem_map_of_mem member
    obtain ⟨c, g, found', key, done'⟩ :=
      settled.explained_of_decider (node_eq_ok_iff.1 found) done decides
    obtain ⟨execution, others, -⟩ :=
      Scope.analyse_guard numbered confined known owner searched member
    have fits' := reachable.fits (node_eq_ok_iff.2 found')
    obtain ⟨rfl, sought⟩ := Prod.mk.inj key
    refine ⟨c, g, settled.sound.indexed.lookup?_eq_some_iff.2 ?_, node_eq_ok_iff.2 found',
      done', ?_, ?_⟩
    · exact key?_eq_some_iff.2 ⟨g, found', key⟩
    · rw [fits'.methodExecution done', sought, execution]
    · rw [fits'.others done', fits.others done, sought, others]
  · rcases Scope.settle_guards_exact numbered confined known owner searched before reason with
      ⟨branch, dependencies, points, decided, operands⟩ | ⟨points, nowhere⟩
    · rw [points]
      refine ⟨⟨fun _ => ?_, fun _ => rfl⟩, fun branch' dependencies' same => ?_⟩
      · obtain ⟨earlier, guard, later, listed, -, executed, -⟩ := decided
        exact ⟨guard, listed ▸ List.mem_append_right earlier List.mem_cons_self, branch, executed⟩
      · cases same
        exact ⟨decided, operands⟩
    · rw [points]
      refine ⟨⟨fun kind => ?_, fun somewhere => ?_⟩, fun _ _ same => ?_⟩
      · cases kind
      · obtain ⟨guard, member, event, executed⟩ := somewhere
        exact absurd executed (nowhere guard member event)
      · cases same

/-! ### A gate with two branches -/

/-- One method: a branch, a second branch that the first one guards, and an instruction that both
of them guard, the second one first. -/
def gateDraftSteps : List Draft.Step := [
  .addClass "Gate" none,
  .addMethod ⟨0⟩ "pass" false,
  .addInstruction ⟨0⟩ .branch,
  .addInstruction ⟨0⟩ .branch,
  .addInstruction ⟨0⟩ .other,
  .addInstruction ⟨0⟩ .returns,
  .addGuard ⟨1⟩ ⟨0⟩,
  .addGuard ⟨2⟩ ⟨1⟩,
  .addGuard ⟨2⟩ ⟨0⟩]

/-- The program that is drafted. -/
def gateDraft : Draft where
  program :=
    { classes := #[{ id := ⟨0⟩, name := "Gate", superclass := none }]
      methods := #[
        { id := ⟨0⟩, declaringClass := ⟨0⟩, name := "pass", isStatic := false,
          instructions := #[⟨0⟩, ⟨1⟩, ⟨2⟩, ⟨3⟩] }]
      instructions := #[
        { id := ⟨0⟩, method := ⟨0⟩, position := 0, kind := .branch },
        { id := ⟨1⟩, method := ⟨0⟩, position := 1, kind := .branch, guards := [⟨0⟩] },
        { id := ⟨2⟩, method := ⟨0⟩, position := 2, kind := .other, guards := [⟨1⟩, ⟨0⟩] },
        { id := ⟨3⟩, method := ⟨0⟩, position := 3, kind := .returns }] }

theorem run_gateDraftSteps : Draft.run gateDraftSteps = .ok gateDraft := by decide

theorem guardsLocal_gateDraft : gateDraft.program.GuardsLocal := by
  rintro ⟨index⟩ i known guard member
  have inside : index < 4 := (Array.getElem?_eq_some_iff.1 known).1
  obtain rfl | rfl | rfl | rfl : index = 0 ∨ index = 1 ∨ index = 2 ∨ index = 3 := by omega
  all_goals
    cases known
    revert guard
    decide

/-- The method runs for the first object up to its first branch.  From there it runs for the
second object, where it comes to both branches. -/
def gateSteps : List Recorder.Step := [
  .enter ⟨0⟩ ⟨0⟩ [some ⟨1⟩] none,
  .push { kind := .branch, instruction := ⟨0⟩, operands := [⟨0⟩] },
  .enter ⟨0⟩ ⟨0⟩ [some ⟨2⟩] none,
  .push { kind := .branch, instruction := ⟨0⟩ },
  .push { kind := .branch, instruction := ⟨1⟩ },
  .exit { kind := .returned, instruction := ⟨3⟩ },
  .exit { kind := .returned, instruction := ⟨3⟩ }]

/-- What is recorded of it. -/
def gateRecorder : Recorder where
  program := gateDraft.program
  events := #[
    { kind := .startMethod, instruction := ⟨0⟩, start := some ⟨0⟩, arguments := [some ⟨1⟩] },
    { kind := .branch, instruction := ⟨0⟩, start := some ⟨0⟩, operands := [⟨0⟩] },
    { kind := .startMethod, instruction := ⟨0⟩, start := some ⟨2⟩, arguments := [some ⟨2⟩] },
    { kind := .branch, instruction := ⟨0⟩, start := some ⟨2⟩ },
    { kind := .branch, instruction := ⟨1⟩, start := some ⟨2⟩ },
    { kind := .returned, instruction := ⟨3⟩, start := some ⟨2⟩ },
    { kind := .returned, instruction := ⟨3⟩, start := some ⟨0⟩ }]
  frames := Std.TreeMap.insert ∅ ⟨0⟩ []
  ends := (Std.TreeMap.insert ∅ ⟨2⟩ ⟨5⟩).insert ⟨0⟩ ⟨6⟩
  ends_recorded := ((EndsRecorded.empty 7).insert ⟨2⟩ (by decide)).insert ⟨0⟩ (by decide)

theorem run_gateSteps : Recorder.run gateDraft.program gateSteps = .ok gateRecorder := rfl

/-- The whole recording counts. -/
def gateScope : Scope := ⟨gateRecorder.trace, {}, ⟨7⟩⟩

/-- Why did the guarded instruction not execute for the first object? -/
def gateAsked : Question := Question.add { scope := gateScope } ⟨2⟩ (.receiver ⟨1⟩)

/-- Because of the first branch, which did execute for this object.  The second branch did not, for
the same reason. -/
def gateExplained : Question where
  scope := gateScope
  nodes := #[
    { instruction := ⟨2⟩, expectation := .receiver ⟨1⟩, status := .done,
      reason := .wrongWay ⟨1⟩ [⟨0⟩], methodExecution := some ⟨0⟩, others := [⟨2⟩],
      incoming := .ofList [⟨1⟩, ⟨2⟩] },
    { instruction := ⟨1⟩, expectation := .receiver ⟨1⟩, status := .done,
      reason := .wrongWay ⟨1⟩ [⟨0⟩], methodExecution := some ⟨0⟩, others := [⟨2⟩],
      incoming := .ofList [⟨2⟩], outgoing := .ofList [⟨0⟩] },
    { instruction := ⟨0⟩, expectation := .receiver ⟨1⟩, status := .done,
      reason := .didExecute ⟨1⟩, methodExecution := some ⟨0⟩, others := [⟨2⟩],
      outgoing := .ofList [⟨0⟩, ⟨1⟩] }]
  index := (gateAsked.index.insert (⟨1⟩, .receiver ⟨1⟩) ⟨1⟩).insert (⟨0⟩, .receiver ⟨1⟩) ⟨2⟩

theorem reachable_gateExplained : Reachable gateScope gateExplained := by
  have asked : Question.ask { scope := gateScope } ⟨2⟩ (.receiver ⟨1⟩) =
      .ok (gateAsked, ⟨0⟩) := rfl
  have explained : gateAsked.explain ⟨0⟩ = .ok gateExplained := by with_unfolding_all rfl
  exact .explain (.ask .fresh asked) explained

/-- The second branch executed too, but not in the invocation for the first object. -/
theorem wrongWay_exact_gate :
    Draft.run gateDraftSteps = .ok gateDraft ∧ gateDraft.program.GuardsLocal ∧
      Reachable gateScope gateExplained ∧ gateScope.DecidedAt [⟨1⟩, ⟨0⟩] ⟨0⟩ ⟨1⟩ := by
  refine ⟨run_gateDraftSteps, guardsLocal_gateDraft, reachable_gateExplained, ?_⟩
  obtain ⟨i, m, known, -, -, -, points⟩ :=
    wrongWay_exact gateDraftSteps gateDraft run_gateDraftSteps guardsLocal_gateDraft gateScope rfl
      gateExplained reachable_gateExplained ⟨0⟩ _ rfl rfl ⟨0⟩ rfl (.inl rfl)
  cases known
  exact (points ⟨1⟩ [⟨0⟩] rfl).1

end Question

end Inquest
