import Inquest.Proofs.Explanation.Ownership
import Inquest.Proofs.Trace.Loops
import Inquest.Proofs.Trace.Recording

/-!
# By which event a loop block is known

A loop block is known by the first event of the thread that reports the instruction of the loop
branch.  That is the first decision of the branch, unless another event has reported the instruction
before: the start of an invocation does, if the branch is the first instruction of the method.  Then
the block stands around that event, and the first decision of the branch stays outside.

## Main Statements

* `Graph.Tidy.key_spec` - the key of a loop block, in a tidy graph
* `Graph.Tidy.owner?_firstDecision_ne` - when the first decision stays outside
* `Answer.loop_key_spec` - the keys in an answer, after any requests
-/

namespace Inquest

/-- Whether a record is a decision of a branch on a thread. -/
def Record.decides (thread : ThreadId) (branch : InstructionId) (r : Record) : Bool :=
  r.reports thread branch && r.kind = .branch

theorem Record.decides_iff {thread : ThreadId} {branch : InstructionId} {r : Record} :
    r.decides thread branch = true ↔ r.reports thread branch = true ∧ r.kind = .branch := by
  rw [decides, Bool.and_eq_true, decide_eq_true_eq]

/-- The first event that reports an instruction is a decision exactly if it is the first
decision. -/
theorem Trace.IsFirst.eq_firstDecision_iff {t : Trace} {f decision : EventId} {r : Record}
    (first : t.IsFirst (Record.reports r.thread r.instruction) f) (recorded : t.record? f = some r)
    (first' : t.IsFirst (Record.decides r.thread r.instruction) decision) :
    r.kind = .branch ↔ f = decision := by
  obtain ⟨s, recorded', decides⟩ := first'.meets
  obtain ⟨reports, kind⟩ := Record.decides_iff.1 decides
  constructor
  · intro branch
    have decides' := Record.decides_iff.2 ⟨Record.reports_iff.2 ⟨rfl, rfl⟩, branch⟩
    exact Ident.ext
      (Nat.le_antisymm (first.least recorded' reports) (first'.least recorded decides'))
  · rintro rfl
    obtain rfl := Option.some.inj (recorded.symm.trans recorded')
    exact kind

theorem Trace.loopOf?_of_home {t : Trace} {c : Config} {e f : EventId} {r : Record}
    (belongs : t.home c e r = .loop f) : t.loopOf? c e = some f := by
  unfold home at belongs
  split at belongs
  · cases belongs
  · next loop =>
    cases belongs
    exact loop
  · split at belongs <;> cases belongs

namespace Graph.Tidy

variable {g : Graph} {t : Trace} {c : Config} {loose : Option EventId} {f : EventId}
variable {l x : NodeId} {r : Record}

/-- The key of a loop block is the first event of its thread that reports its instruction, and this
is the instruction of a branch that was decided on the thread. -/
theorem key_spec (tidy : g.Tidy t c loose) (numbered : t.program.Numbered)
    (keyed : g.loopBlocks[f]? = some l) (recorded : t.record? f = some r) :
    t.IsFirst (Record.reports r.thread r.instruction) f ∧
      ∃ k s, t.record? k = some s ∧ s.decides r.thread r.instruction = true := by
  obtain ⟨-, -, e, cached, loop⟩ := tidy.keyed keyed
  obtain ⟨re, recorded'⟩ := tidy.recorded_of_cached cached
  obtain ⟨k, s, -, deciding, kind, same, first⟩ :=
    Trace.loopOf?_key_of_numbered numbered recorded' loop
  obtain ⟨r', recorded'', reports⟩ := first.meets
  obtain rfl := Option.some.inj (recorded.symm.trans recorded'')
  obtain ⟨onThread, reported⟩ := Record.reports_iff.1 reports
  rw [onThread, reported]
  exact ⟨first, k, s, deciding, Record.decides_iff.2 ⟨Record.reports_iff.2 ⟨same, rfl⟩, kind⟩⟩

/-- If a loop block is not known by the first decision of the branch, that decision is not in the
block. -/
theorem owner?_firstDecision_ne {decision : EventId} (tidy : g.Tidy t c none)
    (ordered : t.WellOrdered) (controls : t.ControlledByBlocks) (numbered : t.program.Numbered)
    (keyed : g.loopBlocks[f]? = some l) (recorded : t.record? f = some r)
    (first : t.IsFirst (Record.decides r.thread r.instruction) decision) (other : f ≠ decision)
    (known : g.nodeOf[decision]? = some x) : g.owner? x ≠ some l := by
  intro owned
  obtain ⟨isKey, -⟩ := tidy.key_spec numbered keyed recorded
  obtain ⟨s, recorded', decides⟩ := first.meets
  obtain ⟨reports, -⟩ := Record.decides_iff.1 decides
  obtain ⟨onThread, reported⟩ := Record.reports_iff.1 reports
  obtain ⟨byHome, -⟩ := tidy.ownerOf?_event ordered controls recorded' ⟨x, known⟩
  -- the decision starts no loop, for the key comes before it
  have unkeyed : g.at? (.loop decision) = none := by
    cases keyed' : g.at? (.loop decision) with
    | none => rfl
    | some b =>
      obtain ⟨isKey', -⟩ := tidy.key_spec numbered keyed' recorded'
      rw [onThread, reported] at isKey'
      exact absurd (isKey.unique isKey') other
  -- so it iterates the loop, and an earlier decision decides it
  have place : g.place? l = some (.loop f) := tidy.registered (p := .loop f).1 keyed
  have known : g.at? (.event decision) = some x := known
  have home := byHome unkeyed
  rw [ownerOf?, known, Option.bind_some, owned, Option.bind_some, place, Option.some.injEq] at home
  obtain ⟨k, u, controlled, deciding, kind, same, isKey'⟩ :=
    Trace.loopOf?_key_of_numbered numbered recorded' (Trace.loopOf?_of_home home.symm)
  obtain ⟨r', recorded'', reports'⟩ := isKey'.meets
  obtain rfl := Option.some.inj (recorded.symm.trans recorded'')
  have earlier := first.least deciding (Record.decides_iff.2 ⟨Record.reports_iff.2
    ⟨same.trans onThread, (Record.reports_iff.1 reports').2.symm⟩, kind⟩)
  exact absurd (ordered.control recorded' controlled) (Nat.not_lt.2 earlier)

end Graph.Tidy

/-! ### Answers -/

namespace Answer

/-- Whatever is asked about a recording, a loop block is anchored at the event by which it is known,
and this is the first event of its thread that reports the instruction of the loop branch.  It is a
decision of the branch exactly if it is the first decision, and then this decision is in the block.
Otherwise an invocation starts there whose method starts with the branch, or the event was recorded
with the instruction of the branch as something else; and then the first decision is not in the
block, as long as events are controlled by events that open a block. -/
theorem loop_key_spec {draftSteps : List Draft.Step} {d : Draft} {steps : List Recorder.Step}
    {recorder : Recorder} (drafted : Draft.run draftSteps = .ok d)
    (recorded : Recorder.run d.program steps = .ok recorder)
    (ordered : recorder.trace.WellOrdered) (c : Config) (counter : AnswerCounter)
    (calls : List Call) (inside : ∀ call ∈ calls, call.event.index < recorder.trace.size) :
    ∃ a, (new recorder.trace c counter).1.run calls = .ok a ∧
      ∀ (f : EventId) l, a.graph.loopBlocks[f]? = some l →
        (∃ n, a.graph.node l = .ok n ∧ n.kind.isLoop = true ∧ n.event = f) ∧
        ∃ r decision, recorder.trace.record? f = some r ∧
          recorder.trace.IsFirst (Record.reports r.thread r.instruction) f ∧
          recorder.trace.IsFirst (Record.decides r.thread r.instruction) decision ∧
          (r.kind = .branch ↔ f = decision) ∧
          (r.kind ≠ .branch →
            (∃ thread method arguments control m,
              steps[f.index]? = some (.enter thread method arguments control) ∧
              d.program.method? method = some m ∧ m.instructions[0]? = some r.instruction) ∨
            ∃ record, (steps[f.index]? = some (.push record) ∨
                steps[f.index]? = some (.exit record)) ∧
              record.instruction = r.instruction ∧ record.kind ≠ .branch) ∧
          ∀ x, a.graph.nodeOf[decision]? = some x →
            (r.kind = .branch → a.graph.owner? x = some l) ∧
            (recorder.trace.ControlledByBlocks → r.kind ≠ .branch →
              a.graph.owner? x ≠ some l) := by
  obtain ⟨a, succeeds, reached⟩ := (orderly_new recorder.trace c counter).run ordered inside
  have tidy := reached.tidy
  have numbered : recorder.trace.program.Numbered := by
    show recorder.program.Numbered
    rw [(Recorder.report?_of_run recorded).1]
    exact Draft.numbered_of_run drafted
  refine ⟨a, succeeds, fun f l keyed => ?_⟩
  have place : a.graph.place? l = some (.loop f) := tidy.registered (p := .loop f).1 keyed
  obtain ⟨s, shape, isLoop⟩ := Graph.exists_shape?_of_place? place
  obtain ⟨n, found, rfl⟩ := Graph.exists_node?_of_shape? shape
  rw [n.place_shape] at isLoop
  have loop := Node.isLoop_of_place isLoop
  have anchored : n.event = f := Place.loop.inj ((Node.place_of_isLoop loop).symm.trans isLoop)
  refine ⟨⟨n, Graph.node_eq_ok_iff.2 found, loop, anchored⟩, ?_⟩
  obtain ⟨cached, -, -⟩ := tidy.keyed keyed
  obtain ⟨r, isKey⟩ := tidy.recorded_of_cached cached
  obtain ⟨first, k, u, deciding, decides⟩ := tidy.key_spec numbered keyed isKey
  obtain ⟨decision, isFirst, -⟩ := Trace.exists_isFirst deciding decides
  have branch_iff : r.kind = .branch ↔ f = decision := first.eq_firstDecision_iff isKey isFirst
  refine ⟨r, decision, isKey, first, isFirst, branch_iff, fun other => ?_, fun x known => ⟨?_, ?_⟩⟩
  · obtain ⟨step, taken, report⟩ := Recorder.exists_step recorded isKey
    cases step with
    | push record =>
      obtain ⟨kind, instruction⟩ := Prod.mk.inj (Option.some.inj report)
      exact .inr ⟨record, .inl taken, instruction, kind ▸ other⟩
    | exit record =>
      obtain ⟨kind, instruction⟩ := Prod.mk.inj (Option.some.inj report)
      exact .inr ⟨record, .inr taken, instruction, kind ▸ other⟩
    | enter thread method arguments control =>
      obtain ⟨instruction, starts, same⟩ := Option.map_eq_some_iff.1 report
      obtain ⟨m, declared, starts⟩ := Option.bind_eq_some_iff.1 starts
      refine .inl ⟨thread, method, arguments, control, m, taken, declared, starts.trans ?_⟩
      exact congrArg (some ∘ Prod.snd) same
  · intro branch
    obtain rfl := branch_iff.1 branch
    rw [tidy.owner (tidy.place?_of_event known)]
    simp only [Graph.ownerFor, keyed, Option.some_or, reduceCtorEq, if_false]
  · exact fun controls other => tidy.owner?_firstDecision_ne ordered controls numbered keyed isKey
      isFirst (fun same => other (branch_iff.2 same)) known

/-- One method with one instruction, a branch. -/
def countdownDraftSteps : List Draft.Step := [
  .addClass "Countdown" none,
  .addMethod ⟨0⟩ "run" true,
  .addInstruction ⟨0⟩ .branch]

/-- The program that is drafted. -/
def countdownDraft : Draft where
  program :=
    { classes := #[{ id := ⟨0⟩, name := "Countdown", superclass := none }]
      methods := #[
        { id := ⟨0⟩, declaringClass := ⟨0⟩, name := "run", isStatic := true,
          instructions := #[⟨0⟩] }]
      instructions := #[{ id := ⟨0⟩, method := ⟨0⟩, position := 0, kind := .branch }] }

theorem run_countdownDraftSteps : Draft.run countdownDraftSteps = .ok countdownDraft := by decide

/-- The method starts, and its branch is decided twice. -/
def countdownSteps : List Recorder.Step := [
  .enter ⟨0⟩ ⟨0⟩ [] none,
  .push { kind := .branch, instruction := ⟨0⟩, control := some ⟨0⟩ },
  .push { kind := .branch, instruction := ⟨0⟩, control := some ⟨1⟩ }]

/-- What is recorded of it. -/
def countdownRecorder : Recorder where
  program := countdownDraft.program
  events := #[
    { kind := .startMethod, instruction := ⟨0⟩, start := some ⟨0⟩ },
    { kind := .branch, instruction := ⟨0⟩, control := some ⟨0⟩, start := some ⟨0⟩ },
    { kind := .branch, instruction := ⟨0⟩, control := some ⟨1⟩, start := some ⟨0⟩ }]
  frames := Std.TreeMap.insert ∅ ⟨0⟩ [⟨0⟩]

theorem run_countdownSteps :
    Recorder.run countdownDraft.program countdownSteps = .ok countdownRecorder := rfl

/-- The loop is known by the start of the method, and the first decision is not in its block. -/
theorem loop_key_spec_countdown :
    Draft.run countdownDraftSteps = .ok countdownDraft ∧
      Recorder.run countdownDraft.program countdownSteps = .ok countdownRecorder ∧
      countdownRecorder.trace.WellOrdered ∧ countdownRecorder.trace.ControlledByBlocks ∧
      ∃ a, (new countdownRecorder.trace {} {}).1.run [.explain ⟨1⟩, .explain ⟨2⟩] = .ok a ∧
        ∃ l x, a.graph.loopBlocks[(⟨0⟩ : EventId)]? = some l ∧
          a.graph.nodeOf[(⟨1⟩ : EventId)]? = some x ∧ a.graph.owner? x ≠ some l := by
  have ordered : countdownRecorder.trace.WellOrdered := by decide +kernel
  have controls : countdownRecorder.trace.ControlledByBlocks := by decide +kernel
  have inside : ∀ call ∈ [Call.explain ⟨1⟩, Call.explain ⟨2⟩],
      call.event.index < countdownRecorder.trace.size := by decide +kernel
  have seen : ((new countdownRecorder.trace {} {}).1.run
      [.explain ⟨1⟩, .explain ⟨2⟩]).toOption.map (fun a =>
        (a.graph.loopBlocks[(⟨0⟩ : EventId)]?, a.graph.nodeOf[(⟨1⟩ : EventId)]?)) =
      some (some ⟨4⟩, some ⟨2⟩) := by decide +kernel
  obtain ⟨a, succeeds, seen⟩ := exists_ok_of_view seen
  obtain ⟨keyed, known⟩ := Prod.mk.inj seen
  obtain ⟨a', succeeds', blocks⟩ :=
    loop_key_spec run_countdownDraftSteps run_countdownSteps ordered {} {} _ inside
  cases succeeds.symm.trans succeeds'
  obtain ⟨-, r, decision, recorded, -, isFirst, -, -, owner⟩ := blocks ⟨0⟩ ⟨4⟩ keyed
  cases recorded
  -- the event before the first decision is the start of the method
  have isFirst' : countdownRecorder.trace.IsFirst (Record.decides ⟨0⟩ ⟨0⟩) ⟨1⟩ := by
    refine ⟨⟨_, rfl, by decide⟩, fun {e r} recorded decides => Nat.pos_of_ne_zero fun zero => ?_⟩
    obtain rfl : e = ⟨0⟩ := Ident.ext zero
    cases recorded
    cases (Record.decides_iff.1 decides).2
  obtain rfl := isFirst.unique isFirst'
  exact ⟨run_countdownDraftSteps, run_countdownSteps, ordered, controls, a, succeeds, ⟨4⟩, ⟨2⟩,
    keyed, known, (owner ⟨2⟩ known).2 controls nofun⟩

/-- A loop block is known by an event that is no decision: the start of the method. -/
theorem loop_key_start_countdown :
    Recorder.run countdownDraft.program countdownSteps = .ok countdownRecorder ∧
      countdownRecorder.trace.WellOrdered ∧
      ∃ a, (new countdownRecorder.trace {} {}).1.run [.explain ⟨1⟩, .explain ⟨2⟩] = .ok a ∧
        ∃ l n r, a.graph.loopBlocks[(⟨0⟩ : EventId)]? = some l ∧ a.graph.node l = .ok n ∧
          n.event = ⟨0⟩ ∧ countdownRecorder.trace.record? ⟨0⟩ = some r ∧ r.kind = .startMethod := by
  have ordered : countdownRecorder.trace.WellOrdered := by decide +kernel
  have seen : ((new countdownRecorder.trace {} {}).1.run
      [.explain ⟨1⟩, .explain ⟨2⟩]).toOption.map (fun a =>
        (a.graph.loopBlocks[(⟨0⟩ : EventId)]?, (a.graph.node? ⟨4⟩).map (·.event))) =
      some (some ⟨4⟩, some ⟨0⟩) := by decide +kernel
  obtain ⟨a, succeeds, seen⟩ := exists_ok_of_view seen
  obtain ⟨keyed, anchored⟩ := Prod.mk.inj seen
  obtain ⟨n, found, anchored⟩ := Option.map_eq_some_iff.1 anchored
  exact ⟨run_countdownSteps, ordered, a, succeeds, ⟨4⟩, n, _, keyed, Graph.node_eq_ok_iff.2 found,
    anchored, rfl, rfl⟩

end Answer

end Inquest
