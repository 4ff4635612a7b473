import Inquest.Proofs.Trace.Continuation
import Inquest.Proofs.Unexecuted.Boundary
import Inquest.Unexecuted.Snapshot

/-!
# What happens later does not matter

A question is asked about the events before its boundary.  Where two recordings agree before the
boundary, a question about the one and a question about the other come to the same, whatever is
requested of them; above all, it does not matter how a recording goes on.  Only the switches that
leave out callers look at the recording as a whole, and they have to be off.

The analysis of one instruction looks at invocations before the boundary, at the records and ends
of their events, and at the last call before the boundary.  Apart from analyses, a question reads
the operands of a branch that did execute, and such a branch lies before the boundary.

## Main Definitions

* `Scope.Alike` - two scopes with recordings that agree before the boundary
* `Question.about` - the same graph about another scope
* `Question.Grounded` - executions that are reported lie before the boundary

## Main Statements

* `Scope.Alike.analyse` - the analyses of two such scopes agree
* `Question.converse_about` - so do all conversations
* `Question.future_irrelevant` - a recording may go on
-/

namespace Inquest

/-! ### Analyses -/

namespace Scope

/-- Two scopes with recordings that agree before their boundary, and with the switches off that
leave out callers. -/
structure Alike (s s' : Scope) : Prop where
  config : s'.config = s.config
  boundary : s'.boundary = s.boundary
  trace : s.trace.AgreeBefore s'.trace s.boundary
  receivers : s.config.pruneByReceiver = false
  instances : s.config.pruneUninstantiated = false

namespace Alike

variable {s s' : Scope} {start : EventId} (alike : s.Alike s')

include alike

theorem check (before : start < s.boundary) (x : Expectation) :
    x.check s'.trace start = x.check s.trace start := by
  have argument : ∀ position,
      s'.trace.argument start position = s.trace.argument start position := by
    intro position
    simp only [Trace.argument, Trace.get, alike.trace.record? start before]
  cases x <;> simp only [Expectation.check, Expectation.checkArgument, argument]

theorem invocationsMatching (method : MethodId) (x : Expectation) (outcome : Match) :
    s'.invocationsMatching method x outcome = s.invocationsMatching method x outcome := by
  unfold Scope.invocationsMatching
  rw [alike.boundary, alike.trace.invocationsOf]
  refine List.filter_congr fun start listed => ?_
  rw [alike.check (of_decide_eq_true (List.mem_filter.1 listed).2)]

theorem endOf? (start : EventId) : s'.endOf? start = s.endOf? start := by
  ext finish
  rw [endOf?_eq_some_iff, endOf?_eq_some_iff, alike.boundary]
  exact and_congr_left fun before => alike.trace.endOf? start finish before

theorem limit (start : EventId) : s'.limit start = s.limit start := by
  unfold Scope.limit
  rw [alike.endOf?, alike.boundary]

theorem executionIn? (before : start < s.boundary) (instruction : InstructionId) :
    s'.executionIn? instruction start = s.executionIn? instruction start := by
  unfold Scope.executionIn?
  rw [alike.limit, alike.trace.findBetween (limit_lt_boundary before)]

theorem caughtIn? (before : start < s.boundary) (i : Instruction) :
    s'.caughtIn? i start = s.caughtIn? i start := by
  unfold Scope.caughtIn?
  rw [alike.limit, alike.trace.findLastBetween (limit_lt_boundary before)]

theorem escapeFrom? (start : EventId) : s'.escapeFrom? start = s.escapeFrom? start := by
  ext finish
  rw [escapeFrom?_eq_some_iff, escapeFrom?_eq_some_iff, ← and_assoc, ← and_assoc,
    ← endOf?_eq_some_iff, ← endOf?_eq_some_iff, alike.endOf?]
  refine and_congr_right fun ended => ?_
  rw [alike.trace.record? finish (endOf?_eq_some_iff.1 ended).2]

theorem withinInvocation (before : start < s.boundary) (i : Instruction) (search : Expectation) :
    s'.withinInvocation i search start = s.withinInvocation i search start := by
  unfold Scope.withinInvocation
  rw [alike.executionIn? before, alike.caughtIn? before, alike.escapeFrom?]

/-- With the switches off, every call site counts as a caller. -/
theorem callersOf (m : Method) (search : Expectation) :
    s'.callersOf m search = s.callersOf m search := by
  have feasible : ∀ receivers site,
      s'.isFeasible m.id receivers site = s.isFeasible m.id receivers site := by
    intro receivers site
    simp only [isFeasible, alike.config, alike.receivers, alike.instances, Bool.false_and]
  unfold Scope.callersOf
  rw [alike.trace.program, funext (feasible _)]

theorem lastCall? (callers : IdentSet .instruction) :
    s'.lastCall? callers = s.lastCall? callers := by
  unfold Scope.lastCall?
  rw [alike.boundary]
  cases previous : s.boundary.previous with
  | none => rfl
  | some last =>
    have next := index_of_previous previous
    exact alike.trace.findLastBetween (Ident.lt_def.2 (by omega))

theorem withoutInvocation (m : Method) (i : Instruction) (x search : Expectation) :
    s'.withoutInvocation m i x search = s.withoutInvocation m i x search := by
  simp only [Scope.withoutInvocation, alike.callersOf, alike.lastCall?, alike.trace.program]

theorem analyseIn (m : Method) (i : Instruction) (x : Expectation) :
    s'.analyseIn m i x = s.analyseIn m i x := by
  unfold Scope.analyseIn
  simp only [alike.trace.program, alike.invocationsMatching, alike.withoutInvocation]
  split
  · next start latest =>
    have before := lt_boundary_of_mem_invocationsMatching (List.mem_of_getLast? latest)
    rw [alike.withinInvocation before]
  · rfl

/-- The analyses of two scopes agree. -/
theorem analyse (instruction : InstructionId) (x : Expectation) :
    s'.analyse instruction x = s.analyse instruction x := by
  unfold Scope.analyse
  simp only [alike.trace.program, alike.analyseIn]

theorem operands {e : EventId} (before : e < s.boundary) :
    s'.trace.operands e = s.trace.operands e := by
  simp only [Trace.operands, Trace.read, alike.trace.record? e before]

end Alike

end Scope

namespace Question

variable {s s' : Scope} {q q' : Question} {a id : UnexecutedId} {n : Unexecuted} {e : EventId}
variable {children : List UnexecutedId} {v : Verdict} {reason : Reason}

/-! ### Executions that are reported -/

/-- The question is about the scope, and every execution that it reports lies before the
boundary. -/
structure Grounded (s : Scope) (q : Question) : Prop where
  scope : q.scope = s
  reported : ∀ a n, q.node? a = some n → ∀ e, n.reason.execution? = some e → e < s.boundary

/-- The reason that a verdict comes to reports an execution only if the verdict does. -/
theorem execution?_of_reasonFor (settled : q.reasonFor children v = .ok reason) :
    reason.execution? = v.execution? := by
  cases v with
  | final reason' =>
    cases settled
    rfl
  | callers method callers x =>
    cases settled
    rfl
  | guards guards x =>
    obtain ⟨decided, -, settled⟩ := bind_eq_ok_iff.1 settled
    cases decided with
    | some branch =>
      obtain ⟨operands, -, rfl⟩ := map_eq_ok_iff.1 settled
      rfl
    | none =>
      cases settled
      rfl

namespace Grounded

theorem fresh (s : Scope) : Grounded s { scope := s } := by
  refine ⟨rfl, fun a n found => ?_⟩
  simp [node?] at found

variable (grounded : Grounded s q)

include grounded

theorem execution?_lt (reported : q.execution? a = .ok (some e)) : e < s.boundary := by
  obtain ⟨n, found, reported⟩ := map_eq_ok_iff.1 reported
  split at reported
  · exact grounded.reported a n (node_eq_ok_iff.1 found) e reported
  · cases reported

theorem appends (appends : q.Appends q') : Grounded s q' := by
  refine ⟨appends.scope.trans grounded.scope, fun a n found e reported => ?_⟩
  rcases appends.fresh found with old | ⟨-, fresh⟩
  · exact grounded.reported a n old e reported
  · rw [fresh] at reported
    cases reported

/-- Changing a node is harmless if its reason stays the same or reports nothing else. -/
theorem modify {f : Unexecuted → Unexecuted}
    (harmless : ∀ n e, (f n).reason.execution? = some e →
      n.reason.execution? = some e ∨ e < s.boundary) : Grounded s (q.modify id f) := by
  refine ⟨grounded.scope, fun a m found e reported => ?_⟩
  rw [node?_modify] at found
  split at found
  · obtain ⟨n, old, rfl⟩ := Option.map_eq_some_iff.1 found
    rcases harmless n e reported with same | before
    · exact grounded.reported a n old e same
    · exact before
  · exact grounded.reported a m found e reported

theorem foldl_link (id : UnexecutedId) (causes : List UnexecutedId) :
    Grounded s (causes.foldl (·.link id ·) q) := by
  induction causes generalizing q with
  | nil => exact grounded
  | cons cause rest ih =>
    refine ih (modify (modify grounded ?_) ?_)
    · exact fun _ _ reported => .inl reported
    · exact fun _ _ reported => .inl reported

theorem opened (id : UnexecutedId) (finding : Finding) :
    Grounded s ((q.begin id finding).internAll finding.verdict.children).1 := by
  have begun : Grounded s (q.begin id finding) := grounded.modify fun _ _ reported => .inl reported
  exact begun.appends (appends_internAll _ finding.verdict.children)

theorem finish {instruction : InstructionId} {x : Expectation}
    (finished : q.finish id children (s.analyse instruction x).verdict = .ok q') :
    Grounded s q' := by
  obtain ⟨explained, -, finished⟩ := bind_eq_ok_iff.1 finished
  obtain ⟨reason, settled, concluded⟩ := bind_eq_ok_iff.1 finished
  cases concluded
  refine (grounded.foldl_link id _).modify fun n e reported => .inr ?_
  have reported : reason.execution? = some e := reported
  rw [execution?_of_reasonFor settled] at reported
  exact Scope.execution?_lt_boundary reported

omit grounded in
theorem visit {depth : Nat} :
    ∀ {q q' id}, Grounded s q → visit depth q id = .ok q' → Grounded s q' := by
  induction depth using Nat.strong_induction_on with
  | _ depth ih =>
    intro q q' id grounded visits
    rcases visit_cases visits with rfl | ⟨n, -, rest, less, p, folded, finished⟩
    · exact grounded
    · rw [grounded.scope] at folded finished
      have explored := foldlM_induction (grounded.opened id _) (fun _ => ih rest less) folded
      exact explored.finish finished

theorem ask {instruction : InstructionId} {x : Expectation}
    (asked : q.ask instruction x = .ok (q', id)) : Grounded s q' :=
  grounded.appends (appends_ask asked)

theorem converse (requests : List Request) : Grounded s (q.converse requests).1 :=
  converse_induction (fun grounded asked => grounded.ask asked) Grounded.visit grounded requests

end Grounded

/-! ### The same graph about another scope -/

/-- The same graph about another scope. -/
def about (q : Question) (s : Scope) : Question := { q with scope := s }

theorem intern_about (instruction : InstructionId) (x : Expectation) :
    (q.about s').intern instruction x =
      ((q.intern instruction x).1.about s', (q.intern instruction x).2) := by
  have same : (q.about s').lookup? instruction x = q.lookup? instruction x := rfl
  unfold intern
  rw [same]
  cases q.lookup? instruction x <;> rfl

theorem internAll_about (keys : List (InstructionId × Expectation)) :
    (q.about s').internAll keys = ((q.internAll keys).1.about s', (q.internAll keys).2) := by
  induction keys generalizing q with
  | nil => rfl
  | cons k rest ih =>
    obtain ⟨instruction, x⟩ := k
    simp only [internAll, intern_about, ih]

theorem foldl_link_about (causes : List UnexecutedId) :
    causes.foldl (·.link id ·) (q.about s') = (causes.foldl (·.link id ·) q).about s' := by
  induction causes generalizing q with
  | nil => rfl
  | cons cause rest ih => exact @ih (q.link id cause)

section Alike

variable (alike : s.Alike s')

include alike

theorem reasonFor_about (grounded : Grounded s q) :
    (q.about s').reasonFor children v = q.reasonFor children v := by
  cases v with
  | final reason => rfl
  | callers method callers x => rfl
  | guards guards x =>
    have same : children.findSomeM? (q.about s').execution? =
        children.findSomeM? q.execution? := rfl
    rw [reasonFor, reasonFor, same]
    cases decided : children.findSomeM? q.execution? with
    | error fault => rfl
    | ok found =>
      cases found with
      | none => rfl
      | some branch =>
        obtain ⟨c, -, reported⟩ := exists_of_findSomeM?_eq_ok decided
        show Reason.wrongWay branch <$> s'.trace.operands branch =
          Reason.wrongWay branch <$> q.scope.trace.operands branch
        rw [alike.operands (grounded.execution?_lt reported), grounded.scope]

theorem finish_about (grounded : Grounded s q) :
    (q.about s').finish id children v = (·.about s') <$> q.finish id children v := by
  have same : children.filterM (q.about s').isDone = children.filterM q.isDone := rfl
  rw [finish, finish, same]
  cases children.filterM q.isDone with
  | error fault => rfl
  | ok explained =>
    have linked := grounded.foldl_link id explained
    show (Question.reasonFor _ children v >>= _) = _ <$> (Question.reasonFor _ children v >>= _)
    rw [foldl_link_about, reasonFor_about alike linked]
    cases (explained.foldl (·.link id ·) q).reasonFor children v <;> rfl

/-- Visits to a node correspond. -/
theorem visit_about (depth : Nat) : ∀ {q id}, Grounded s q →
    visit depth (q.about s') id = (·.about s') <$> visit depth q id := by
  induction depth with
  | zero =>
    intro q id _
    have node : (q.about s').node id = q.node id := rfl
    rw [visit, visit, node]
    cases q.node id with
    | error fault => rfl
    | ok n =>
      simp only [bind, Except.bind]
      split <;> rfl
  | succ depth ih =>
    intro q id grounded
    cases node : q.node id with
    | error fault =>
      have node' : (q.about s').node id = .error fault := node
      rw [visit, visit, node, node']
      rfl
    | ok n =>
      have found := node_eq_ok_iff.1 node
      have found' : (q.about s').node? id = some n := found
      by_cases unvisited : n.status = .unvisited
      · have same : (q.about s').scope.analyse n.instruction n.expectation =
            q.scope.analyse n.instruction n.expectation := by
          rw [grounded.scope]
          exact alike.analyse _ _
        have begun : ∀ finding, (q.about s').begin id finding = (q.begin id finding).about s' :=
          fun _ => rfl
        rw [visit_succ found unvisited, visit_succ found' unvisited]
        simp only [same, begun, internAll_about]
        have opened := grounded.opened id (q.scope.analyse n.instruction n.expectation)
        rw [foldlM_comm Grounded.visit ih opened]
        cases folded : List.foldlM (visit depth) _ _ with
        | error fault => rfl
        | ok p =>
          exact finish_about alike (foldlM_induction opened (fun _ => Grounded.visit) folded)
      · rw [visit_of_visited found unvisited, visit_of_visited found' unvisited]
        rfl

theorem explain_about (grounded : Grounded s q) :
    (q.about s').explain id = (·.about s') <$> q.explain id := by
  have bound : (q.about s').depthBound = q.depthBound := by
    simp only [depthBound, about, grounded.scope, alike.trace.program]
  rw [explain, bound]
  exact visit_about alike _ grounded

theorem explainBatch_about (grounded : Grounded s q) (canceled : Nat → Bool)
    (ids : List UnexecutedId) :
    (q.about s').explainBatch canceled ids =
      (fun result => (result.1.about s', result.2)) <$> q.explainBatch canceled ids := by
  unfold explainBatch
  generalize 0 = position
  induction ids generalizing q position with
  | nil => rfl
  | cons id rest ih =>
    unfold explainBatch.go
    split
    · rfl
    · rw [explain_about alike grounded]
      cases explained : q.explain id with
      | error fault => rfl
      | ok p => exact ih (grounded.visit explained) _

/-- Replies to a request are the same. -/
theorem answer_about (grounded : Grounded s q) (request : Request) :
    (q.about s').answer request =
      (fun result => (result.1.about s', result.2)) <$> q.answer request := by
  cases request with
  | ask instruction x =>
    have program : (q.about s').scope.trace.program = q.scope.trace.program := by
      rw [grounded.scope]
      exact alike.trace.program
    simp only [answer, ask, program, intern_about]
    cases q.scope.trace.program.instruction? instruction <;> rfl
  | explain id =>
    simp only [answer, explain_about alike grounded]
    cases q.explain id with
    | error fault => rfl
    | ok p =>
      have node : (p.about s').node id = p.node id := rfl
      show (p.about s').node id >>= _ = _ <$> (p.node id >>= _)
      rw [node]
      cases p.node id <;> rfl
  | explainBatch canceled ids =>
    simp only [answer, explainBatch_about alike grounded]
    cases q.explainBatch canceled ids <;> rfl
  | decidingEvents id =>
    have events : (q.about s').decidingEvents id = q.decidingEvents id := rfl
    simp only [answer, events]
    cases q.decidingEvents id <;> rfl

/-- Conversations about two scopes that are alike come to the same. -/
theorem converse_about (grounded : Grounded s q) (requests : List Request) :
    (q.about s').converse requests =
      ((q.converse requests).1.about s', (q.converse requests).2) := by
  induction requests generalizing q with
  | nil => rfl
  | cons request rest ih =>
    unfold converse
    rw [answer_about alike grounded]
    cases answered : q.answer request with
    | error fault => rfl
    | ok result =>
      have later : Grounded s result.1 :=
        answer_induction (fun grounded asked => grounded.ask asked) Grounded.visit grounded answered
      show ((result.1.about s').converse rest |>.1, _) = _
      rw [ih later]

end Alike

theorem snapshot_about (boundary : s'.boundary = q.scope.boundary) :
    (q.about s').snapshot = q.snapshot := by
  simp only [snapshot, about, boundary]

/-! ### Recordings that go on -/

/-- What happens after the boundary does not matter.  However a recording goes on, and whatever is
requested of a question about the events before the boundary, the replies and the snapshot are the
same, unless call sites are left out for want of receivers or instances. -/
theorem future_irrelevant (program : Program) (steps more : List Recorder.Step)
    (r r' : Recorder) (recorded : Recorder.run program steps = .ok r)
    (continued : Recorder.run program (steps ++ more) = .ok r') (config : Config)
    (receivers : config.pruneByReceiver = false)
    (instances : config.pruneUninstantiated = false) (boundary : EventId)
    (inside : boundary.index ≤ r.events.size) (requests : List Request) :
    (converse { scope := ⟨r'.trace, config, boundary⟩ } requests).2 =
        (converse { scope := ⟨r.trace, config, boundary⟩ } requests).2 ∧
      (converse { scope := ⟨r'.trace, config, boundary⟩ } requests).1.snapshot =
        (converse { scope := ⟨r.trace, config, boundary⟩ } requests).1.snapshot := by
  have alike : Scope.Alike ⟨r.trace, config, boundary⟩ ⟨r'.trace, config, boundary⟩ :=
    ⟨rfl, rfl, Recorder.agreeBefore_of_run recorded continued inside, receivers, instances⟩
  have grounded := Grounded.fresh ⟨r.trace, config, boundary⟩
  have same : converse { scope := ⟨r'.trace, config, boundary⟩ } requests = _ :=
    converse_about alike grounded requests
  rw [same]
  exact ⟨rfl, snapshot_about (by rw [(grounded.converse requests).scope])⟩

/-- What is recorded at the gate before the second branch: both invocations are open. -/
def gateOpen : Recorder where
  program := gateDraft.program
  events := #[
    { kind := .startMethod, instruction := ⟨0⟩, start := some ⟨0⟩, arguments := [some ⟨1⟩] },
    { kind := .branch, instruction := ⟨0⟩, start := some ⟨0⟩, operands := [⟨0⟩] },
    { kind := .startMethod, instruction := ⟨0⟩, start := some ⟨2⟩, arguments := [some ⟨2⟩] },
    { kind := .branch, instruction := ⟨0⟩, start := some ⟨2⟩ }]
  frames := (Std.TreeMap.insert ∅ ⟨0⟩ [⟨0⟩]).insert ⟨0⟩ [⟨2⟩, ⟨0⟩]

/-- The second branch and the ends of both invocations are recorded later, and change nothing. -/
theorem future_irrelevant_gate :
    Recorder.run gateDraft.program (gateSteps.take 4) = .ok gateOpen ∧
      Recorder.run gateDraft.program (gateSteps.take 4 ++ gateSteps.drop 4) = .ok gateRecorder ∧
      (converse { scope := ⟨gateRecorder.trace, .literal, ⟨4⟩⟩ }
          [.ask ⟨2⟩ (.receiver ⟨2⟩), .explain ⟨0⟩, .decidingEvents ⟨0⟩]).2 =
        [.ok (.asked (.ok ⟨0⟩)), .ok (.explained (.wrongWay ⟨3⟩ [])),
          .ok (.decidedBy (.ofList [⟨3⟩]))] := by
  have recorded : Recorder.run gateDraft.program (gateSteps.take 4) = .ok gateOpen := rfl
  have continued : Recorder.run gateDraft.program (gateSteps.take 4 ++ gateSteps.drop 4) =
      .ok gateRecorder := run_gateSteps
  refine ⟨recorded, continued, ?_⟩
  rw [(future_irrelevant gateDraft.program (gateSteps.take 4) (gateSteps.drop 4) gateOpen
    gateRecorder recorded continued .literal rfl rfl ⟨4⟩ (Nat.le_refl 4) _).1]
  with_unfolding_all rfl

end Question

end Inquest
