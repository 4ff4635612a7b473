import Inquest.Proofs.Explanation.Construction
import Inquest.Proofs.Explanation.Runs
import Inquest.Proofs.Trace.Routes

/-!
# What branches remember of their paths

The path that was taken from a branch on is searched for once, when somebody asks for it or when the
branch joins the block of a loop, and is kept in the node from then on.  Nodes are moved from block
to block meanwhile, and get members, depths and causes.  None of this touches the event of a branch
or what it remembers, and so the path that is kept is the path taken, for each trace, whatever a
reader asked for before.

This holds without any condition on the references of the trace.  A request may fail on one that
leads outside of the recording or forward, but where it succeeds it has kept what branches remember.

## Main Definitions

* `Node.Faithful`, `Graph.Faithful` - branches stand for recorded branches and remember no wrong
  path

## Main Statements

* `Node.Faithful.touched` - touching a node keeps what it remembers
* `Answer.faithful_of_live` - whatever a reader does
* `Answer.loopPath_eq_pathTaken` - the loop path of a branch is the first declared one that was
  taken
-/

namespace Inquest

variable {t : Trace}

namespace Node

variable {n m : Node}

/-- A branch node stands for a recorded branch and remembers the path taken, if any. -/
def Faithful (t : Trace) (n : Node) : Prop :=
  ∀ memo ∈ n.kind.memo?, t.isBranch n.event = true ∧
    ∀ path, memo = .resolved path → path = t.pathFrom? n.event

theorem faithful_of_memo? (forgetful : n.kind.memo? = none) : n.Faithful t := by
  intro memo remembered
  rw [forgetful] at remembered
  cases remembered

theorem Faithful.of_laps (faithful : m.Faithful t) (same : n.laps = m.laps) : n.Faithful t := by
  have event : n.event = m.event := congrArg Prod.fst same
  have memo : n.kind.memo? = m.kind.memo? := congrArg (·.2.1) same
  rw [Faithful, event, memo]
  exact faithful

/-- Resolving a path gives the right one. -/
theorem Faithful.resolvePath (faithful : n.Faithful t) :
    (n.resolvePath t.pathFrom?).Faithful t := by
  unfold Node.resolvePath
  split
  · next unresolved =>
    obtain ⟨branch, -⟩ := faithful .unresolved (by rw [unresolved]; rfl)
    intro memo remembered
    cases remembered
    exact ⟨branch, fun path resolved => (PathMemo.resolved.inj resolved).symm⟩
  · exact faithful

/-- The node of an event that nobody has asked about. -/
theorem faithful_ofEvent {e : EventId} {r : Record} (recorded : t.record? e = some r)
    (called : Bool) : ({ event := e, kind := .ofEvent r.kind called } : Node).Faithful t := by
  intro memo remembered
  have branch : t.isBranch e = r.kind.isBranch := by rw [Trace.isBranch, recorded]; rfl
  rw [branch]
  cases kind : r.kind <;> rw [kind] at remembered <;> cases remembered
  refine ⟨rfl, fun path resolved => ?_⟩
  cases resolved

/-- Touching a node keeps what it remembers. -/
theorem Faithful.touched (faithful : n.Faithful t) (touched : Touched t n m) : m.Faithful t := by
  cases touched with
  | explain same =>
    have same : m.body.laps = n.body.laps := congrArg Node.laps same
    exact faithful.of_laps same
  | deepen => exact faithful.of_laps rfl
  | note block depth => exact faithful.of_laps (n.laps_noteDepth block depth)
  | resolve => exact faithful.resolvePath
  | regroup => exact faithful_of_memo? rfl

theorem Fresh.faithful (fresh : n.Fresh t) : n.Faithful t := by
  cases fresh with
  | event recorded called => exact faithful_ofEvent recorded called
  | loop | thread => exact faithful_of_memo? rfl

end Node

namespace Graph

variable {g g' : Graph} {id : NodeId} {n : Node}

/-- Branches stand for recorded branches and remember the path taken, if any. -/
def Faithful (t : Trace) (g : Graph) : Prop := ∀ x n, g.node? x = some n → n.Faithful t

theorem Faithful.remembers (faithful : g.Faithful t) : g.Remembers t := by
  intro x e path runs known
  obtain ⟨n, found, laps⟩ := Option.map_eq_some_iff.1 known
  obtain ⟨rfl, memo, -⟩ : n.event = e ∧ n.kind.memo? = some (.resolved path) ∧ n.kind.runs = runs :=
    by simpa [Node.laps] using laps
  exact (faithful x n found _ memo).2 path rfl

/-- Every node can be asked for its path. -/
theorem Faithful.traceable (faithful : g.Faithful t) (found : g.node? id = some n) :
    g.Traceable t id := by
  refine ⟨n.shape, shape?_of_node? found, fun isBranch => ?_⟩
  have isBranch : n.kind.isBranch = true := n.kind.isBranch_bare.symm.trans isBranch
  cases kind : n.kind <;> rw [kind] at isBranch <;> cases isBranch
  obtain ⟨recorded, -⟩ := faithful id n found _ (by rw [kind]; rfl)
  obtain ⟨r, recorded, -⟩ := (Option.any_eq_true _ _).1 recorded
  exact ⟨r, recorded⟩

/-- Edits keep what branches remember. -/
theorem Edits.faithful (edits : Edits t g g') (faithful : g.Faithful t) : g'.Faithful t :=
  edits.forall_node (fun touched kept => kept.touched touched) (fun fresh => fresh.faithful)
    (fun _ _ _ kept => kept) faithful

end Graph

namespace Answer

variable {a a' : Answer}

/-- Whatever a reader does, branches remember no wrong path. -/
theorem faithful_of_live {actions : List Action} {reports : List Report}
    (start : a.graph.Filed ∧ a.graph.Faithful a.trace)
    (lived : a.live actions = .ok (a', reports)) :
    a'.trace = a.trace ∧ a'.graph.Faithful a.trace := by
  obtain ⟨trace, work⟩ := work_of_live start.1 lived
  exact ⟨trace, work.edits.faithful start.2⟩

theorem faithful_new (t : Trace) (c : Config) (counter : AnswerCounter) :
    (new t c counter).1.graph.Filed ∧ (new t c counter).1.graph.Faithful t := by
  refine ⟨Graph.filed_empty, fun x n found => ?_⟩
  cases found

/-- Asking a branch for its path leaves the path there, and changes nothing else. -/
theorem loopPath_of_faithful {id : NodeId} {n : Node} {memo : PathMemo}
    (faithful : a.graph.Faithful a.trace) (found : a.graph.node? id = some n)
    (branch : n.kind = .branch memo) :
    a.loopPath id = .ok ({ a with graph := a.graph.modify id fun m =>
      { m with kind := .branch (.resolved (a.trace.pathFrom? n.event)) } },
      a.trace.pathFrom? n.event) := by
  obtain ⟨-, right⟩ := faithful id n found memo (by rw [branch]; rfl)
  have resolved : n.resolvePath a.trace.pathFrom? =
      { n with kind := .branch (.resolved (a.trace.pathFrom? n.event)) } := by
    cases memo with
    | unresolved => simp only [Node.resolvePath, branch]
    | resolved path =>
      have same : n.resolvePath a.trace.pathFrom? = n := by simp only [Node.resolvePath, branch]
      rw [same, ← right path rfl, ← branch]
  obtain ⟨path, asked⟩ := (faithful.traceable found).loopPath
  obtain ⟨n', found', -, rfl⟩ := Graph.loopPath_cases asked
  cases found.symm.trans found'
  have graph : a.graph.resolvePath a.trace id = a.graph.modify id fun m =>
      { m with kind := .branch (.resolved (a.trace.pathFrom? n.event)) } :=
    Graph.modify_congr found resolved
  rw [loopPath, asked, resolved, graph]
  rfl

/-- Whatever a reader did with an answer, the loop path of a branch is the first path declared for
its instruction, in the order of declaration, that has a branch and that the route of the event
starts with: what the event executed and then what the later branches of its invocation did, on its
thread and up to the end of the invocation, in ascending order.  There is none only if there is no
such path.  The node remembers no other path than this one, and asking for it has no effect but that
the node remembers it. -/
theorem loopPath_eq_pathTaken (t : Trace) (c : Config) (counter : AnswerCounter)
    (actions : List Action) (a : Answer) (reports : List Report)
    (lived : (new t c counter).1.live actions = .ok (a, reports)) (id : NodeId) (n : Node)
    (memo : PathMemo) (found : a.graph.node id = .ok n) (branch : n.kind = .branch memo) :
    ∃ r, t.record? n.event = some r ∧ r.kind = .branch ∧
      (t.laterBranches r n.event).Pairwise (· < ·) ∧
      (∀ e, e ∈ t.laterBranches r n.event ↔
        n.event < e ∧ t.SharesFrame r e ∧ t.BeforeEnd r e ∧ t.isBranch e = true) ∧
      a.loopPath id = .ok ({ a with graph := a.graph.modify id fun m =>
        { m with kind := .branch (.resolved (t.pathTaken r n.event)) } },
        t.pathTaken r n.event) ∧
      ∀ path, memo = .resolved path → path = t.pathTaken r n.event := by
  obtain ⟨trace, faithful⟩ := faithful_of_live (faithful_new t c counter) lived
  obtain rfl : a.trace = t := trace
  have found : a.graph.node? id = some n := Graph.node_eq_ok_iff.1 found
  obtain ⟨isBranch, right⟩ := faithful id n found memo (by rw [branch]; rfl)
  obtain ⟨r, recorded, kind⟩ := (Option.any_eq_true _ _).1 isBranch
  have taken : a.trace.pathFrom? n.event = a.trace.pathTaken r n.event :=
    Trace.pathFrom?_of_record? recorded
  refine ⟨r, recorded, of_decide_eq_true kind, a.trace.pairwise_laterBranches r n.event,
    fun e => Trace.mem_laterBranches, ?_, fun path resolved => (right path resolved).trans taken⟩
  rw [← taken]
  exact loopPath_of_faithful faithful found branch

/-- Two iterations of a loop.  Another thread decides a branch in the meantime, and so does an inner
invocation.  The recording ends in the second iteration, with an event whose control it does not
have. -/
def strides : Trace where
  program :=
    { classes := #[{ id := ⟨0⟩, name := "Walker", superclass := none }]
      methods := #[
        { id := ⟨0⟩, declaringClass := ⟨0⟩, name := "walk", isStatic := true,
          instructions := #[⟨0⟩, ⟨1⟩, ⟨2⟩, ⟨3⟩] }]
      instructions := #[
        { id := ⟨0⟩, method := ⟨0⟩, position := 0, kind := .other },
        { id := ⟨1⟩, method := ⟨0⟩, position := 1, kind := .branch, loopPaths := [
          { id := ⟨0⟩, branches := [] },
          { id := ⟨1⟩, branches := [⟨1⟩, ⟨2⟩, ⟨3⟩] },
          { id := ⟨2⟩, branches := [⟨1⟩, ⟨2⟩] },
          { id := ⟨3⟩, branches := [⟨1⟩] }] },
        { id := ⟨2⟩, method := ⟨0⟩, position := 2, kind := .branch },
        { id := ⟨3⟩, method := ⟨0⟩, position := 3, kind := .branch }] }
  events := #[
    { kind := .startMethod, instruction := ⟨0⟩, start := some ⟨0⟩ },
    { kind := .branch, instruction := ⟨1⟩, start := some ⟨0⟩ },
    { kind := .branch, instruction := ⟨3⟩, thread := ⟨1⟩ },
    { kind := .branch, instruction := ⟨2⟩, start := some ⟨0⟩ },
    { kind := .startMethod, instruction := ⟨0⟩, start := some ⟨4⟩ },
    { kind := .branch, instruction := ⟨3⟩, start := some ⟨4⟩ },
    { kind := .returned, instruction := ⟨0⟩, start := some ⟨4⟩ },
    { kind := .branch, instruction := ⟨1⟩, start := some ⟨0⟩ },
    { kind := .value, instruction := ⟨0⟩, control := some ⟨99⟩, start := some ⟨0⟩ }]
  ends := Std.TreeMap.insert ∅ ⟨4⟩ ⟨6⟩
  ends_recorded := (EndsRecorded.empty _).insert ⟨4⟩ (by decide)

/-- The first iteration is asked for its path early, and remembers it.  The longest path does not
fit it, since the branch that would do is one of the inner invocation; the second iteration fits the
shortest path only. -/
theorem loopPath_eq_pathTaken_strides :
    ∃ a reports, (new strides {} {}).1.live
        [.call (.request ⟨1⟩), .follow ⟨0⟩, .call (.explain ⟨7⟩)] = .ok (a, reports) ∧
      (∃ n, a.graph.node ⟨0⟩ = .ok n ∧ n.kind = .branch (.resolved (some ⟨2⟩)) ∧
        Prod.snd <$> a.loopPath ⟨0⟩ = .ok (some ⟨2⟩)) ∧
      ∃ n, a.graph.node ⟨2⟩ = .ok n ∧ n.kind = .branch .unresolved ∧
        Prod.snd <$> a.loopPath ⟨2⟩ = .ok (some ⟨3⟩) := by
  have seen : ((new strides {} {}).1.live
      [.call (.request ⟨1⟩), .follow ⟨0⟩, .call (.explain ⟨7⟩)]).toOption.map (fun session =>
        ([⟨0⟩, ⟨2⟩] : List NodeId).map fun id =>
          (session.1.graph.node? id).map fun n => (n.event, n.kind)) =
      some [some (⟨1⟩, .branch (.resolved (some ⟨2⟩))), some (⟨7⟩, .branch .unresolved)] := by
    decide +kernel
  obtain ⟨⟨a, reports⟩, lived, seen⟩ := exists_ok_of_view seen
  have path := loopPath_eq_pathTaken strides {} {} _ a reports lived
  simp only [List.map_cons, List.map_nil, List.cons.injEq, Option.map_eq_some_iff, Prod.mk.injEq]
    at seen
  obtain ⟨⟨n, found, event, kind⟩, ⟨n', found', event', kind'⟩, -⟩ := seen
  refine ⟨a, reports, lived, ⟨n, Graph.node_eq_ok_iff.2 found, kind, ?_⟩,
    ⟨n', Graph.node_eq_ok_iff.2 found', kind', ?_⟩⟩
  · obtain ⟨r, -, -, -, -, asked, right⟩ := path ⟨0⟩ n _ (Graph.node_eq_ok_iff.2 found) kind
    rw [asked, ← right _ rfl]
    rfl
  · obtain ⟨r, recorded, -, -, -, asked, -⟩ := path ⟨2⟩ n' _ (Graph.node_eq_ok_iff.2 found') kind'
    rw [event'] at recorded asked
    obtain rfl : { kind := .branch, instruction := ⟨1⟩, start := some ⟨0⟩ } = r :=
      Option.some.inj recorded
    have taken : strides.pathTaken { kind := .branch, instruction := ⟨1⟩, start := some ⟨0⟩ } ⟨7⟩ =
        some ⟨3⟩ := by decide +kernel
    rw [asked, taken]
    rfl

end Answer

end Inquest
