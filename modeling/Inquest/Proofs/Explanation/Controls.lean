import Inquest.Proofs.Explanation.Closure
import Inquest.Proofs.Explanation.Iterations

/-!
# The blocks that stand for controls

When an event is placed that a control decides, and that iterates no loop, the block that stands
for the control is looked up once and remembered: the node of the control if that is a block, else
the block that the node belongs to.  A control that is no block may turn out to start a loop later.
Its node then moves into the block of the loop, and what is remembered stays: it is the block around
the loop from then on.

Whether this has happened can be read off the graph, for nodes are numbered in the order in which
they are made.  The block is remembered when the first of the events is placed that the control
decides outside of loops; so a loop block comes too late exactly if one of these events is older.

## Main Definitions

* `Graph.DecidedBefore` - a control decides an event that is older than some node
* `Graph.Overtaken` - the block of the loop that a control starts came too late
* `Graph.Carries` - the node whose block is remembered for a control
* `Graph.Recalled` - the invariant

## Main Statements

* `Graph.Leads.recalled` - changes one after the other keep the invariant
* `Answer.control_blocks_recalled` - the blocks that stand for controls, after any requests
-/

namespace Inquest

/-- An event that is no block. -/
def Trace.Plain (t : Trace) (e : EventId) : Prop :=
  ∃ r, t.record? e = some r ∧ r.kind.canControl = false

namespace Graph

variable {g g' : Graph} {t : Trace} {c : Config} {loose loose' : Option EventId}
variable {e f k : EventId} {id b x l anchor outer : NodeId} {s : Shape} {r : Record}

/-- A control decides an event, outside of loops, that is older than some node. -/
def DecidedBefore (g : Graph) (t : Trace) (c : Config) (k : EventId) (l : NodeId) : Prop :=
  ∃ (e : EventId) (x : NodeId), g.nodeOf[e]? = some x ∧ x.index < l.index ∧
    t.controlOf? e = some k ∧ t.loopOf? c e = none

/-- A control starts a loop, and an event that it decides outside of loops is older than the block
of the loop. -/
def Overtaken (g : Graph) (t : Trace) (c : Config) (k : EventId) : Prop :=
  ∃ l, g.loopBlocks[k]? = some l ∧ g.DecidedBefore t c k l

/-- The node whose block is remembered for a control: that of the control, or the block of the loop
that came too late. -/
def Carries (g : Graph) (t : Trace) (c : Config) (k : EventId) (x : NodeId) : Prop :=
  g.nodeOf[k]? = some x ∧ ¬ g.Overtaken t c k ∨
    g.loopBlocks[k]? = some x ∧ g.DecidedBefore t c k x

theorem Carries.known (carries : g.Carries t c k x) :
    g.nodeOf[k]? = some x ∨ g.loopBlocks[k]? = some x :=
  carries.imp And.left And.left

theorem carries_congr (nodeOf : g'.nodeOf[k]? = g.nodeOf[k]?)
    (loopBlocks : g'.loopBlocks[k]? = g.loopBlocks[k]?)
    (before : ∀ l, g.loopBlocks[k]? = some l →
      (g'.DecidedBefore t c k l ↔ g.DecidedBefore t c k l)) :
    g'.Carries t c k x ↔ g.Carries t c k x := by
  have overtaken : g'.Overtaken t c k ↔ g.Overtaken t c k := by
    unfold Overtaken
    rw [loopBlocks]
    exact exists_congr fun l => and_congr_right (before l)
  unfold Carries
  rw [nodeOf, loopBlocks, overtaken]
  exact or_congr_right (and_congr_right (before x))

/-! ### The invariant -/

/-- What is remembered for a control that is no block is the block of the node that carries it. -/
structure Recalled (t : Trace) (c : Config) (loose : Option EventId) (g : Graph) : Prop where
  owner : ∀ {k : EventId} {b x}, g.controlBlocks[k]? = some b → t.Plain k → g.Carries t c k x →
    g.owner? x = some b
  /-- Nothing is remembered for the loose event. -/
  unmet : ∀ {e : EventId}, loose = some e → g.controlBlocks[e]? = none

theorem recalled_empty (t : Trace) (c : Config) : ({} : Graph).Recalled t c none := by
  refine ⟨fun {k b x} stands => ?_, fun isLoose => ?_⟩
  · rw [show ({} : Graph).controlBlocks[k]? = none from Std.TreeMap.getElem?_emptyc] at stands
    cases stands
  · cases isLoose

namespace Recalled

/-- A change of explanations does not matter. -/
theorem sameBodies (recalled : g.Recalled t c loose) (same : g.SameBodies g')
    (controls : g'.controlBlocks = g.controlBlocks) : g'.Recalled t c loose := by
  refine ⟨fun {k b x} stands plain carries => ?_, fun isLoose => controls ▸ recalled.unmet isLoose⟩
  rw [controls] at stands
  rw [same.owner?]
  refine recalled.owner stands plain ((carries_congr ?_ ?_ fun l _ => ?_).1 carries)
  · rw [same.nodeOf]
  · rw [same.loopBlocks]
  · simp only [DecidedBefore, same.nodeOf]

/-- The block that stands for the control of the loose event is remembered.  No event outside of
loops that the control decides was placed before, for its block would be remembered. -/
theorem remembered (recalled : g.Recalled t c (some e)) (tidy : g.Tidy t c (some e))
    (ordered : t.WellOrdered) (grouped : g.Grouped t c (some e))
    (decided : t.controlOf? e = some k) (noLoop : t.loopOf? c e = none)
    (unknown : g.controlBlocks[k]? = none) (known : g.nodeOf[k]? = some id)
    (stands : g.standIn? id = some b) : (g.remember k id b).Recalled t c (some e) := by
  have memo : ∀ k', (g.remember k id b).controlBlocks[k']? =
      if k' = k then some b else g.controlBlocks[k']? :=
    fun k' => Ident.getElem?_insert g.controlBlocks k k' b
  have first : ∀ l, g.loopBlocks[k]? = some l → ¬ g.DecidedBefore t c k l := by
    rintro l isLoop ⟨e', y, known', older, decided', noLoop'⟩
    by_cases isLoose : e' = e
    · -- no loop block is younger than the loose event
      subst isLoose
      have iterates := grouped.young rfl known' (tidy.registered (p := .loop k).1 isLoop) older
      cases noLoop.symm.trans iterates
    · obtain ⟨b', stands'⟩ := tidy.exists_controlBlock ⟨y, known'⟩
        (fun same => isLoose (Option.some.inj same).symm) decided' noLoop'
      cases unknown.symm.trans stands'
  refine ⟨fun {k' b' x} stands' plain carries => ?_, fun {e'} isLoose => ?_⟩
  · have carries : g.Carries t c k' x := carries
    rw [memo] at stands'
    split at stands'
    · next same =>
      subst same
      rw [Option.some.injEq] at stands'
      subst stands'
      rcases carries with ⟨known', -⟩ | ⟨isLoop, before⟩
      · -- the node of the control is no block
        obtain rfl := Option.some.inj (known.symm.trans known')
        obtain ⟨s, r, found, -, -, recorded, kind⟩ := tidy.shape?_of_event known
        obtain ⟨r', recorded', isPlain⟩ := plain
        obtain rfl := Option.some.inj (recorded.symm.trans recorded')
        have notBlock : g.isBlock id = false := by
          rw [isBlock_of_shape? found, Shape.isBlock, kind, NodeKind.isBlock_ofEvent, isPlain]
        rw [standIn?, notBlock] at stands
        exact stands
      · exact absurd before (first x isLoop)
    · exact recalled.owner stands' plain carries
  · cases isLoose
    obtain ⟨r, recorded, controlled⟩ := Option.bind_eq_some_iff.1 decided
    have other : e ≠ k := by
      rintro rfl
      exact Nat.lt_irrefl _ (ordered.control recorded controlled)
    rw [memo, if_neg other]
    exact recalled.unmet rfl

/-- Appending a node that belongs nowhere, other than a loop block, changes nothing that is
remembered. -/
theorem appended (recalled : g.Recalled t c loose) (tidy : g.Tidy t c loose)
    (appended : g.Appended s g') (missing : g.at? s.place = none) (unowned : s.owner = none)
    (notLoop : ∀ first, s.place ≠ .loop first)
    (unmet : ∀ {e : EventId}, loose' = some e → g.controlBlocks[e]? = none) :
    g'.Recalled t c loose' := by
  have grows := appended.grows missing
  refine ⟨fun {k b x} stands plain carries => ?_, fun {e} isLoose => ?_⟩
  · rw [appended.controlBlocks] at stands
    obtain ⟨id, known⟩ := (tidy.memo stands).1
    rw [appended.owner? unowned]
    refine recalled.owner stands plain ((carries_congr ?_ ?_ fun l isLoop => ?_).1 carries)
    · rw [known]
      exact grows.at? (p := .event k) known
    · exact appended.loopBlocks notLoop k
    · have inside := tidy.lt_size_of_at? (p := .loop k) isLoop
      constructor
      · rintro ⟨e, y, known', older, decided⟩
        have known' : g'.at? (.event e) = some y := known'
        rw [appended.at?] at known'
        split at known'
        · -- the new node is younger than any loop block
          obtain rfl := Option.some.inj known'
          exact absurd older (Nat.not_lt.2 (Nat.le_of_lt inside))
        · exact ⟨e, y, known', older, decided⟩
      · rintro ⟨e, y, known', older, decided⟩
        exact ⟨e, y, grows.at? (p := .event e) known', older, decided⟩
  · rw [appended.controlBlocks]
    exact unmet isLoose

theorem addEvent (recalled : g.Recalled t c none) (tidy : g.Tidy t c none)
    (unknown : g.nodeOf[e]? = none) (kind : EventKind) :
    (g.addEvent t e kind).Recalled t c (some e) := by
  have place : Shape.place
      { kind := .ofEvent kind (kind.isInvocation && t.startsNext e), anchor := e } =
        .event e := NodeKind.place_ofEvent _ _ e
  refine recalled.appended tidy (appended_addEvent g t e kind) (place ▸ unknown) rfl
    (fun first isLoop => ?_) fun {e'} isLoose => ?_
  · rw [place] at isLoop
    cases isLoop
  · cases isLoose
    refine Option.eq_none_iff_forall_ne_some.2 fun b stands => ?_
    obtain ⟨id, known⟩ := (tidy.memo stands).1
    cases unknown.symm.trans known

theorem addThread (recalled : g.Recalled t c loose) (tidy : g.Tidy t c loose) {thread : ThreadId}
    (unknown : g.threadBlocks[thread]? = none) (first : EventId) :
    (g.addThread thread first).Recalled t c loose :=
  recalled.appended tidy (appended_addThread g thread first) unknown rfl nofun recalled.unmet

/-- The loose event joins its block.  Nothing is remembered for it, and it starts no loop. -/
theorem adopted (recalled : g.Recalled t c (some e)) (tidy : g.Tidy t c (some e))
    (ordered : t.WellOrdered) (known : g.nodeOf[e]? = some id) (target : g.target? t c e = some b)
    (attached : g.attach t id b = .ok g') : g'.Recalled t c none := by
  obtain ⟨n, m, -, node, -, node', different, -, linked⟩ :=
    adopting_spec tidy ordered known target attached
  have owner :=
    linked.owner? (shape?_of_node? node) (shape?_of_node? node') different
  refine ⟨fun {k b' x} stands plain carries => ?_, fun isLoose => by cases isLoose⟩
  rw [linked.controlBlocks] at stands
  have carries : g.Carries t c k x := by
    refine (carries_congr ?_ ?_ fun l _ => ?_).1 carries
    · rw [linked.nodeOf]
    · rw [linked.loopBlocks]
    · simp only [DecidedBefore, linked.nodeOf]
  have other : x ≠ id := by
    rintro rfl
    rcases carries.known with known' | isLoop
    · cases tidy.event_unique known known'
      cases (recalled.unmet rfl).symm.trans stands
    · cases (tidy.place?_of_event known).symm.trans (tidy.registered (p := .loop k).1 isLoop)
  rw [owner, if_neg other]
  exact recalled.owner stands plain carries

/-- A loop block is put around the event that starts the loop.  What is remembered for the event was
the block around it, and is the block around the loop now. -/
theorem enclosed (recalled : g.Recalled t c loose) (tidy : g.Tidy t c loose)
    (unknown : g.loopBlocks[f]? = none)
    (known : g.nodeOf[f]? = some anchor) (owned : g.owner? anchor = some outer)
    (enclosed : g.Enclosed f anchor outer g') (controls : g'.controlBlocks = g.controlBlocks) :
    g'.Recalled t c loose := by
  have before : ∀ k l, g'.DecidedBefore t c k l ↔ g.DecidedBefore t c k l := fun k l => by
    simp only [DecidedBefore, enclosed.nodeOf]
  refine ⟨fun {k b x} stands plain carries => ?_, fun isLoose => controls ▸ recalled.unmet isLoose⟩
  rw [controls] at stands
  have isAnchor := tidy.place?_of_event known
  by_cases isFirst : k = f
  · subst isFirst
    -- the event that the control decides is older than the new block
    have late : g'.DecidedBefore t c k ⟨g.size⟩ := by
      obtain ⟨e, ⟨y, known'⟩, decided⟩ := tidy.decides stands
      exact (before k _).2 ⟨e, y, known', tidy.lt_size_of_at? (p := .event e) known', decided⟩
    obtain rfl : x = ⟨g.size⟩ := by
      rcases carries with ⟨-, current⟩ | ⟨isLoop, -⟩
      · exact absurd ⟨_, enclosed.loopBlocks_self, late⟩ current
      · exact (Option.some.inj (enclosed.loopBlocks_self.symm.trans isLoop)).symm
    have held : g.owner? anchor = some b := by
      refine recalled.owner stands plain (.inl ⟨known, ?_⟩)
      rintro ⟨l, isLoop, -⟩
      cases unknown.symm.trans isLoop
    rw [enclosed.owner?, if_neg (ne_size_of_owner? owned).symm, if_pos rfl, ← owned, held]
  · have carries : g.Carries t c k x :=
      (carries_congr (enclosed.nodeOf k) (enclosed.loopBlocks_of_ne isFirst)
        fun l _ => before k l).1 carries
    have held := recalled.owner stands plain carries
    have other : x ≠ anchor := by
      rintro rfl
      rcases carries.known with known' | isLoop
      · exact isFirst (tidy.event_unique known' known)
      · cases isAnchor.symm.trans (tidy.registered (p := .loop k).1 isLoop)
    rw [enclosed.owner?, if_neg other, if_neg (ne_size_of_owner? held), held]

end Recalled

/-- Changes one after the other, from the empty graph, keep what is remembered in order. -/
theorem Leads.recalled {Q : Graph → Graph → Prop} (leads : Leads t c Q none {} loose g)
    (ordered : t.WellOrdered) : g.Recalled t c loose := by
  induction leads with
  | refl => exact recalled_empty t c
  | step before change _ ih =>
    have tidy := before.tidy (tidy_empty t c)
    cases change with
    | quiet same controls => exact ih.sameBodies same controls
    | control _ decided noLoop unknown known stands =>
      exact ih.remembered tidy ordered
        (before.grouped ordered (tidy_empty t c) (grouped_empty t c)) decided noLoop unknown known
        stands
    | event recorded unknown => exact ih.addEvent tidy unknown _
    | thread isFirst unknown => exact ih.addThread tidy unknown _
    | loop cached iterates unknown known owned attached rehomed =>
      obtain ⟨g₃, g₄, -, -, moved, moved₃, moved₄, enclosed, -, -, alike⟩ :=
        enclosing_spec tidy ordered cached iterates unknown known owned attached rehomed
      refine ih.enclosed tidy unknown known owned (enclosed.alike alike) ?_
      rw [alike.controlBlocks, moved₄.controlBlocks, moved₃.controlBlocks, moved.controlBlocks]
      rfl
    | adopt known target attached => exact ih.adopted tidy ordered known target attached

/-- The node of a control that starts a loop lies in the block of the loop. -/
theorem Tidy.owner?_of_loopBlocks (tidy : g.Tidy t c none) (known : g.nodeOf[k]? = some id)
    (isLoop : g.loopBlocks[k]? = some l) : g.owner? id = some l := by
  rw [tidy.owner (tidy.place?_of_event known), ownerFor, if_neg (by simp), isLoop]
  rfl

end Graph

/-! ### Answers -/

namespace Answer

/-- Whatever is asked of a fresh answer, a block stands for a control exactly if the control decides
an event in the graph outside of loops.  It is the node of the control if that is a block.  Else it
is the block that the node belongs to, unless the control starts a loop whose block came too late:
then the node belongs to the block of the loop, and the one that stands for the control lies around
it. -/
theorem control_blocks_recalled (t : Trace) (c : Config) (ordered : t.WellOrdered)
    (counter : AnswerCounter) (calls : List Call)
    (inside : ∀ call ∈ calls, call.event.index < t.size) :
    ∃ a, (new t c counter).1.run calls = .ok a ∧ ∀ k : EventId,
      ((∃ b, a.graph.controlBlocks[k]? = some b) ↔
        ∃ e, a.graph.Cached e ∧ t.controlOf? e = some k ∧ t.loopOf? c e = none) ∧
      ∀ b, a.graph.controlBlocks[k]? = some b →
        ∃ id n, a.graph.nodeOf[k]? = some id ∧ a.graph.node id = .ok n ∧
          (n.isBlock = true → b = id) ∧
          (n.isBlock = false →
            (n.owner = some b ↔ ¬ a.graph.Overtaken t c k) ∧
            (a.graph.Overtaken t c k → ∃ l m, a.graph.loopBlocks[k]? = some l ∧
              n.owner = some l ∧ a.graph.node l = .ok m ∧ m.owner = some b)) := by
  obtain ⟨a, succeeds, reached⟩ := (orderly_new t c counter).run ordered inside
  have tidy := reached.tidy
  have recalled := (leads_of_run ordered inside succeeds).recalled ordered
  refine ⟨a, succeeds, fun k => ⟨⟨?_, ?_⟩, fun b stands => ?_⟩⟩
  · rintro ⟨b, stands⟩
    exact tidy.decides stands
  · rintro ⟨e, cached, decided, noLoop⟩
    exact tidy.exists_controlBlock cached (Option.some_ne_none e).symm decided noLoop
  obtain ⟨⟨id, known⟩, -, -, -, -, own⟩ := tidy.memo stands
  obtain ⟨s, r, found, -, -, recorded, kind⟩ := tidy.shape?_of_event known
  obtain ⟨n, node, rfl⟩ := Graph.exists_node?_of_shape? found
  have isBlock : n.isBlock = r.kind.canControl := by
    rw [← n.isBlock_shape, Shape.isBlock, kind, NodeKind.isBlock_ofEvent]
  have owner : a.graph.owner? id = n.owner := Graph.owner?_of_shape? found
  refine ⟨id, n, known, Graph.node_eq_ok_iff.2 node, fun block => ?_, fun plain => ?_⟩
  · exact Option.some.inj ((own r recorded (isBlock.symm.trans block)).symm.trans known)
  have plain : t.Plain k := ⟨r, recorded, isBlock.symm.trans plain⟩
  have around : ∀ {l}, a.graph.loopBlocks[k]? = some l → a.graph.DecidedBefore t c k l →
      n.owner = some l ∧ a.graph.owner? l = some b := fun isLoop before =>
    ⟨owner.symm.trans (tidy.owner?_of_loopBlocks known isLoop),
      recalled.owner stands plain (.inr ⟨isLoop, before⟩)⟩
  refine ⟨⟨?_, fun current => ?_⟩, ?_⟩
  · rintro owned ⟨l, isLoop, before⟩
    obtain ⟨owned', outer⟩ := around isLoop before
    obtain rfl := Option.some.inj (owned.symm.trans owned')
    exact tidy.owner?_ne_self ordered outer rfl
  · rw [← owner]
    exact recalled.owner stands plain (.inl ⟨known, current⟩)
  · rintro ⟨l, isLoop, before⟩
    obtain ⟨owned, outer⟩ := around isLoop before
    obtain ⟨m, node', owner'⟩ := Graph.exists_node?_of_owner? outer
    exact ⟨l, m, isLoop, owned, Graph.node_eq_ok_iff.2 node', owner'⟩

/-- An exception is caught at a branch, and the branch is decided twice from there: the first time
for the exception, the second time as an iteration of the loop that the exception starts. -/
def caughtAtBranch : Trace where
  program :=
    { classes := #[{ id := ⟨0⟩, name := "Table", superclass := none }]
      methods := #[
        { id := ⟨0⟩, declaringClass := ⟨0⟩, name := "run", isStatic := true,
          instructions := #[⟨0⟩] }]
      instructions := #[{ id := ⟨0⟩, method := ⟨0⟩, position := 0, kind := .branch }] }
  events := #[
    { kind := .exceptionCaught, instruction := ⟨0⟩ },
    { kind := .branch, instruction := ⟨0⟩, control := some ⟨0⟩ },
    { kind := .branch, instruction := ⟨0⟩, control := some ⟨1⟩ }]
  ends := ∅

/-- If the iteration is explained first, the block of the loop is there when the other decision is
placed, and it stands for the exception. -/
theorem control_blocks_recalled_caughtAtBranch :
    caughtAtBranch.WellOrdered ∧
      ∃ a, (new caughtAtBranch {} {}).1.run [.explain ⟨2⟩, .explain ⟨1⟩] = .ok a ∧
        ∃ id n l, a.graph.nodeOf[(⟨0⟩ : EventId)]? = some id ∧ a.graph.node id = .ok n ∧
          n.isBlock = false ∧ a.graph.loopBlocks[(⟨0⟩ : EventId)]? = some l ∧
          a.graph.controlBlocks[(⟨0⟩ : EventId)]? = some l ∧ n.owner = some l ∧
          ¬ a.graph.Overtaken caughtAtBranch {} ⟨0⟩ := by
  have ordered : caughtAtBranch.WellOrdered := by decide +kernel
  have inside : ∀ call ∈ [Call.explain ⟨2⟩, Call.explain ⟨1⟩],
      call.event.index < caughtAtBranch.size := by decide +kernel
  have seen : ((new caughtAtBranch {} {}).1.run [.explain ⟨2⟩, .explain ⟨1⟩]).toOption.map (fun a =>
      ((a.graph.node? ⟨0⟩).map (fun n => (n.isBlock, n.owner)), a.graph.nodeOf[(⟨0⟩ : EventId)]?,
        a.graph.loopBlocks[(⟨0⟩ : EventId)]?, a.graph.controlBlocks[(⟨0⟩ : EventId)]?)) =
      some (some (false, some ⟨3⟩), some ⟨0⟩, some ⟨3⟩, some ⟨3⟩) := by decide +kernel
  obtain ⟨a, succeeds, seen⟩ := exists_ok_of_view seen
  simp only [Prod.mk.injEq, Option.map_eq_some_iff] at seen
  obtain ⟨⟨n, found, plain, owned⟩, known, isLoop, stands⟩ := seen
  obtain ⟨a', succeeds', controls⟩ := control_blocks_recalled caughtAtBranch {} ordered {} _ inside
  cases succeeds.symm.trans succeeds'
  have found := Graph.node_eq_ok_iff.2 found
  obtain ⟨id, n', known', found', -, ofPlain⟩ := (controls ⟨0⟩).2 _ stands
  cases known.symm.trans known'
  cases found.symm.trans found'
  exact ⟨ordered, a, succeeds, ⟨0⟩, n, ⟨3⟩, known, found, plain, isLoop, stands, owned,
    (ofPlain plain).1.1 owned⟩

/-- If it is explained last, the exception moves into the block of the loop, and the block of the
thread still stands for it. -/
theorem stale_control_caughtAtBranch :
    caughtAtBranch.WellOrdered ∧
      ∃ a, (new caughtAtBranch {} {}).1.run [.explain ⟨1⟩, .explain ⟨2⟩] = .ok a ∧
        ∃ id n l root, a.graph.nodeOf[(⟨0⟩ : EventId)]? = some id ∧ a.graph.node id = .ok n ∧
          n.isBlock = false ∧ n.owner = some l ∧
          a.graph.controlBlocks[(⟨0⟩ : EventId)]? = some root ∧ root ≠ l := by
  have ordered : caughtAtBranch.WellOrdered := by decide +kernel
  have seen : ((new caughtAtBranch {} {}).1.run [.explain ⟨1⟩, .explain ⟨2⟩]).toOption.map (fun a =>
      ((a.graph.node? ⟨0⟩).map (fun n => (n.isBlock, n.owner)), a.graph.nodeOf[(⟨0⟩ : EventId)]?,
        a.graph.controlBlocks[(⟨0⟩ : EventId)]?)) =
      some (some (false, some ⟨4⟩), some ⟨0⟩, some ⟨1⟩) := by decide +kernel
  obtain ⟨a, succeeds, seen⟩ := exists_ok_of_view seen
  simp only [Prod.mk.injEq, Option.map_eq_some_iff] at seen
  obtain ⟨⟨n, found, plain, owned⟩, known, stands⟩ := seen
  exact ⟨ordered, a, succeeds, ⟨0⟩, n, ⟨4⟩, ⟨1⟩, known, Graph.node_eq_ok_iff.2 found, plain, owned,
    stands, by decide⟩

end Answer

end Inquest
