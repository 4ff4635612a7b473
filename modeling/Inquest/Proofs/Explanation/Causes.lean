import Mathlib.Data.List.Forall2
import Inquest.Explanation.Cause
import Inquest.Proofs.Explanation.Waiting

/-!
# Explaining one node

Explaining a node places the events that it depends on.  Its causes are the nodes of these events,
and those among them that nobody has visited are left to be explained.

## Main Definitions

* `Trace.Renders` - a cause says what a recorded dependency is
* `Graph.isUnvisited`, `Graph.Done` - nobody has visited a node, or it is explained
* `Graph.Explained` - what explaining a node does

## Main Statements

* `Graph.gather_spec` - the causes for recorded dependencies can be found
* `Graph.explainNode_spec` - a node can be explained
-/

namespace Inquest

/-- A cause says what a recorded dependency is: the event, and the way in which it was used.  With
an operand goes the instruction that produced it. -/
inductive Trace.Renders (t : Trace) : Cause → Dependency → Prop
  | operand {node : NodeId} {event : EventId} {position : Nat} {r : Record}
      (recorded : t.record? event = some r) :
      Renders t ⟨node, event, .operand position r.instruction⟩ ⟨event, .operand position⟩
  | heap {node : NodeId} {event : EventId} : Renders t ⟨node, event, .heap⟩ ⟨event, .heap⟩
  | opaqueArgument {node : NodeId} {event : EventId} :
      Renders t ⟨node, event, .opaqueArgument⟩ ⟨event, .opaqueArgument⟩

theorem Trace.Renders.event {t : Trace} {cause : Cause} {d : Dependency}
    (renders : t.Renders cause d) : cause.event = d.event := by
  cases renders <;> rfl

/-- Causes that say what the dependencies are have their events. -/
theorem Trace.map_event_of_renders {t : Trace} {causes : List Cause}
    {dependencies : List Dependency} (renders : List.Forall₂ t.Renders causes dependencies) :
    causes.map Cause.event = dependencies.map Dependency.event := by
  induction renders with
  | nil => rfl
  | cons first _ ih => rw [List.map_cons, List.map_cons, first.event, ih]

namespace Graph

variable {g g' : Graph} {t : Trace} {c : Config} {e : EventId} {id x : NodeId} {n : Node}
variable {causes : List Cause} {unvisited : List NodeId}

/-! ### Causes -/

/-- The cause for a recorded dependency can be found. -/
theorem causeFor_spec (tidy : g.Tidy t c none) (ordered : t.WellOrdered) {d : Dependency}
    (inside : d.event.index < t.size) :
    ∃ g' cause, g.causeFor t c d = .ok (g', cause) ∧ g'.Tidy t c none ∧
      g.Extends (t.requirements c [d.event]) g' ∧ t.Renders cause d ∧
      g'.nodeOf[cause.event]? = some cause.node := by
  obtain ⟨r, recorded⟩ := Trace.record?_of_lt inside
  obtain ⟨g', id, placed, tidy', extends', known⟩ := place_spec tidy ordered inside
  have instruction : t.instruction d.event = .ok r.instruction :=
    Trace.map_read_of_record? recorded Record.instruction
  obtain ⟨event, role⟩ := d
  unfold causeFor
  cases role with
  | operand position =>
    refine ⟨g', ⟨id, event, .operand position r.instruction⟩, ?_, tidy', extends',
      .operand recorded, known⟩
    simp only [instruction, placed, bind, Except.bind]
    rfl
  | heap =>
    refine ⟨g', ⟨id, event, .heap⟩, ?_, tidy', extends', .heap, known⟩
    simp only [placed, bind, Except.bind]
    rfl
  | opaqueArgument =>
    refine ⟨g', ⟨id, event, .opaqueArgument⟩, ?_, tidy', extends', .opaqueArgument, known⟩
    simp only [placed, bind, Except.bind]
    rfl

/-- The causes for a list of recorded dependencies can be found. -/
theorem gather_spec (ordered : t.WellOrdered) {dependencies : List Dependency}
    (tidy : g.Tidy t c none) (inside : ∀ d ∈ dependencies, d.event.index < t.size) :
    ∃ g' causes, g.gather t c dependencies = .ok (g', causes) ∧ g'.Tidy t c none ∧
      g.Extends (t.requirements c (dependencies.map Dependency.event)) g' ∧
      List.Forall₂ t.Renders causes dependencies ∧
      ∀ cause ∈ causes, g'.nodeOf[cause.event]? = some cause.node := by
  induction dependencies generalizing g with
  | nil => exact ⟨g, [], rfl, tidy, .refl g, .nil, nofun⟩
  | cons d rest ih =>
    obtain ⟨g₁, cause, first, tidy₁, extends₁, renders, known⟩ :=
      causeFor_spec tidy ordered (inside d List.mem_cons_self)
    obtain ⟨g₂, causes, others, tidy₂, extends₂, renders', known'⟩ :=
      ih tidy₁ fun d' member => inside d' (List.mem_cons_of_mem d member)
    have extends' := (extends₁.mono (Trace.requirements_mono (by simp))).trans
      (extends₂.mono (Trace.requirements_mono (List.subset_cons_self d.event _)))
    refine ⟨g₂, cause :: causes, ?_, tidy₂, extends', .cons renders renders', ?_⟩
    · simp only [gather, first, others, bind, Except.bind]
      rfl
    · refine List.forall_mem_cons.2 ⟨?_, known'⟩
      exact extends₂.at? (p := .event cause.event) known

/-! ### Nodes -/

theorem shape?_modify {f : Node → Node} (same : ∀ n, (f n).shape = n.shape) (x : NodeId) :
    (g.modify id f).shape? x = g.shape? x := by
  by_cases self : x = id
  · subst self
    cases found : g.node? x with
    | none => rw [shape?, shape?, node?_modify_eq_none f found]
    | some n => rw [shape?_of_node? (node?_modify_self f found), shape?_of_node? found, same]
  · rw [shape?, shape?, node?_modify_of_ne f self]

theorem progress?_modify_of_ne (f : Node → Node) (different : x ≠ id) :
    (g.modify id f).progress? x = g.progress? x := by
  rw [progress?, progress?, node?_modify_of_ne f different]

/-- A change that leaves the shape of a node alone keeps a graph tidy. -/
theorem Tidy.modify (tidy : g.Tidy t c none) (id : NodeId) {f : Node → Node}
    (same : ∀ n, (f n).shape = n.shape) : (g.modify id f).Tidy t c none :=
  tidy.congr (sameTables_modify g id f) (shape?_modify same)

theorem gains_modify (new : Set EventId) (g : Graph) (id : NodeId) {f : Node → Node}
    (same : ∀ n, (f n).shape = n.shape) : g.Gains new (g.modify id f) :=
  .of_sameTables (sameTables_modify g id f)
    (fun x => by rw [place?, place?, shape?_modify same]) rfl

/-- A node is explained. -/
def Done (g : Graph) (x : NodeId) : Prop := ∃ causes, g.progress? x = some (.done, some causes)

theorem Extends.done {new : Set EventId} (extends' : g.Extends new g') (done : g.Done x) :
    g'.Done x := by
  obtain ⟨causes, progress⟩ := done
  exact ⟨causes, extends'.progress? progress⟩

/-- The graph `g'` is `g` with a node explained, and with the events placed that are its causes.
The causes that nobody has visited are on a list. -/
structure Explained (t : Trace) (c : Config) (g : Graph) (id : NodeId) (causes : List Cause)
    (unvisited : List NodeId) (g' : Graph) : Prop
    extends Gains (t.requirements c (causes.map Cause.event)) g g' where
  self : g'.progress? id = some (.done, some causes)
  other : ∀ {x y}, x ≠ id → g.progress? x = some y → g'.progress? x = some y
  fresh : ∀ {x y}, g'.progress? x = some y → g.size ≤ x.index →
    ∃ p, g'.place? x = some p ∧ y = p.blank
  stands : ∀ cause ∈ causes, g'.nodeOf[cause.event]? = some cause.node
  /-- The causes are those that were recorded. -/
  renders : ∀ {e r}, g'.place? id = some (.event e) → t.record? e = some r →
    List.Forall₂ t.Renders causes (r.dependencies c e)
  covered : ∀ cause ∈ causes,
    cause.node ∈ unvisited ∨ ∀ y, g'.progress? cause.node ≠ some (.unvisited, y)
  listed : unvisited ⊆ causes.map Cause.node

theorem Explained.mono (explained : g.Explained t c id causes unvisited g') (done : g.Done x) :
    g'.Done x := by
  obtain ⟨causes', progress⟩ := done
  by_cases self : x = id
  · exact self ▸ ⟨causes, explained.self⟩
  · exact ⟨causes', explained.other self progress⟩

/-- Whether an identifier names a node that nobody has visited. -/
def isUnvisited (g : Graph) (x : NodeId) : Bool := (g.node? x).any Node.isUnvisited

theorem isUnvisited_iff : g.isUnvisited x = true ↔ ∃ y, g.progress? x = some (.unvisited, y) := by
  unfold isUnvisited progress?
  cases g.node? x with
  | none => simp
  | some n => simp [Node.isUnvisited, Node.progress]

/-- The causes that have a node can be looked at. -/
theorem Tidy.filterM_isUnvisited (tidy : g.Tidy t c none)
    (known : ∀ cause ∈ causes, g.nodeOf[cause.event]? = some cause.node) :
    (causes.map Cause.node).filterM (fun id => Node.isUnvisited <$> g.node id) =
      .ok ((causes.map Cause.node).filter g.isUnvisited) := by
  refine filterM_node_eq_ok_iff.2 ⟨fun x listed => ?_, rfl⟩
  obtain ⟨cause, member, rfl⟩ := List.mem_map.1 listed
  obtain ⟨s, shape, -⟩ := tidy.exists_shape? (p := .event cause.event) (known cause member)
  obtain ⟨n, found, -⟩ := exists_node?_of_shape? shape
  exact ⟨n, found⟩

/-- A node can be explained, and every cause of it that nobody has visited is given back. -/
theorem explainNode_spec (tidy : g.Tidy t c none) (ordered : t.WellOrdered)
    (found : g.node? id = some n) :
    ∃ g' causes unvisited, g.explainNode t c id = .ok (g', unvisited) ∧ g'.Tidy t c none ∧
      g.Explained t c id causes unvisited g' := by
  obtain ⟨r, recorded⟩ : ∃ r, t.record? n.event = some r :=
    tidy.recorded_anchor (shape?_of_node? found)
  have inside : ∀ d ∈ r.dependencies c n.event, d.event.index < t.size := fun d member =>
    ordered.dependency_lt recorded (Record.mem_dependencies_iff.1 (List.mem_map_of_mem member))
  have tidy₁ := tidy.modify id (f := fun n => { n with status := .inProgress }) fun _ => rfl
  have found₁ := node?_modify_self (fun n => { n with status := .inProgress }) found
  have size₁ := (sameTables_modify g id fun n => { n with status := .inProgress }).size
  obtain ⟨g₂, causes, gathered, tidy₂, extends₂, renders, known⟩ :=
    gather_spec ordered tidy₁ inside
  rw [← Trace.map_event_of_renders renders] at extends₂
  have tidy₃ := tidy₂.modify id
    (f := fun n => { n with causes := some causes, status := .done }) fun _ => rfl
  obtain ⟨n₂, found₂, -⟩ :=
    Option.map_eq_some_iff.1 (extends₂.progress? (progress?_of_node? found₁))
  have gains₁ := gains_modify (t.requirements c (causes.map Cause.event)) g id
    (f := fun n => { n with status := .inProgress }) fun _ => rfl
  have gains₃ := gains_modify (t.requirements c (causes.map Cause.event)) g₂ id
    (f := fun n => { n with causes := some causes, status := .done }) fun _ => rfl
  have gains := (gains₁.trans extends₂.toGains).trans gains₃
  refine ⟨_, causes, (causes.map Cause.node).filter g₂.isUnvisited, ?_, tidy₃, gains, ?_,
    fun {x y} different progress => ?_, fun {x y} progress beyond => ?_, fun cause member => ?_,
    fun {e r'} place recorded' => ?_, fun cause member => ?_, List.filter_subset_self _⟩
  · simp only [explainNode, node_eq_ok_iff.2 found₁, Trace.read_of_record? recorded, bind,
      Except.bind, gathered, tidy₂.filterM_isUnvisited known]
    rfl
  · exact progress?_of_node? (node?_modify_self _ found₂)
  · rw [progress?_modify_of_ne _ different]
    refine extends₂.progress? ?_
    rwa [progress?_modify_of_ne _ different]
  · have different : x ≠ id := by
      rintro rfl
      exact absurd (lt_size_of_shape? (shape?_of_node? found)) (Nat.not_lt.2 beyond)
    rw [progress?_modify_of_ne _ different] at progress
    rw [← size₁] at beyond
    obtain ⟨p, place, blank⟩ := extends₂.fresh progress beyond
    exact ⟨p, gains₃.place? place, blank⟩
  · exact gains₃.at? (p := .event cause.event) (known cause member)
  · -- the node stands for the event that it is anchored at
    have shape := shape?_of_node? found
    rw [gains.place? (place?_of_shape? shape), Option.some.injEq] at place
    have sited := tidy.sited shape
    simp only [Shape.Sited, place] at sited
    obtain ⟨rfl, -⟩ := sited
    obtain rfl : r = r' := Option.some.inj (recorded.symm.trans recorded')
    exact renders
  · by_cases unvisited : g₂.isUnvisited cause.node = true
    · exact .inl (List.mem_filter.2 ⟨List.mem_map_of_mem member, unvisited⟩)
    · refine .inr fun y progress => ?_
      by_cases self : cause.node = id
      · rw [self, progress?_of_node? (node?_modify_self _ found₂)] at progress
        cases progress
      · rw [progress?_modify_of_ne _ self] at progress
        exact unvisited (isUnvisited_iff.2 ⟨y, progress⟩)

end Graph

end Inquest
