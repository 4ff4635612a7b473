import Mathlib.Data.Set.Basic
import Inquest.Proofs.Explanation.Additions

/-!
# What placing events leaves behind

Placing an event only ever adds to a graph.  What was in its tables stays there, no explanation is
touched, and a new node is either the node of an event that nobody has visited or a block that
needs no explanation.  The controls that are left to be explained are exactly those for which a
block was remembered on the way.

## Main Definitions

* `Graph.Gains` - a graph that has grown by the nodes of some events
* `Graph.Extends` - a graph that came from another one by placing events

## Main Statements

* `Graph.Extends.trans` - placements one after the other
* `Graph.appended_push`, `Graph.extends_push` - appending one node
-/

namespace Inquest

/-- How far the explanation of a new node has come: an event has yet to be explained, and a block
needs no explanation. -/
def Place.blank : Place → Status × Option (List Cause)
  | .event _ => (.unvisited, none)
  | .loop _ => (.done, some [])
  | .thread _ => (.done, some [])

namespace Graph

variable {g g' g'' : Graph} {e : EventId} {x : NodeId} {n : Node} {new : Set EventId}

theorem lt_size_of_progress? {y : Status × Option (List Cause)} (known : g.progress? x = some y) :
    x.index < g.size := by
  obtain ⟨n, found, -⟩ := Option.map_eq_some_iff.1 known
  exact (Array.getElem?_eq_some_iff.1 found).1

theorem exists_progress?_of_lt (inside : x.index < g.size) : ∃ y, g.progress? x = some y :=
  ⟨_, by rw [progress?, node?, Array.getElem?_eq_getElem inside, Option.map_some]⟩

/-- What is known about a node afterwards was known before, if what was known is kept. -/
theorem progress?_of_kept {y : Status × Option (List Cause)}
    (kept : ∀ {y}, g.progress? x = some y → g'.progress? x = some y) (inside : x.index < g.size)
    (known : g'.progress? x = some y) : g.progress? x = some y := by
  obtain ⟨y', known'⟩ := exists_progress?_of_lt inside
  rwa [← kept known', known] at known'

/-! ### Growing tables -/

theorem Grows.refl (g : Graph) : g.Grows g := ⟨id, id, id⟩

theorem Grows.trans (first : g.Grows g') (second : g'.Grows g'') : g.Grows g'' :=
  ⟨fun known => second.at? (first.at? known), fun known => second.place? (first.place? known),
    fun stands => second.controlBlocks (first.controlBlocks stands)⟩

/-- The list of controls that have to be explained is no table. -/
theorem Grows.withUnexplained (g : Graph) (pending : List NodeId) :
    g.Grows { g with unexplainedControls := pending } := ⟨id, id, id⟩

theorem SameTables.grows (tables : g.SameTables g') (places : ∀ x, g'.place? x = g.place? x) :
    g.Grows g' := by
  refine ⟨fun {p id} known => ?_, fun {id p} known => ?_, fun {k b} stands => ?_⟩
  · rwa [tables.at?]
  · rwa [places]
  · rwa [tables.controlBlocks]

/-- The graph `g'` has grown from `g`, by no nodes of events but those of some new ones. -/
structure Gains (new : Set EventId) (g g' : Graph) : Prop extends Grows g g' where
  size_le : g.size ≤ g'.size
  arrived : ∀ {e}, g'.Cached e → g.Cached e ∨ e ∈ new
  /-- Controls that are left to be explained are not forgotten. -/
  waiting : g.unexplainedControls ⊆ g'.unexplainedControls
  /-- A control for which a block is remembered is left to be explained. -/
  noted : ∀ {k : EventId} {b}, g'.controlBlocks[k]? = some b →
    g.controlBlocks[k]? = some b ∨ ∃ id ∈ g'.unexplainedControls, g'.nodeOf[k]? = some id
  /-- Nothing else is left to be explained. -/
  source : ∀ {id}, id ∈ g'.unexplainedControls → id ∈ g.unexplainedControls ∨
    ∃ (k : EventId) (b : NodeId), g'.controlBlocks[k]? = some b ∧ g'.nodeOf[k]? = some id

namespace Gains

/-- A graph grows by nodes without new controls. -/
theorem of_grows (grows : g.Grows g') (size_le : g.size ≤ g'.size)
    (arrived : ∀ {e}, g'.Cached e → g.Cached e ∨ e ∈ new)
    (controlBlocks : g'.controlBlocks = g.controlBlocks)
    (unexplained : g'.unexplainedControls = g.unexplainedControls) : g.Gains new g' :=
  ⟨grows, size_le, arrived, unexplained ▸ List.Subset.refl _,
    fun stands => .inl (controlBlocks ▸ stands), fun listed => .inl (unexplained ▸ listed)⟩

theorem of_sameTables (tables : g.SameTables g') (places : ∀ x, g'.place? x = g.place? x)
    (unexplained : g'.unexplainedControls = g.unexplainedControls) : g.Gains new g' :=
  of_grows (tables.grows places) (Nat.le_of_eq tables.size.symm)
    (fun cached => .inl ((cached_congr tables).1 cached)) tables.controlBlocks unexplained

theorem refl (g : Graph) : g.Gains new g :=
  of_grows (.refl g) (Nat.le_refl _) .inl rfl rfl

theorem mono {more : Set EventId} (gains : g.Gains new g') (subset : new ⊆ more) :
    g.Gains more g' :=
  { gains with arrived := fun cached => (gains.arrived cached).imp_right fun isNew => subset isNew }

theorem trans (first : g.Gains new g') (second : g'.Gains new g'') : g.Gains new g'' := by
  refine ⟨first.toGrows.trans second.toGrows, Nat.le_trans first.size_le second.size_le,
    fun cached => (second.arrived cached).elim first.arrived .inr,
    fun _ listed => second.waiting (first.waiting listed), fun {k b} stands => ?_,
    fun {id} listed => ?_⟩
  · rcases second.noted stands with stands | waits
    · refine (first.noted stands).imp_right ?_
      rintro ⟨id, listed, known⟩
      exact ⟨id, second.waiting listed, second.at? (p := .event k) known⟩
    · exact .inr waits
  · rcases second.source listed with listed | noted
    · refine (first.source listed).imp_right ?_
      rintro ⟨k, b, stands, known⟩
      exact ⟨k, b, second.controlBlocks stands, second.at? (p := .event k) known⟩
    · exact .inr noted

end Gains

/-! ### Placements -/

/-- The graph `g'` came from `g` by placing events, with nodes for no events but some new ones. -/
structure Extends (new : Set EventId) (g g' : Graph) : Prop extends Gains new g g' where
  /-- No explanation is touched. -/
  progress? : ∀ {x y}, g.progress? x = some y → g'.progress? x = some y
  fresh : ∀ {x y}, g'.progress? x = some y → g.size ≤ x.index →
    ∃ p, g'.place? x = some p ∧ y = p.blank

namespace Extends

theorem refl (g : Graph) : g.Extends new g :=
  ⟨.refl g, id, fun known beyond => absurd (lt_size_of_progress? known) (Nat.not_lt.2 beyond)⟩

theorem mono {more : Set EventId} (extends' : g.Extends new g') (subset : new ⊆ more) :
    g.Extends more g' :=
  ⟨extends'.toGains.mono subset, extends'.progress?, extends'.fresh⟩

theorem trans (first : g.Extends new g') (second : g'.Extends new g'') : g.Extends new g'' := by
  refine ⟨first.toGains.trans second.toGains,
    fun known => second.progress? (first.progress? known), fun {x y} known beyond => ?_⟩
  by_cases later : g'.size ≤ x.index
  · exact second.fresh known later
  · have known' := progress?_of_kept second.progress? (Nat.lt_of_not_le later) known
    obtain ⟨p, place, blank⟩ := first.fresh known' beyond
    exact ⟨p, second.place? place, blank⟩

/-- A change of owners and members extends a graph. -/
theorem of_keeps (keeps : g.Keeps g') (outline : g.SameOutline g') : g.Extends new g' := by
  refine ⟨.of_sameTables keeps.toSameTables outline.place? keeps.unexplainedControls,
    fun known => ?_, fun {x y} known beyond => ?_⟩
  · rwa [keeps.progress?]
  · rw [keeps.progress?] at known
    exact absurd (lt_size_of_progress? known) (Nat.not_lt.2 beyond)

/-- Remembering the block of a control, and leaving the control to be explained, extends a
graph. -/
theorem of_remembered {k : EventId} {b id : NodeId} (unknown : g.controlBlocks[k]? = none)
    (known : g.nodeOf[k]? = some id) :
    g.Extends new { g with
      controlBlocks := g.controlBlocks.insert k b
      unexplainedControls := id :: g.unexplainedControls } := by
  refine ⟨⟨⟨fun known => known, fun known => known, fun {k' b'} stands => ?_⟩, Nat.le_refl _, .inl,
    List.subset_cons_self _ _, fun {k' b'} stands => ?_, fun {id'} listed => ?_⟩,
    fun known => known,
    fun known beyond => absurd (lt_size_of_progress? known) (Nat.not_lt.2 beyond)⟩
  · rw [Ident.getElem?_insert]
    split
    · next same =>
      rw [← same, stands] at unknown
      cases unknown
    · exact stands
  · rw [Ident.getElem?_insert] at stands
    split at stands
    · next same => exact .inr ⟨id, List.mem_cons_self, same ▸ known⟩
    · exact .inl stands
  · rcases List.mem_cons.1 listed with rfl | listed
    · exact .inr ⟨k, b, Std.TreeMap.getElem?_insert_self, known⟩
    · exact .inl listed

theorem of_alike (alike : g.Alike g') : g.Extends new g' :=
  of_keeps alike.toKeeps fun x => by rw [alike.shape?]

end Extends

/-! ### Appending one node -/

theorem node?_push (nodes : g'.nodes = g.nodes.push n) (x : NodeId) :
    g'.node? x = if x = ⟨g.size⟩ then some n else g.node? x := by
  rw [node?, nodes, Array.getElem?_push]
  have index : x.index = g.nodes.size ↔ x = ⟨g.size⟩ := by rw [Ident.ext_iff]; rfl
  simp only [index]
  rfl

/-- A node that was appended and entered into its table. -/
theorem appended_push (nodes : g'.nodes = g.nodes.push n)
    (at? : ∀ p, g'.at? p = if p = n.shape.place then some ⟨g.size⟩ else g.at? p)
    (controlBlocks : g'.controlBlocks = g.controlBlocks) : g.Appended n.shape g' := by
  refine ⟨?_, fun {x} old => ?_, at?, controlBlocks⟩
  · rw [shape?, node?_push nodes, if_pos rfl, Option.map_some]
  · rw [shape?, shape?, node?_push nodes, if_neg old]

/-- Appending a node that nobody has visited extends a graph. -/
theorem extends_push (nodes : g'.nodes = g.nodes.push n) (appended : g.Appended n.shape g')
    (missing : g.at? n.shape.place = none)
    (unexplained : g'.unexplainedControls = g.unexplainedControls)
    (blank : n.progress = n.shape.place.blank) (isNew : ∀ e, n.shape.place = .event e → e ∈ new) :
    g.Extends new g' := by
  have larger : g.size ≤ g'.size := by
    simp only [size, nodes, Array.size_push]
    exact Nat.le_succ _
  refine ⟨.of_grows (appended.grows missing) larger (fun {e} cached => ?_) appended.controlBlocks
    unexplained, fun {x y} known => ?_, fun {x y} known beyond => ?_⟩
  · exact (appended.cached_cases cached).symm.imp_right (isNew e)
  · have old : x ≠ ⟨g.size⟩ := by
      rintro rfl
      exact absurd (lt_size_of_progress? known) (Nat.lt_irrefl _)
    rwa [progress?, node?_push nodes, if_neg old]
  · rw [progress?, node?_push nodes] at known
    split at known
    · next isLast =>
      subst isLast
      cases known
      exact ⟨n.shape.place, place?_of_shape? appended.new, blank⟩
    · exact absurd (lt_size_of_progress? known) (Nat.not_lt.2 beyond)

end Graph

end Inquest
