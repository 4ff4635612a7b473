import Inquest.Proofs.Explanation.Ownership

/-!
# Owners form a forest

Every node but the block of a thread belongs to a block.  The block lies on the same thread as the
node, for an event that is controlled from another thread belongs to the block of its own thread;
and it comes before the node, in the order that tells apart the nodes anchored at one event.  So
whoever goes from a node to its owner, and on from there, comes to the block of the thread of the
node after finitely many steps.

## Main Definitions

* `Graph.climb?` - the node some owners above a node

## Main Statements

* `Graph.Tidy.owner_thread` - a node and its owner lie on one thread
* `Graph.Tidy.climb_spec` - the way up ends at the block of the thread
* `Answer.owners_form_forest` - no request fails, and the owners in an answer form a forest with one
  tree for each thread
-/

namespace Inquest

namespace Graph

variable {g : Graph} {t : Trace} {c : Config} {loose : Option EventId}
variable {e : EventId} {id b x y : NodeId} {n : Node} {p q : Place} {r : Record}

/-- The node that is reached from a node by going to the owner a number of times. -/
def climb? (g : Graph) : Nat → NodeId → Option NodeId
  | 0, x => some x
  | steps + 1, x => (g.owner? x).bind (g.climb? steps)

theorem climb?_succ (owned : g.owner? x = some b) (steps : Nat) :
    g.climb? (steps + 1) x = g.climb? steps b := by
  rw [climb?, owned, Option.bind_some]

/-! ### Threads -/

namespace Tidy

variable (tidy : g.Tidy t c loose)

include tidy

/-- The block of an event lies on the thread of the event. -/
theorem target?_thread (ordered : t.WellOrdered) (recorded : t.record? e = some r)
    (target : g.target? t c e = some b) :
    ∃ q, g.place? b = some q ∧ q.thread? t = some r.thread := by
  have threadBlock : g.threadBlocks[r.thread]? = some b →
      ∃ q, g.place? b = some q ∧ q.thread? t = some r.thread := fun known =>
    ⟨.thread r.thread, tidy.registered.1 known, rfl⟩
  rw [target?, recorded, Option.bind_some] at target
  cases controlled : r.control with
  | none =>
    simp only [controlled] at target
    exact threadBlock target
  | some k =>
    cases loop : t.loopOf? c e with
    | some first =>
      simp only [controlled, loop] at target
      obtain ⟨-, s, recorded', thread⟩ := ordered.loopOf?_spec recorded loop
      refine ⟨.loop first, tidy.registered.1 target, ?_⟩
      rw [Place.thread?, recorded', Option.map_some, thread]
    | none =>
      simp only [controlled, loop] at target
      obtain ⟨block, -, target⟩ := Option.bind_eq_some_iff.1 target
      split at target
      · next same =>
        obtain rfl := Option.some.inj target
        exact Option.bind_eq_some_iff.1 same
      · exact threadBlock target

/-- A node and its owner lie on one thread. -/
theorem owner_thread (ordered : t.WellOrdered) (known : g.place? id = some p)
    (owned : g.owner? id = some b) : ∃ q, g.place? b = some q ∧ q.thread? t = p.thread? t := by
  have outside : ∀ {e}, g.Cached e → g.target? t c e = some b →
      ∃ q, g.place? b = some q ∧ q.thread? t = (t.record? e).map Record.thread := by
    intro e cached target
    obtain ⟨r, recorded⟩ := tidy.recorded_of_cached cached
    rw [recorded, Option.map_some]
    exact tidy.target?_thread ordered recorded target
  rw [tidy.owner known] at owned
  have stands := tidy.registered.2 known
  cases p with
  | event e =>
    simp only [ownerFor] at owned
    split at owned
    · cases owned
    · rcases Option.or_eq_some_iff.1 owned with loop | ⟨-, target⟩
      · exact ⟨.loop e, tidy.registered.1 loop, rfl⟩
      · exact outside ⟨id, stands⟩ target
  | loop first => exact outside (tidy.keyed stands).1 owned
  | thread thread =>
    simp only [ownerFor] at owned
    cases owned

end Tidy

/-! ### The way up -/

namespace Tidy

variable (tidy : g.Tidy t c none)

include tidy

/-- An event that is listed as having a node has one. -/
theorem exists_node_of_cached (cached : g.Cached e) :
    ∃ id n, g.node id = .ok n ∧ n.place = .event e := by
  obtain ⟨id, known⟩ := cached
  obtain ⟨s, shape, place⟩ := tidy.exists_shape? (p := .event e) known
  obtain ⟨n, found, rfl⟩ := exists_node?_of_shape? shape
  exact ⟨id, n, node_eq_ok_iff.2 found, n.place_shape.symm.trans place⟩

/-- The block of a thread belongs to nothing. -/
theorem owner?_thread {thread : ThreadId} (known : g.place? id = some (.thread thread)) :
    g.owner? id = none := by
  rw [tidy.owner known]
  rfl

/-- Every other node belongs to a block. -/
theorem exists_owner?_of_place? (known : g.place? id = some p)
    (notThread : ∀ thread, p ≠ .thread thread) : ∃ b, g.owner? id = some b := by
  have stands := tidy.registered.2 known
  cases p with
  | event e => exact tidy.exists_owner? stands nofun
  | loop first =>
    obtain ⟨cached, -, -⟩ := tidy.keyed stands
    obtain ⟨b, target⟩ := tidy.housed cached nofun
    exact ⟨b, (tidy.owner known).trans target⟩
  | thread thread => exact absurd rfl (notThread thread)

/-- The way up from a node ends at the block of its thread.  The induction is on the rank of the
node, which its owner is below. -/
theorem climb_spec (ordered : t.WellOrdered) (known : g.place? id = some p) :
    ∃ steps root thread, g.climb? steps id = some root ∧
      g.place? root = some (.thread thread) ∧ p.thread? t = some thread := by
  induction measured : g.rank id using Nat.strongRecOn generalizing id p with
  | ind rank ih =>
    subst measured
    by_cases isThread : ∃ thread, p = .thread thread
    · obtain ⟨thread, rfl⟩ := isThread
      exact ⟨0, id, thread, rfl, known, rfl⟩
    · obtain ⟨b, owned⟩ := tidy.exists_owner?_of_place? known fun thread same =>
        isThread ⟨thread, same⟩
      obtain ⟨q, place, same⟩ := tidy.owner_thread ordered known owned
      obtain ⟨steps, root, thread, climbs, isRoot, onThread⟩ :=
        ih (g.rank b) (tidy.rank_lt ordered owned) place rfl
      exact ⟨steps + 1, root, thread, (climb?_succ owned steps).trans climbs, isRoot,
        same.symm.trans onThread⟩

/-- The block of a thread is anchored at the first event of the thread. -/
theorem thread_anchor {thread : ThreadId} (found : g.node? id = some n)
    (place : n.place = .thread thread) : t.firstInThread? thread = some n.event := by
  have sited := tidy.sited (shape?_of_node? found)
  rwa [Shape.Sited, n.place_shape, place] at sited

end Tidy

end Graph

/-! ### Answers -/

namespace Answer

/-- Requests about recorded events never fail, whatever they are and in whatever order they come.
Afterwards every node but the blocks of threads belongs to a block that is not anchored after it,
the way up from a node ends at the block of its own thread, and there is one such block for each
thread at most, which is anchored at the first event of the thread. -/
theorem owners_form_forest (t : Trace) (c : Config) (ordered : t.WellOrdered)
    (counter : AnswerCounter) (calls : List Call)
    (inside : ∀ call ∈ calls, call.event.index < t.size) :
    ∃ a, (new t c counter).1.run calls = .ok a ∧
      (∀ call ∈ calls, ∃ id n, a.graph.node id = .ok n ∧ n.place = .event call.event) ∧
      (∀ id n, a.graph.node id = .ok n → (∀ thread, n.place ≠ .thread thread) →
        ∃ b m, n.owner = some b ∧ a.graph.node b = .ok m ∧ m.event ≤ n.event) ∧
      (∀ id n, a.graph.node id = .ok n → ∃ thread steps root m,
        n.place.thread? t = some thread ∧ a.graph.climb? steps id = some root ∧
          a.graph.node root = .ok m ∧ m.place = .thread thread ∧ m.owner = none) ∧
      ∀ id n thread, a.graph.node id = .ok n → n.place = .thread thread →
        (∀ id' n', a.graph.node id' = .ok n' → n'.place = .thread thread → id' = id) ∧
        (∃ r, t.record? n.event = some r ∧ r.thread = thread) ∧
        ∀ e r, t.record? e = some r → r.thread = thread → n.event ≤ e := by
  obtain ⟨a, succeeds, reached⟩ := (orderly_new t c counter).run ordered inside
  have tidy := reached.tidy
  refine ⟨a, succeeds, fun call member => ?_, fun id n found notThread => ?_, fun id n found => ?_,
    fun id n thread found place => ?_⟩
  · exact tidy.exists_node_of_cached (reached.cached _ (List.mem_map_of_mem member))
  · have found := Graph.node_eq_ok_iff.1 found
    obtain ⟨b, owned⟩ := tidy.exists_owner?_of_place? (Graph.place?_of_node? found) notThread
    obtain ⟨s, shape, -, below⟩ := tidy.owner_rank ordered (Graph.shape?_of_node? found) owned
    obtain ⟨m, found', rfl⟩ := Graph.exists_node?_of_shape? shape
    rw [Graph.owner?_of_shape? (Graph.shape?_of_node? found)] at owned
    exact ⟨b, m, owned, Graph.node_eq_ok_iff.2 found', Shape.anchor_le_of_rank_lt below⟩
  · have found := Graph.node_eq_ok_iff.1 found
    obtain ⟨steps, root, thread, climbs, isRoot, onThread⟩ :=
      tidy.climb_spec ordered (Graph.place?_of_node? found)
    obtain ⟨s, shape, place⟩ := Graph.exists_shape?_of_place? isRoot
    have unowned := tidy.owner?_thread isRoot
    rw [Graph.owner?_of_shape? shape] at unowned
    obtain ⟨m, found', rfl⟩ := Graph.exists_node?_of_shape? shape
    exact ⟨thread, steps, root, m, onThread, climbs, Graph.node_eq_ok_iff.2 found',
      m.place_shape.symm.trans place, unowned⟩
  · have found := Graph.node_eq_ok_iff.1 found
    have first := tidy.thread_anchor found place
    refine ⟨fun id' n' found' place' => ?_, Trace.record?_of_firstInThread? first,
      fun e r recorded onThread => ?_⟩
    · have found' := Graph.node_eq_ok_iff.1 found'
      exact tidy.unique (p := .thread thread) (place' ▸ Graph.place?_of_node? found')
        (place ▸ Graph.place?_of_node? found)
    · obtain ⟨first', isFirst, below⟩ := Trace.firstInThread?_of_record? recorded
      rw [onThread, first, Option.some.injEq] at isFirst
      exact isFirst ▸ below

/-- A loop on one thread, whose second iteration decides about an event of another thread. -/
def decidedElsewhere : Trace where
  program := decidedTwice.program
  events := decidedTwice.events.push
    { kind := .value, instruction := ⟨0⟩, thread := ⟨1⟩, control := some ⟨1⟩ }
  ends := ∅

/-- The event of the other thread belongs to the tree of that thread. -/
theorem owners_form_forest_decidedElsewhere :
    decidedElsewhere.WellOrdered ∧
      ∃ a, (new decidedElsewhere {} {}).1.run [.explain ⟨2⟩, .terminals ⟨1⟩] = .ok a ∧
        ∃ id n steps root m, a.graph.node id = .ok n ∧ n.place = .event ⟨2⟩ ∧
          a.graph.climb? steps id = some root ∧ a.graph.node root = .ok m ∧
          m.place = .thread ⟨1⟩ := by
  have ordered : decidedElsewhere.WellOrdered := by decide +kernel
  have inside : ∀ call ∈ [Call.explain ⟨2⟩, .terminals ⟨1⟩],
      call.event.index < decidedElsewhere.size := by decide +kernel
  obtain ⟨a, succeeds, placed, -, climbs, -⟩ :=
    owners_form_forest decidedElsewhere {} ordered {} _ inside
  obtain ⟨id, n, found, place⟩ := placed (.explain ⟨2⟩) List.mem_cons_self
  obtain ⟨thread, steps, root, m, onThread, climb, found', isRoot, -⟩ := climbs id n found
  rw [place] at onThread
  obtain rfl : ⟨1⟩ = thread := Option.some.inj onThread
  exact ⟨ordered, a, succeeds, id, n, steps, root, m, found, place, climb, found', isRoot⟩

end Answer

end Inquest
