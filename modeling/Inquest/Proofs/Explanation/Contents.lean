import Inquest.Proofs.Explanation.Forest

/-!
# What is reached from above

A reader comes to a node from above: from the block of its thread to one of the members, and from
there to a member of that member.  The members of a block are listed by their events.  A loop block
has the event of the node that starts the loop, and it is entered into the block around it at that
event; then the node moves into the loop block, and takes the entry away with it.  So a loop block
belongs to a block that does not list it, and neither it nor anything in it is reached from above.

Everything else is, in one way only: the last event of a way down is the event of the node that it
leads to, and the way before it leads to the owner.

## Main Definitions

* `Graph.descend?` - the node that a way down leads to
* `Graph.OutsideLoops` - a node that is in no loop block

## Main Statements

* `Graph.Tidy.descend?_inj` - no node is reached in two ways
* `Graph.Tidy.descend_iff` - the nodes outside loop blocks are reached, and no others
* `Answer.reached_iff_outsideLoops` - what is reached from above in an answer
-/

namespace Inquest

namespace Graph

variable {g : Graph} {t : Trace} {c : Config} {thread thread' : ThreadId}
variable {e : EventId} {events events' : List EventId} {b x y : NodeId}

/-- The node that a way down leads to, from the block of a thread to the member at each of some
events.  The events are listed from the last one to the first. -/
def descend? (g : Graph) (thread : ThreadId) : List EventId → Option NodeId
  | [] => g.threadBlocks[thread]?
  | e :: outer => (g.descend? thread outer).bind (g.member? · e)

/-- Neither the node nor any block around it is a loop block. -/
def OutsideLoops (g : Graph) (x : NodeId) : Prop :=
  ∀ steps y first, g.climb? steps x = some y → g.place? y ≠ some (.loop first)

theorem member?_of_node? {m : Node} (found : g.node? b = some m) (e : EventId) :
    g.member? b e = m.members[e]? := by
  rw [member?, shape?_of_node? found, Option.bind_some]
  rfl

theorem OutsideLoops.owner (outside : g.OutsideLoops x) (owned : g.owner? x = some b) :
    g.OutsideLoops b := by
  intro steps y first climbs
  exact outside (steps + 1) y first ((climb?_succ owned steps).trans climbs)

namespace Tidy

variable (tidy : g.Tidy t c none)

include tidy

/-- A way that goes down to a member of a block leads to the node of an event that the block
owns. -/
theorem descend?_cons :
    g.descend? thread (e :: events) = some x ↔
      ∃ b, g.descend? thread events = some b ∧ g.nodeOf[e]? = some x ∧ g.owner? x = some b := by
  simp only [descend?, Option.bind_eq_some_iff, tidy.members]

/-- No node is reached in two ways. -/
theorem descend?_inj (first : g.descend? thread events = some x)
    (second : g.descend? thread' events' = some x) : thread = thread' ∧ events = events' := by
  induction events generalizing x events' with
  | nil =>
    have place : g.place? x = some (.thread thread) := tidy.registered.1 first
    cases events' with
    | nil =>
      have place' : g.place? x = some (.thread thread') := tidy.registered.1 second
      exact ⟨Place.thread.inj (Option.some.inj (place.symm.trans place')), rfl⟩
    | cons e' outer' =>
      obtain ⟨b, -, -, owned⟩ := tidy.descend?_cons.1 second
      rw [tidy.owner?_thread place] at owned
      cases owned
  | cons e outer ih =>
    obtain ⟨b, above, known, owned⟩ := tidy.descend?_cons.1 first
    cases events' with
    | nil =>
      rw [tidy.owner?_thread (tidy.registered.1 second)] at owned
      cases owned
    | cons e' outer' =>
      obtain ⟨b', above', known', owned'⟩ := tidy.descend?_cons.1 second
      obtain rfl := Option.some.inj (owned.symm.trans owned')
      obtain ⟨rfl, rfl⟩ := ih above above'
      exact ⟨rfl, by rw [tidy.event_unique known known']⟩

/-- What is reached from above is in no loop block. -/
theorem outsideLoops_of_descend? (reached : g.descend? thread events = some x) :
    g.OutsideLoops x := by
  intro steps y first climbs place
  induction events generalizing x steps with
  | nil =>
    have isThread : g.place? x = some (.thread thread) := tidy.registered.1 reached
    cases steps with
    | zero =>
      obtain rfl := Option.some.inj climbs
      cases isThread.symm.trans place
    | succ steps =>
      rw [climb?, tidy.owner?_thread isThread] at climbs
      cases climbs
  | cons e outer ih =>
    obtain ⟨b, above, known, owned⟩ := tidy.descend?_cons.1 reached
    cases steps with
    | zero =>
      obtain rfl := Option.some.inj climbs
      cases (tidy.place?_of_event known).symm.trans place
    | succ steps =>
      rw [climb?_succ owned] at climbs
      exact ih above steps climbs

/-- What is in no loop block is reached from above.  The induction is on the way up to the block of
the thread, which the way down goes back. -/
theorem exists_descend? {steps : Nat} (climbs : g.climb? steps x = some y)
    (isThread : g.place? y = some (.thread thread)) (outside : g.OutsideLoops x) :
    ∃ events, g.descend? thread events = some x := by
  induction steps generalizing x with
  | zero =>
    obtain rfl := Option.some.inj climbs
    exact ⟨[], tidy.registered.2 isThread⟩
  | succ steps ih =>
    obtain ⟨b, owned, climbs⟩ := Option.bind_eq_some_iff.1 climbs
    obtain ⟨events, above⟩ := ih climbs (outside.owner owned)
    obtain ⟨s, found, -⟩ := Option.bind_eq_some_iff.1 owned
    cases place : s.place with
    | event e =>
      have known : g.at? (.event e) = some x := tidy.registered.2 (place ▸ place?_of_shape? found)
      exact ⟨e :: events, tidy.descend?_cons.2 ⟨b, above, known, owned⟩⟩
    | loop first => exact absurd (place ▸ place?_of_shape? found) (outside 0 x first rfl)
    | thread thread =>
      rw [tidy.owner?_thread (place ▸ place?_of_shape? found)] at owned
      cases owned

/-- A node of the graph is reached from above, in one way, exactly if it is in no loop block. -/
theorem descend_iff (ordered : t.WellOrdered) {p : Place} (known : g.place? x = some p) :
    (∃! way : ThreadId × List EventId, g.descend? way.1 way.2 = some x) ↔ g.OutsideLoops x := by
  constructor
  · rintro ⟨way, reached, -⟩
    exact tidy.outsideLoops_of_descend? reached
  · intro outside
    obtain ⟨steps, root, thread, climbs, isThread, -⟩ := tidy.climb_spec ordered known
    obtain ⟨events, reached⟩ := tidy.exists_descend? climbs isThread outside
    refine ⟨(thread, events), reached, fun way reached' => ?_⟩
    obtain ⟨same, same'⟩ := tidy.descend?_inj reached' reached
    exact Prod.ext same same'

/-- No block lists a loop block. -/
theorem member?_ne_loop (listed : g.member? b e = some x) (first : EventId) :
    g.place? x ≠ some (.loop first) := by
  rw [tidy.place?_of_event (tidy.members.1 listed).1]
  nofun

/-- A loop block belongs to a block that does not list it. -/
theorem unlisted_loop (ordered : t.WellOrdered) {first : EventId}
    (isLoop : g.place? x = some (.loop first)) :
    ∃ n b m, g.node x = .ok n ∧ n.kind.isLoop = true ∧ n.owner = some b ∧ g.node b = .ok m ∧
      ∀ e : EventId, m.members[e]? ≠ some x := by
  obtain ⟨s, shape, place⟩ := exists_shape?_of_place? isLoop
  obtain ⟨b, owned⟩ := tidy.exists_owner?_of_place? isLoop nofun
  obtain ⟨s', shape', -, -⟩ := tidy.owner_rank ordered shape owned
  obtain ⟨n, found, rfl⟩ := exists_node?_of_shape? shape
  obtain ⟨m, found', rfl⟩ := exists_node?_of_shape? shape'
  rw [owner?_of_shape? shape] at owned
  refine ⟨n, b, m, node_eq_ok_iff.2 found, ?_, owned, node_eq_ok_iff.2 found', fun e listed => ?_⟩
  · exact Node.isLoop_of_place (n.place_shape.symm.trans place)
  · rw [← member?_of_node? found'] at listed
    exact tidy.member?_ne_loop listed first isLoop

/-- Everything is reached from above exactly if no event iterates a loop. -/
theorem descend_all_iff (ordered : t.WellOrdered) :
    (∀ {x p}, g.place? x = some p →
        ∃! way : ThreadId × List EventId, g.descend? way.1 way.2 = some x) ↔
      ∀ e, g.Cached e → t.loopOf? c e = none := by
  constructor
  · intro all e cached
    refine Option.eq_none_iff_forall_ne_some.2 fun first loop => ?_
    obtain ⟨b, known⟩ := tidy.exists_loop_iff.2 ⟨e, cached, loop⟩
    have place := tidy.registered.1 known
    exact (tidy.descend_iff ordered place).1 (all place) 0 b first rfl place
  · intro straight x p known
    refine (tidy.descend_iff ordered known).2 fun steps y first climbs place => ?_
    obtain ⟨e, cached, loop⟩ := tidy.exists_loop_iff.1 ⟨y, tidy.registered.2 place⟩
    rw [straight e cached] at loop
    cases loop

end Tidy

end Graph

/-! ### Answers -/

namespace Answer

/-- Whatever is asked of a fresh answer, no block lists a loop block among its members.  A node is
reached from above exactly if neither it nor a block around it is a loop block, and then in one way
only.  So every node is reached exactly if no event that has a node iterates a loop. -/
theorem reached_iff_outsideLoops (t : Trace) (c : Config) (ordered : t.WellOrdered)
    (counter : AnswerCounter) (calls : List Call)
    (inside : ∀ call ∈ calls, call.event.index < t.size) :
    ∃ a, (new t c counter).1.run calls = .ok a ∧
      (∀ call ∈ calls, ∃ id n, a.graph.node id = .ok n ∧ n.place = .event call.event) ∧
      (∀ b m (e : EventId) id n, a.graph.node b = .ok m → m.members[e]? = some id →
        a.graph.node id = .ok n → n.kind.isLoop = false) ∧
      (∀ id n, a.graph.node id = .ok n →
        ((∃! way : ThreadId × List EventId, a.graph.descend? way.1 way.2 = some id) ↔
          a.graph.OutsideLoops id)) ∧
      (∀ thread events thread' events' id, a.graph.descend? thread events = some id →
        a.graph.descend? thread' events' = some id → thread = thread' ∧ events = events') ∧
      ((∀ id n, a.graph.node id = .ok n →
          ∃! way : ThreadId × List EventId, a.graph.descend? way.1 way.2 = some id) ↔
        ∀ e, a.graph.Cached e → t.loopOf? c e = none) := by
  obtain ⟨a, succeeds, reached⟩ := (orderly_new t c counter).run ordered inside
  have tidy := reached.tidy
  have place : ∀ {id n}, a.graph.node id = .ok n → a.graph.place? id = some n.place :=
    fun found => Graph.place?_of_node? (Graph.node_eq_ok_iff.1 found)
  refine ⟨a, succeeds, fun call member => ?_, fun b m e id n found listed found' => ?_,
    fun id n found => tidy.descend_iff ordered (place found),
    fun _ _ _ _ _ first second => tidy.descend?_inj first second, ?_⟩
  · exact tidy.exists_node_of_cached (reached.cached _ (List.mem_map_of_mem member))
  · rw [← Graph.member?_of_node? (Graph.node_eq_ok_iff.1 found)] at listed
    refine Bool.eq_false_iff.2 fun isLoop => tidy.member?_ne_loop listed n.event ?_
    rw [place found', Node.place_of_isLoop isLoop]
  · rw [← tidy.descend_all_iff ordered]
    constructor
    · intro all x p known
      obtain ⟨s, shape, -⟩ := Graph.exists_shape?_of_place? known
      obtain ⟨n, found, -⟩ := Graph.exists_node?_of_shape? shape
      exact all x n (Graph.node_eq_ok_iff.2 found)
    · exact fun all id n found => all (place found)

/-- Where loops get no blocks, the second decision is reached, in one way. -/
theorem reached_iff_outsideLoops_decidedTwice :
    decidedTwice.WellOrdered ∧
      ∃ a, (new decidedTwice .literal {}).1.run [.explain ⟨1⟩] = .ok a ∧
        ∃ id n, a.graph.node id = .ok n ∧ n.place = .event ⟨1⟩ ∧
          ∃! way : ThreadId × List EventId, a.graph.descend? way.1 way.2 = some id := by
  have ordered : decidedTwice.WellOrdered := by decide +kernel
  have inside : ∀ call ∈ [Call.explain ⟨1⟩], call.event.index < decidedTwice.size := by
    decide +kernel
  have straight : ∀ e, decidedTwice.loopOf? .literal e = none := fun e => by
    simp [Trace.loopOf?, Trace.loopHead, Config.literal]
  obtain ⟨a, succeeds, placed, -, -, -, all⟩ :=
    reached_iff_outsideLoops decidedTwice .literal ordered {} [.explain ⟨1⟩] inside
  obtain ⟨id, n, found, place⟩ := placed (.explain ⟨1⟩) List.mem_cons_self
  exact ⟨ordered, a, succeeds, id, n, found, place, all.2 (fun e _ => straight e) id n found⟩

/-- Where they do, the block of the loop belongs to the block of the thread, which does not list it,
and is not reached. -/
theorem loop_not_reached_decidedTwice :
    decidedTwice.WellOrdered ∧
      ∃ a, (new decidedTwice {} {}).1.run [.explain ⟨1⟩] = .ok a ∧
        ∃ id n b m, a.graph.node id = .ok n ∧ n.kind.isLoop = true ∧ n.owner = some b ∧
          a.graph.node b = .ok m ∧ (∀ e : EventId, m.members[e]? ≠ some id) ∧
          ∀ thread events, a.graph.descend? thread events ≠ some id := by
  have ordered : decidedTwice.WellOrdered := by decide +kernel
  have inside : ∀ call ∈ [Call.explain ⟨1⟩], call.event.index < decidedTwice.size := by
    decide +kernel
  have loop : decidedTwice.loopOf? {} ⟨1⟩ = some ⟨0⟩ := by decide +kernel
  obtain ⟨a, succeeds, reached⟩ := (orderly_new decidedTwice {} {}).run ordered inside
  have tidy := reached.tidy
  have cached := reached.cached ⟨1⟩ List.mem_cons_self
  obtain ⟨id, known⟩ := tidy.exists_loop_iff.2 ⟨⟨1⟩, cached, loop⟩
  have place := tidy.registered.1 known
  obtain ⟨n, b, m, found, isLoop, owned, found', unlisted⟩ := tidy.unlisted_loop ordered place
  refine ⟨ordered, a, succeeds, id, n, b, m, found, isLoop, owned, found', unlisted, ?_⟩
  intro thread events descends
  exact tidy.outsideLoops_of_descend? descends 0 id ⟨0⟩ rfl place

end Answer

end Inquest
