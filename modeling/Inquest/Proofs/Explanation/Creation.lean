import Inquest.Proofs.Explanation.Nesting

/-!
# Nodes are made one at a time

Before an event gets a node, the events that it waits for get theirs, the earliest first.  When the
turn of an event comes, its block is found, and this may ask for the node of another event.  What is
asked for then is what the event waits for, which was predicted by other means, and it has its node
by now.  So it does not matter how such a nested placement is made, as long as it finds the events
that have a node: the nesting of placements is one level deep, however long the chain of events is.
The node of the event is appended, and after it at most one block, for a new loop block belongs to
the thread of the event.

## Main Definitions

* `Graph.AddsBlock` - at most one block of a loop or of a thread was appended
* `Graph.Creates` - the node of an event was appended, and at most one such block

## Main Statements

* `Graph.create_congr` - nested placements make no difference to the node that is made
* `Graph.create_creates` - what is appended when the node of an event is made
* `Graph.placeWithin_eq_place` - one level of nesting is enough
* `Graph.Queued.creates` - the stack comes to the events of a queue in turn
* `Answer.create_unnested` - the nodes that are made for an answer
-/

namespace Inquest

namespace Graph

variable {g g' : Graph} {t : Trace} {c : Config} {nested nested' : Placing}
variable {e f k : EventId} {b : NodeId} {r : Record} {order : List EventId}

/-! ### Nested placements find what they ask for -/

section Congr

variable (hits : Hits nested) (hits' : Hits nested')

include hits hits'

theorem loopBlock_congr (cached : g.Cached f) :
    g.loopBlock t nested f = g.loopBlock t nested' f := by
  obtain ⟨anchor, known⟩ := cached
  rw [loopBlock, loopBlock, hits known, hits' known]

theorem controlBlock_congr (cached : g.Cached k) :
    g.controlBlock t nested k = g.controlBlock t nested' k := by
  obtain ⟨id, known⟩ := cached
  rw [controlBlock, controlBlock, hits known, hits' known]

/-- The block of an event is found without making another node. -/
theorem blockFor_congr (ordered : t.WellOrdered) (recorded : t.record? e = some r)
    (ready : g.Ready t c e) : g.blockFor t c nested e = g.blockFor t c nested' e := by
  unfold blockFor
  rw [Trace.read_of_record? recorded]
  simp only [bind, Except.bind]
  cases controlled : r.control with
  | none => rfl
  | some k =>
    have control := Trace.controlOf?_of_record? recorded controlled
    simp only [ordered.loopHead_eq_ok c recorded controlled]
    cases loop : t.loopOf? c e with
    | some first =>
      have needs := Trace.needs?_of_loopOf? loop
      simp only [loopBlock_congr hits hits' (ready first needs)]
    | none =>
      have needs := Trace.needs?_of_controlOf? loop control
      simp only [controlBlock_congr hits hits' (ready k needs)]

/-- The node of an event is made without making another one. -/
theorem create_congr (tidy : g.Tidy t c none) (ordered : t.WellOrdered)
    (inside : e.index < t.size) (missing : ¬ g.Cached e) (ready : g.Ready t c e) :
    g.create t c nested e = g.create t c nested' e := by
  obtain ⟨r, recorded⟩ := Trace.record?_of_lt inside
  have found := blockFor_congr hits hits' ordered recorded
    (ready.addEvent tidy recorded (nodeOf_of_not_cached missing))
  rw [create_eq recorded, create_eq recorded, found]

/-- A queue is worked off without nesting placements. -/
theorem foldlM_ensure_congr (ordered : t.WellOrdered) (tidy : g.Tidy t c none)
    (ready : ∀ first ∈ order.head?, g.Ready t c first) (queued : Queued t c order)
    (inside : ∀ e ∈ order, e.index < t.size) :
    order.foldlM (ensure t c nested) g = order.foldlM (ensure t c nested') g := by
  induction order generalizing g with
  | nil => rfl
  | cons e rest ih =>
    have insideE := inside e List.mem_cons_self
    have same : ensure t c nested g e = ensure t c nested' g e := by
      by_cases cached : g.Cached e
      · rw [ensure_of_cached cached, ensure_of_cached cached]
      · rw [ensure_of_not_cached cached, ensure_of_not_cached cached]
        exact create_congr hits hits' tidy ordered insideE cached (ready e rfl)
    obtain ⟨g₁, made, tidy₁, -, cached⟩ :=
      ensure_spec tidy ordered hits' insideE (ready e rfl) (Set.mem_univ e)
    rw [List.foldlM_cons, List.foldlM_cons, same, made]
    exact ih tidy₁ (queued.ready cached) queued.tail fun e' member =>
      inside e' (List.mem_cons_of_mem e member)

end Congr

/-! ### What is appended -/

/-- At most one node was appended, and it is the block of a loop or of a thread. -/
def AddsBlock (g g' : Graph) : Prop :=
  g'.size = g.size ∨
    g'.size = g.size + 1 ∧ ∃ p, g'.place? ⟨g.size⟩ = some p ∧ ∀ e, p ≠ .event e

theorem threadBlock_addsBlock (g : Graph) (t : Trace) (thread : ThreadId) (e : EventId) :
    g.AddsBlock (g.threadBlock t thread e).1 := by
  cases known : g.threadBlocks[thread]? with
  | some b =>
    rw [threadBlock, known]
    exact .inl rfl
  | none =>
    have made : g.threadBlock t thread e =
        (g.addThread thread (min ((t.firstInThread? thread).getD e) e), ⟨g.size⟩) := by
      rw [threadBlock, known]
      rfl
    rw [made]
    exact .inr ⟨Array.size_push .., .thread thread,
      place?_of_shape? (appended_addThread g thread _).new, fun e same => by cases same⟩

/-- Making the block of a loop appends at most this block. -/
theorem loopBlock_addsBlock (tidy : g.Tidy t c (some e)) (ordered : t.WellOrdered)
    (hits : Hits nested) (cached : g.Cached e) (ready : g.Cached f) (notLoose : some e ≠ some f)
    (iterates : t.loopOf? c e = some f) (made : g.loopBlock t nested f = .ok (g', b)) :
    g.AddsBlock g' := by
  obtain rfl | ⟨anchor, outer, g₂, unknown, known, owned, attached, rehomed⟩ :=
    loopBlock_cases tidy hits ready notLoose made
  · exact .inl rfl
  · obtain ⟨g₃, g₄, -, -, moved, moved₃, moved₄, enclosed, -, -, alike⟩ :=
      enclosing_spec tidy ordered cached iterates unknown known owned attached rehomed
    have size : g'.size = (g.addLoop f).size :=
      alike.size.trans ((moved.trans moved₃).trans moved₄).size
    exact .inr ⟨size.trans (Array.size_push ..), .loop f, (enclosed.alike alike).place?_new,
      fun e same => by cases same⟩

/-- Finding the block of an event appends at most one block.  A loop block is on the thread of the
event, so that the block of the thread is not asked for after it. -/
theorem blockFor_addsBlock (tidy : g.Tidy t c (some e)) (ordered : t.WellOrdered)
    (hits : Hits nested) (recorded : t.record? e = some r) (cached : g.Cached e)
    (ready : g.Ready t c e) (made : g.blockFor t c nested e = .ok (g', b)) : g.AddsBlock g' := by
  obtain ⟨r', recorded', ⟨-, made⟩ |
    ⟨k, head, g₁, b₁, thread, controlled, loop, found, threadOf, chosen⟩⟩ := blockFor_cases made
  · obtain rfl := congrArg Prod.fst made
    exact threadBlock_addsBlock g t r'.thread e
  · cases recorded.symm.trans recorded'
    rw [ordered.loopHead_eq_ok c recorded controlled, Except.ok.injEq] at loop
    cases head with
    | some first =>
      have needs := Trace.needs?_of_loopOf? loop
      have notLoose := ne_of_needs? ordered recorded needs
      obtain ⟨g₂, b₂, found', tidy₁, (_ : g.Extends ∅ g₂), known⟩ := loopBlock_spec tidy ordered
        hits (ready first needs) notLoose ⟨e, cached, loop⟩
      cases found.symm.trans found'
      have same := tidy₁.threadOf_loop ordered recorded loop known
      rw [threadOf, Except.ok.injEq] at same
      rw [if_pos same] at chosen
      obtain rfl := congrArg Prod.fst chosen
      exact loopBlock_addsBlock tidy ordered hits cached (ready first needs) notLoose loop found
    | none =>
      have control := Trace.controlOf?_of_record? recorded controlled
      have needs := Trace.needs?_of_controlOf? loop control
      have size : g₁.size = g.size := by
        obtain rfl | ⟨id, -, -, -, rfl⟩ := controlBlock_cases tidy hits (ready k needs)
          (ne_of_needs? ordered recorded needs) found
        · rfl
        · rfl
      split at chosen
      · obtain rfl := congrArg Prod.fst chosen
        exact .inl size
      · obtain rfl := congrArg Prod.fst chosen
        have adds := threadBlock_addsBlock g₁ t r.thread e
        rwa [AddsBlock, size] at adds

/-- The node of an event was appended, and after it at most one block of a loop or of a thread. -/
structure Creates (g : Graph) (e : EventId) (g' : Graph) : Prop where
  /-- Every node stands for what it stood for. -/
  old : ∀ x p, g.place? x = some p → g'.place? x = some p
  known : g'.nodeOf[e]? = some ⟨g.size⟩
  event : ∃ n, g'.node ⟨g.size⟩ = .ok n ∧ n.place = .event e
  block : g'.size = g.size + 1 ∨ g'.size = g.size + 2 ∧
    ∃ n, g'.node ⟨g.size + 1⟩ = .ok n ∧
      ((∃ first, n.place = .loop first) ∨ ∃ thread, n.place = .thread thread)

theorem exists_node_of_place? {x : NodeId} {p : Place} (place : g.place? x = some p) :
    ∃ n, g.node x = .ok n ∧ n.place = p := by
  obtain ⟨s, shape, rfl⟩ := exists_shape?_of_place? place
  obtain ⟨n, found, rfl⟩ := exists_node?_of_shape? shape
  exact ⟨n, node_eq_ok_iff.2 found, n.place_shape.symm⟩

/-- Making the node of an event appends it, and at most one block. -/
theorem create_creates (tidy : g.Tidy t c none) (ordered : t.WellOrdered) (hits : Hits nested)
    (missing : ¬ g.Cached e) (ready : g.Ready t c e) (made : g.create t c nested e = .ok g') :
    g.Creates e g' := by
  have unknown := nodeOf_of_not_cached missing
  obtain ⟨r, g₂, b, recorded, found, attached⟩ := create_cases made
  obtain ⟨g'', made', tidy', extends', -⟩ :=
    create_spec tidy ordered hits recorded unknown ready (Set.mem_univ e)
  cases made.symm.trans made'
  obtain ⟨tidy₁, extends₁⟩ := addEvent_spec tidy recorded unknown (Set.mem_univ e)
  have known₁ : (g.addEvent t e r.kind).nodeOf[e]? = some ⟨g.size⟩ :=
    Std.TreeMap.getElem?_insert_self
  have ready₁ := ready.addEvent tidy recorded unknown
  obtain ⟨g₃, b', found', tidy₂, (extends₂ : Extends ∅ _ g₃), target⟩ :=
    blockFor_spec tidy₁ ordered hits recorded ⟨_, known₁⟩ ready₁
  cases found.symm.trans found'
  have adds := blockFor_addsBlock tidy₁ ordered hits recorded ⟨_, known₁⟩ ready₁ found
  have known₂ : g₂.nodeOf[e]? = some ⟨g.size⟩ := extends₂.at? (p := .event e) known₁
  obtain ⟨n, m, -, foundN, -, foundM, different, -, linked⟩ :=
    adopting_spec tidy₂ ordered known₂ target attached
  have outline := linked.outline (shape?_of_node? foundN) (shape?_of_node? foundM) different
  have known : g'.nodeOf[e]? = some ⟨g.size⟩ := by rw [linked.nodeOf, known₂]
  refine ⟨fun x p place => extends'.place? place, known,
    exists_node_of_place? (tidy'.place?_of_event known), ?_⟩
  have size₁ : (g.addEvent t e r.kind).size = g.size + 1 := Array.size_push ..
  have size : g'.size = g₂.size := linked.size
  rw [AddsBlock, size₁] at adds
  rcases adds with same | ⟨added, p, place, notEvent⟩
  · exact .inl (size.trans same)
  · obtain ⟨n, found, isPlace⟩ := exists_node_of_place? ((outline.place? _).trans place)
    refine .inr ⟨size.trans added, n, found, ?_⟩
    cases p with
    | event e' => exact absurd rfl (notEvent e')
    | loop first => exact .inl ⟨first, isPlace⟩
    | thread thread => exact .inr ⟨thread, isPlace⟩

/-! ### The queue of an event -/

/-- The events to create for an event without a node have none. -/
theorem not_cached_of_chain {n : Nat} {later : List EventId}
    (missing : ∀ e' ∈ e :: later, ¬ g.Cached e') (chained : g.chain t c n e later = .ok order) :
    ∀ e' ∈ order, ¬ g.Cached e' := by
  induction n generalizing e later with
  | zero =>
    obtain ⟨needed, -, chained⟩ := bind_eq_ok_iff.1 chained
    cases chained
    exact missing
  | succ n ih =>
    rw [chain] at chained
    obtain ⟨needed, awaited, chained⟩ := bind_eq_ok_iff.1 chained
    cases needed with
    | none =>
      cases chained
      exact missing
    | some earlier =>
      exact ih (List.forall_mem_cons.2 ⟨not_cached_of_awaited awaited, missing⟩) chained

/-- A queue lists its events in the order in which they happened. -/
theorem Queued.pairwise_lt (queued : Queued t c order) (ordered : t.WellOrdered)
    (inside : ∀ e ∈ order, e.index < t.size) : order.Pairwise (· < ·) := by
  have ascending : order.IsChain (· < ·) := queued.imp_of_mem_imp fun earlier e _ member needs => by
    obtain ⟨r, recorded⟩ := Trace.record?_of_lt (inside e member)
    exact ordered.needs?_lt recorded needs
  have : IsTrans EventId (· < ·) := ⟨fun _ _ _ => Nat.lt_trans⟩
  exact List.isChain_iff_pairwise.1 ascending

/-- An event that is ready waits for nothing. -/
theorem Ready.awaited (ready : g.Ready t c e) (tidy : g.Tidy t c none) (ordered : t.WellOrdered)
    (inside : e.index < t.size) : g.awaited t c e = .ok none := by
  obtain ⟨r, recorded⟩ := Trace.record?_of_lt inside
  rcases awaited_spec tidy ordered recorded with ⟨nothing, -⟩ | ⟨needed, awaits, needs⟩
  · exact nothing
  · exact absurd (ready needed needs) (not_cached_of_awaited awaits)

/-- A queue on top of the stack is worked off in its order. -/
theorem Queued.settle {rest : List EventId} (queued : Queued t c order) (ordered : t.WellOrdered)
    (hits : Hits nested) (tidy : g.Tidy t c none)
    (ready : ∀ first ∈ order.head?, g.Ready t c first) (inside : ∀ e ∈ order, e.index < t.size)
    (n : Nat) :
    Graph.settle t c nested (n + order.length) (order ++ rest) g =
      (order.foldlM (ensure t c nested) g).bind (Graph.settle t c nested n rest) := by
  induction order generalizing g with
  | nil => rfl
  | cons e order ih =>
    have insideE := inside e List.mem_cons_self
    have readyE := ready e rfl
    obtain ⟨g₁, made, tidy₁, -, cached⟩ :=
      ensure_spec tidy ordered hits insideE readyE (Set.mem_univ e)
    rw [List.cons_append, List.length_cons, ← Nat.add_assoc,
      settle_of_ready (readyE.awaited tidy ordered insideE), List.foldlM_cons, made]
    exact ih queued.tail tidy₁ (queued.ready cached) fun e' member =>
      inside e' (List.mem_cons_of_mem e member)

/-- When the turn of an event of a queue comes, it has no node and waits for nothing. -/
theorem Queued.turn {done rest : List EventId} (queued : Queued t c (done ++ e :: rest))
    (ordered : t.WellOrdered) (hits : Hits nested) (tidy : g.Tidy t c none)
    (ready : ∀ first ∈ (done ++ e :: rest).head?, g.Ready t c first)
    (inside : ∀ e' ∈ done ++ e :: rest, e'.index < t.size) (missing : ¬ g.Cached e) :
    ∃ g₁, done.foldlM (ensure t c nested) g = .ok g₁ ∧ g₁.Tidy t c none ∧ ¬ g₁.Cached e ∧
      g₁.Ready t c e := by
  obtain ⟨queuedDone, -, joined⟩ := List.isChain_append.1 queued
  obtain ⟨g₁, made, tidy₁, extends₁, cached⟩ := foldlM_ensure_spec ordered hits done tidy
    (fun first isFirst => ready first (List.mem_head?_append_of_mem_head? isFirst)) queuedDone
    (fun e' member => inside e' (List.mem_append_left _ member))
    (fun e' member => (member : e' ∈ { e' | e' ∈ done }))
  refine ⟨g₁, made, tidy₁, fun known => ?_, fun needed waits => ?_⟩
  · -- the event comes after those that are done
    rcases extends₁.arrived known with known | member
    · exact missing known
    · have before := (List.pairwise_append.1 (queued.pairwise_lt ordered inside)).2.2 e member e
        List.mem_cons_self
      exact absurd before (Nat.lt_irrefl _)
  · cases last : done.getLast? with
    | none =>
      obtain rfl := List.getLast?_eq_none_iff.1 last
      exact extends₁.cached (ready e rfl needed waits)
    | some previous =>
      have needs := joined previous last e rfl
      rw [waits, Option.some.injEq] at needs
      exact cached needed (needs ▸ List.mem_of_getLast? last)

/-- Then it gets its node without nesting placements.  The stack comes to the event with the events
before it made, and goes on with the others once it is made. -/
theorem Queued.creates {done rest : List EventId} (queued : Queued t c (done ++ e :: rest))
    (ordered : t.WellOrdered) (tidy : g.Tidy t c none)
    (ready : ∀ first ∈ (done ++ e :: rest).head?, g.Ready t c first)
    (inside : ∀ e' ∈ done ++ e :: rest, e'.index < t.size) (missing : ¬ g.Cached e) :
    ∃ g₁ g₂, (∀ nested, Hits nested → done.foldlM (ensure t c nested) g = .ok g₁ ∧
        g₁.create t c nested e = .ok g₂ ∧ ∀ n,
          Graph.settle t c nested (n + 1 + done.length) (done ++ e :: rest) g =
            Graph.settle t c nested (n + 1) (e :: rest) g₁ ∧
          Graph.settle t c nested (n + 1) (e :: rest) g₁ = Graph.settle t c nested n rest g₂) ∧
      ¬ g₁.Cached e ∧ g₁.Creates e g₂ := by
  have hits₀ : Hits (placeWithin t c 0) := hits_placeWithin t c 0
  obtain ⟨g₁, made, tidy₁, missing₁, ready₁⟩ := queued.turn ordered hits₀ tidy ready inside missing
  have insideE := inside e (List.mem_append_right _ List.mem_cons_self)
  obtain ⟨r, recorded⟩ := Trace.record?_of_lt insideE
  obtain ⟨g₂, created, -⟩ := create_spec tidy₁ ordered hits₀ recorded
    (nodeOf_of_not_cached missing₁) ready₁ (Set.mem_univ e)
  refine ⟨g₁, g₂, fun nested hits => ?_, missing₁,
    create_creates tidy₁ ordered hits₀ missing₁ ready₁ created⟩
  have queuedDone : Queued t c done := (List.isChain_append.1 queued).1
  have readyDone : ∀ first ∈ done.head?, g.Ready t c first := fun first isFirst =>
    ready first (List.mem_head?_append_of_mem_head? isFirst)
  have insideDone : ∀ e' ∈ done, e'.index < t.size := fun e' member =>
    inside e' (List.mem_append_left _ member)
  have made' := (foldlM_ensure_congr hits hits₀ ordered tidy readyDone queuedDone insideDone).trans
    made
  have created' := (create_congr hits hits₀ tidy₁ ordered insideE missing₁ ready₁).trans created
  refine ⟨made', created', fun n => ⟨?_, ?_⟩⟩
  · rw [queuedDone.settle ordered hits tidy readyDone insideDone, made']
    rfl
  · rw [settle_of_ready (ready₁.awaited tidy₁ ordered insideE), ensure_of_not_cached missing₁,
      created']
    rfl

/-- One level of nesting is enough to place an event. -/
theorem placeWithin_eq_place (tidy : g.Tidy t c none) (ordered : t.WellOrdered)
    (inside : e.index < t.size) (depth : Nat) :
    placeWithin t c (depth + 1) g e = g.place t c e := by
  unfold place
  cases known : g.nodeOf[e]? with
  | some id => rw [hits_placeWithin t c _ known, hits_placeWithin t c _ known]
  | none =>
    obtain ⟨order, chained, -, queued, ready, required⟩ := queue_spec tidy ordered inside
    have same := foldlM_ensure_congr (hits_placeWithin t c depth) (hits_placeWithin t c t.size)
      ordered tidy ready queued fun e' member => (required e' member).2
    rw [placeWithin_succ known, placeWithin_succ known, chained]
    simp only [bind, Except.bind, same]

end Graph

/-! ### Answers -/

namespace Answer

/-- Whatever is asked of a fresh answer, and wherever further changes lead from there, also in the
middle of a request: an event can be placed with one level of nesting, and more levels make no
difference.  If it has no node, its queue is worked off, in whatever way nested placements are made
that find the events that have a node, also in one that fails for all others.  The stack that starts
with the event comes to every event of the queue in turn, with the events before it made.  The event
has no node then; the next round makes it, which appends this node and at most one block, and goes
on with the rest of the queue. -/
theorem create_unnested (t : Trace) (c : Config) (ordered : t.WellOrdered)
    (counter : AnswerCounter) (calls : List Call)
    (inside : ∀ call ∈ calls, call.event.index < t.size) :
    ∃ a, (new t c counter).1.run calls = .ok a ∧
      ∀ g, Graph.Leads t c (fun _ _ => True) none a.graph none g → ∀ e : EventId, e.index < t.size →
        ∃ g' id, (∀ depth, Graph.placeWithin t c (depth + 1) g e = .ok (g', id)) ∧
          (¬ g.Cached e → ∃ order, g.chain t c e.index e [] = .ok order ∧ e ∈ order ∧
            (∀ nested, Graph.Hits nested → order.foldlM (Graph.ensure t c nested) g = .ok g') ∧
            ∀ done next rest, order = done ++ next :: rest →
              ∃ g₁ g₂ left, (∀ nested, Graph.Hits nested →
                  done.foldlM (Graph.ensure t c nested) g = .ok g₁ ∧
                  g₁.create t c nested next = .ok g₂ ∧
                  Graph.settle t c nested (2 * e.index + 1) [e] g =
                    Graph.settle t c nested (left + 1) (next :: rest) g₁ ∧
                  Graph.settle t c nested (left + 1) (next :: rest) g₁ =
                    Graph.settle t c nested left rest g₂) ∧
                ¬ g₁.Cached next ∧ g₁.Creates next g₂) := by
  obtain ⟨a, succeeds, reached⟩ := (orderly_new t c counter).run ordered inside
  refine ⟨a, succeeds, fun g leads e insideE => ?_⟩
  have tidy := leads.tidy reached.tidy
  obtain ⟨g', id, placed, -⟩ := Graph.place_spec tidy ordered insideE
  refine ⟨g', id, fun depth =>
    (Graph.placeWithin_eq_place tidy ordered insideE depth).trans placed, fun missing => ?_⟩
  obtain ⟨order, chained, member, queued, ready, required⟩ :=
    Graph.queue_spec tidy ordered insideE
  obtain ⟨order', chained', made⟩ := Graph.place_cases missing placed
  cases chained.symm.trans chained'
  have unmade := Graph.not_cached_of_chain
    (fun e' member => List.mem_singleton.1 member ▸ missing) chained
  refine ⟨order, chained, member, fun nested hits => ?_, fun done next rest split => ?_⟩
  · exact (Graph.foldlM_ensure_congr hits (Graph.hits_placeWithin t c t.size) ordered tidy ready
      queued fun e' member => (required e' member).2).trans made
  · subst split
    obtain ⟨g₁, g₂, turn, unknown, creates⟩ :=
      queued.creates ordered tidy ready (fun e' member => (required e' member).2)
        (unmade next (List.mem_append_right _ List.mem_cons_self))
    refine ⟨g₁, g₂, 2 * (e.index + 1 - (done ++ next :: rest).length) + rest.length,
      fun nested hits => ?_, unknown, creates⟩
    obtain ⟨made, created, settles⟩ := turn nested hits
    obtain ⟨before, after⟩ := settles _
    refine ⟨made, created, ?_, after⟩
    rw [Graph.settle_down nested missing chained, ← before]
    congr 1
    rw [List.length_append, List.length_cons]
    omega

/-- A decision that iterates a loop waits for the first decision, which waits for another one.  When
it gets its node, the loop gets its block, although nested placements make no nodes. -/
theorem create_unnested_decidedWithin :
    decidedWithin.WellOrdered ∧
      ∃ a g₁ g₂, (new decidedWithin {} {}).1.run [.request ⟨0⟩] = .ok a ∧
        a.graph.chain decidedWithin {} 2 ⟨2⟩ [] = .ok [⟨1⟩, ⟨2⟩] ∧
        [⟨1⟩].foldlM (Graph.ensure decidedWithin {} (Graph.placeWithin decidedWithin {} 0))
          a.graph = .ok g₁ ∧
        g₁.create decidedWithin {} (Graph.placeWithin decidedWithin {} 0) ⟨2⟩ = .ok g₂ ∧
        g₁.Creates ⟨2⟩ g₂ ∧ g₂.size = g₁.size + 2 := by
  have ordered : decidedWithin.WellOrdered := by decide +kernel
  have inside : ∀ call ∈ [Call.request ⟨0⟩], call.event.index < decidedWithin.size := by
    decide +kernel
  have seen : ((new decidedWithin {} {}).1.run [.request ⟨0⟩]).toOption.map (fun a =>
      (a.graph.nodeOf[(⟨2⟩ : EventId)]?, (a.graph.chain decidedWithin {} 2 ⟨2⟩ []).toOption,
        (([⟨1⟩].foldlM (Graph.ensure decidedWithin {} (Graph.placeWithin decidedWithin {} 0))
          a.graph).bind fun g₁ =>
            (g₁.create decidedWithin {} (Graph.placeWithin decidedWithin {} 0) ⟨2⟩).map
              fun g₂ => (g₁.size, g₂.size)).toOption)) =
      some (none, some [⟨1⟩, ⟨2⟩], some (3, 5)) := by decide +kernel
  obtain ⟨a, succeeds, placements⟩ := create_unnested decidedWithin {} ordered {} _ inside
  rw [succeeds] at seen
  obtain ⟨unknown, chain, sizes⟩ := by
    simpa only [Except.toOption, Option.map_some, Option.some.injEq, Prod.mk.injEq] using seen
  have missing : ¬ a.graph.Cached ⟨2⟩ := by
    rintro ⟨id, known⟩
    cases unknown.symm.trans known
  obtain ⟨g', id, -, queue⟩ := placements a.graph .refl ⟨2⟩ (by decide +kernel)
  obtain ⟨order, chained, -, -, turns⟩ := queue missing
  rw [chained] at chain
  cases chain
  obtain ⟨g₁, g₂, left, made, -, creates⟩ := turns [⟨1⟩] ⟨2⟩ [] rfl
  obtain ⟨done, created, -⟩ := made _ (Graph.hits_placeWithin decidedWithin {} 0)
  refine ⟨ordered, a, g₁, g₂, succeeds, chained, done, created, creates, ?_⟩
  rw [done, Except.bind, created] at sizes
  obtain ⟨before, after⟩ := Prod.mk.inj (Option.some.inj sizes)
  rw [before, after]

end Answer

end Inquest
