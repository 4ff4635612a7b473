import Inquest.Proofs.Explanation.Sessions

/-!
# How a graph comes about

A request does many things, but its graph changes in few ways.  The node of an event is appended,
and is loose then; the block of a thread is appended; a loop block is put between the event that
starts the loop and the block of this event; the block that stands for a control is remembered; and
the loose event joins its block.  Everything else touches explanations only, and at the end of a
request the books.  So a request leads from one graph to another by a list of such changes, each
from a tidy graph to a tidy one, and whatever the changes preserve holds of every answer.

## Main Definitions

* `Graph.SameBodies` - two graphs with the same nodes, up to their explanations
* `Graph.SameBooks` - two graphs with the same books
* `Graph.standIn?` - the block that stands for a node as a control
* `Graph.Change` - one change of a graph
* `Graph.Leads`, `Graph.Pass` - changes one after the other, and those of one pass

## Main Statements

* `Graph.Leads.preserves` - what every change preserves, changes one after the other preserve
* `Graph.explain_pass`, `Graph.request_pass` - requests are made up of changes
* `Answer.leads_of_run` - changes lead from the empty graph to the graph of an answer
-/

namespace Inquest

/-- A node without its explanation. -/
def Node.body (n : Node) : Node := { n with status := .unvisited, causes := none }

namespace Graph

variable {g g' g'' : Graph} {t : Trace} {c : Config} {loose loose' loose'' : Option EventId}
variable {e f k : EventId} {id b : NodeId} {n : Node} {r : Record} {nested : Placing}
variable {Q Q' : Graph → Graph → Prop}

/-! ### Changes -/

/-- The graph `g'` has the nodes of `g`, up to their explanations, in the same tables. -/
structure SameBodies (g g' : Graph) : Prop where
  size : g'.size = g.size
  body? : ∀ x, (g'.node? x).map Node.body = (g.node? x).map Node.body
  nodeOf : g'.nodeOf = g.nodeOf
  loopBlocks : g'.loopBlocks = g.loopBlocks
  threadBlocks : g'.threadBlocks = g.threadBlocks

/-- The graph `g'` has the books of `g`. -/
structure SameBooks (g g' : Graph) : Prop where
  created : g'.created = g.created
  changed : g'.changed = g.changed
  unread : g'.unread = g.unread

/-- The block that stands for a node as a control: the node itself if it is a block, else the block
that it belongs to. -/
def standIn? (g : Graph) (id : NodeId) : Option NodeId :=
  if g.isBlock id then some id else g.owner? id

/-- The graph with the block that stands for a control remembered, and the node of the control left
to be explained. -/
def remember (g : Graph) (k : EventId) (id b : NodeId) : Graph :=
  { g with
    controlBlocks := g.controlBlocks.insert k b
    unexplainedControls := id :: g.unexplainedControls }

/-- A change of a graph that may have a loose event, into a graph that may have one.  A relation
says what may happen to the books while neither a block nor what stands for a control changes. -/
inductive Change (t : Trace) (c : Config) (Q : Graph → Graph → Prop) :
    Option EventId → Graph → Option EventId → Graph → Prop
  /-- Explanations and books change. -/
  | quiet {loose : Option EventId} {g g' : Graph} (same : g.SameBodies g')
      (controls : g'.controlBlocks = g.controlBlocks) (books : Q g g') :
      Change t c Q loose g loose g'
  /-- The block that stands for the control of the loose event is remembered. -/
  | control {g : Graph} {e k : EventId} {id b : NodeId} (cached : g.Cached e)
      (decided : t.controlOf? e = some k) (noLoop : t.loopOf? c e = none)
      (unknown : g.controlBlocks[k]? = none) (known : g.nodeOf[k]? = some id)
      (stands : g.standIn? id = some b) : Change t c Q (some e) g (some e) (g.remember k id b)
  /-- An event gets a node, which is loose. -/
  | event {g : Graph} {e : EventId} {r : Record} (recorded : t.record? e = some r)
      (unknown : g.nodeOf[e]? = none) : Change t c Q none g (some e) (g.addEvent t e r.kind)
  /-- A thread gets a block. -/
  | thread {loose : Option EventId} {g : Graph} {thread : ThreadId} {first : EventId}
      (isFirst : t.firstInThread? thread = some first)
      (unknown : g.threadBlocks[thread]? = none) :
      Change t c Q loose g loose (g.addThread thread first)
  /-- The loop that the loose event iterates gets a block, and the node that starts the loop moves
  into it. -/
  | loop {g g₂ g' : Graph} {e f : EventId} {anchor outer : NodeId} (cached : g.Cached e)
      (iterates : t.loopOf? c e = some f) (unknown : g.loopBlocks[f]? = none)
      (known : g.nodeOf[f]? = some anchor) (owned : g.owner? anchor = some outer)
      (attached : (g.addLoop f).attach t ⟨g.size⟩ outer = .ok g₂)
      (rehomed : g₂.rehome t anchor ⟨g.size⟩ = .ok g') : Change t c Q (some e) g (some e) g'
  /-- The loose event joins its block. -/
  | adopt {g g' : Graph} {e : EventId} {id b : NodeId} (known : g.nodeOf[e]? = some id)
      (target : g.target? t c e = some b) (attached : g.attach t id b = .ok g') :
      Change t c Q (some e) g none g'

/-- Changes one after the other lead from a graph to tidy graphs. -/
inductive Leads (t : Trace) (c : Config) (Q : Graph → Graph → Prop) (loose : Option EventId)
    (g : Graph) : Option EventId → Graph → Prop
  | refl : Leads t c Q loose g loose g
  | step {loose' loose'' : Option EventId} {g' g'' : Graph} (before : Leads t c Q loose g loose' g')
      (change : Change t c Q loose' g' loose'' g'') (tidy : g''.Tidy t c loose'') :
      Leads t c Q loose g loose'' g''

/-- Changes one after the other in one pass, which does not close the books. -/
abbrev Pass (t : Trace) (c : Config) := Leads t c SameBooks

namespace Leads

theorem trans (first : Leads t c Q loose g loose' g') (second : Leads t c Q loose' g' loose'' g'') :
    Leads t c Q loose g loose'' g'' := by
  induction second with
  | refl => exact first
  | step _ change tidy ih => exact ih.step change tidy

theorem single (change : Change t c Q loose g loose' g') (tidy : g'.Tidy t c loose') :
    Leads t c Q loose g loose' g' :=
  Leads.refl.step change tidy

/-- More may happen to the books. -/
theorem mono (weaker : ∀ {g g'}, Q g g' → Q' g g') (leads : Leads t c Q loose g loose' g') :
    Leads t c Q' loose g loose' g' := by
  induction leads with
  | refl => exact .refl
  | step _ change tidy ih =>
    refine ih.step ?_ tidy
    cases change with
    | quiet same controls books => exact .quiet same controls (weaker books)
    | control cached decided noLoop unknown known stands =>
      exact .control cached decided noLoop unknown known stands
    | event recorded unknown => exact .event recorded unknown
    | thread isFirst unknown => exact .thread isFirst unknown
    | loop cached iterates unknown known owned attached rehomed =>
      exact .loop cached iterates unknown known owned attached rehomed
    | adopt known target attached => exact .adopt known target attached

/-- From a tidy graph changes lead to a tidy one. -/
theorem tidy (leads : Leads t c Q loose g loose' g') (tidy : g.Tidy t c loose) :
    g'.Tidy t c loose' := by
  cases leads with
  | refl => exact tidy
  | step _ _ tidy' => exact tidy'

/-- What every change of a tidy graph preserves, changes one after the other preserve. -/
theorem preserves {P : Option EventId → Graph → Prop}
    (same : ∀ {loose g g'}, P loose g → g.SameBodies g' → P loose g')
    (event : ∀ {g e r}, g.Tidy t c none → P none g → t.record? e = some r →
      g.nodeOf[e]? = none → P (some e) (g.addEvent t e r.kind))
    (thread : ∀ {loose g thread first}, g.Tidy t c loose → P loose g →
      t.firstInThread? thread = some first → g.threadBlocks[thread]? = none →
      P loose (g.addThread thread first))
    (loop : ∀ {g g₂ g' e f anchor outer}, g.Tidy t c (some e) → P (some e) g → g.Cached e →
      t.loopOf? c e = some f → g.loopBlocks[f]? = none → g.nodeOf[f]? = some anchor →
      g.owner? anchor = some outer → (g.addLoop f).attach t ⟨g.size⟩ outer = .ok g₂ →
      g₂.rehome t anchor ⟨g.size⟩ = .ok g' → P (some e) g')
    (adopt : ∀ {g g' e id b}, g.Tidy t c (some e) → P (some e) g → g.nodeOf[e]? = some id →
      g.target? t c e = some b → g.attach t id b = .ok g' → P none g')
    (leads : Leads t c Q loose g loose' g') (tidy : g.Tidy t c loose) (start : P loose g) :
    P loose' g' := by
  induction leads with
  | refl => exact start
  | step before change _ ih =>
    have tidy := before.tidy tidy
    cases change with
    | quiet bodies => exact same ih bodies
    | control => exact same ih ⟨rfl, fun _ => rfl, rfl, rfl, rfl⟩
    | event recorded unknown => exact event tidy ih recorded unknown
    | thread isFirst unknown => exact thread tidy ih isFirst unknown
    | loop cached iterates unknown known owned attached rehomed =>
      exact loop tidy ih cached iterates unknown known owned attached rehomed
    | adopt known target attached => exact adopt tidy ih known target attached

end Leads

/-! ### What a change does to shapes -/

/-- Putting a loop block around the event that starts the loop: the block is attached, the event
moves into it, and then the depths under the event are brought up to date. -/
theorem enclosing_spec {g₂ : Graph} {anchor outer : NodeId} (tidy : g.Tidy t c (some e))
    (ordered : t.WellOrdered) (cached : g.Cached e) (iterates : t.loopOf? c e = some f)
    (unknown : g.loopBlocks[f]? = none) (known : g.nodeOf[f]? = some anchor)
    (owned : g.owner? anchor = some outer)
    (attached : (g.addLoop f).attach t ⟨g.size⟩ outer = .ok g₂)
    (rehomed : g₂.rehome t anchor ⟨g.size⟩ = .ok g') :
    ∃ g₃ g₄, g₂.detach anchor = .ok g₃ ∧ g₃.attach t anchor ⟨g.size⟩ = .ok g₄ ∧
      (g.addLoop f).Rearranged g₂ ∧ g₂.Rearranged g₃ ∧ g₃.Rearranged g₄ ∧
      g.Enclosed f anchor outer g₄ ∧ g₄.Tidy t c (some e) ∧
      refreshDepths t g₄.size [anchor] g₄ = .ok g' ∧ g₄.Alike g' := by
  obtain ⟨r, recorded⟩ := tidy.recorded_of_cached cached
  have notLoose : some e ≠ some f := fun same =>
    absurd (ordered.loopOf?_spec recorded iterates).1 (Option.some.inj same ▸ Nat.lt_irrefl _)
  obtain ⟨g₂', g₃, g₄, attached', detached, joined, moved, moved₃, moved₄, enclosed, extends'⟩ :=
    enclose_spec ∅ tidy ordered unknown known owned
  cases attached.symm.trans attached'
  have tidy₄ := tidy.enclosed unknown known owned notLoose ⟨e, cached, iterates⟩ enclosed
  have inside : anchor.index < g₄.size :=
    Nat.lt_of_lt_of_le (tidy.lt_size_of_at? (p := .event f) known) extends'.size_le
  obtain ⟨g₅, refreshed, alike⟩ :=
    refreshDepths_alike ordered tidy₄ (Descent.start inside) (Nat.add_zero _)
  simp only [rehome, detached, joined, bind, Except.bind] at rehomed
  cases rehomed.symm.trans refreshed
  exact ⟨g₃, g₄, detached, joined, moved, moved₃, moved₄, enclosed, tidy₄, refreshed, alike⟩

/-- The loose event joins a block other than its own node. -/
theorem adopting_spec (tidy : g.Tidy t c (some e)) (ordered : t.WellOrdered)
    (known : g.nodeOf[e]? = some id) (target : g.target? t c e = some b)
    (attached : g.attach t id b = .ok g') :
    ∃ n m r, g.node? id = some n ∧ n.event = e ∧ g.node? b = some m ∧ b ≠ id ∧
      t.record? e = some r ∧ g.Linked id b g' := by
  obtain ⟨s, r, found, place, anchor, recorded, -⟩ := tidy.shape?_of_event known
  obtain ⟨m, found', -, rank⟩ := tidy.target?_spec ordered target
  have below : m.rank < s.rank := by
    simp only [Shape.rank, place, anchor] at rank ⊢
    omega
  have different : b ≠ id := by
    rintro rfl
    rw [found, Option.some.injEq] at found'
    subst found'
    exact absurd below (Nat.lt_irrefl _)
  obtain ⟨g₃, attached', linked⟩ := attach_linked tidy.readable found found' different
    (Shape.anchor_le_of_rank_lt below)
  cases attached.symm.trans attached'
  obtain ⟨n, node, rfl⟩ := exists_node?_of_shape? found
  obtain ⟨n', node', rfl⟩ := exists_node?_of_shape? found'
  exact ⟨n, n', r, node, anchor, node', different, recorded, linked⟩

/-! ### Placing events -/

theorem threadBlock_pass (tidy : g.Tidy t c loose) (recorded : t.record? e = some r) :
    Pass t c loose g loose (g.threadBlock t r.thread e).1 := by
  cases known : g.threadBlocks[r.thread]? with
  | some b =>
    rw [threadBlock, known]
    exact .refl
  | none =>
    obtain ⟨tidy', (_ : g.Extends ∅ _), -⟩ := threadBlock_spec tidy recorded
    obtain ⟨first, isFirst, made⟩ := threadBlock_eq recorded known
    rw [made] at tidy' ⊢
    exact .single (.thread isFirst known) tidy'

/-- Making the block of a loop, one step after the other: there is one, or a new one joins the block
of the event that starts the loop, and the event moves into it. -/
theorem loopBlock_cases (tidy : g.Tidy t c loose) (hits : Hits nested) (ready : g.Cached f)
    (notLoose : loose ≠ some f) (made : g.loopBlock t nested f = .ok (g', b)) :
    g' = g ∨ ∃ anchor outer g₂, g.loopBlocks[f]? = none ∧ g.nodeOf[f]? = some anchor ∧
      g.owner? anchor = some outer ∧ (g.addLoop f).attach t ⟨g.size⟩ outer = .ok g₂ ∧
      g₂.rehome t anchor ⟨g.size⟩ = .ok g' := by
  obtain ⟨rfl, -⟩ | ⟨g₁, anchor, n, unknown, placed, node, rfl, made⟩ := loopBlock_steps made
  · exact .inl rfl
  · obtain ⟨_, known⟩ := ready
    cases (hits known).symm.trans placed
    obtain ⟨outer, owned⟩ := tidy.exists_owner? known notLoose
    have owner : n.owner = some outer := (owner?_of_shape? (shape?_of_node? node)).symm.trans owned
    obtain ⟨unowned, -⟩ | ⟨outer', g₂, owner', attached, rehomed⟩ := made
    · cases unowned.symm.trans owner
    · cases owner'.symm.trans owner
      exact .inr ⟨anchor, outer, g₂, unknown, known, owned, attached, rehomed⟩

/-- Making the block of a loop is one change, if there was none. -/
theorem loopBlock_pass (tidy : g.Tidy t c (some e)) (ordered : t.WellOrdered) (hits : Hits nested)
    (cached : g.Cached e) (ready : g.Cached f) (notLoose : some e ≠ some f)
    (iterates : t.loopOf? c e = some f) (made : g.loopBlock t nested f = .ok (g', b)) :
    Pass t c (some e) g (some e) g' := by
  obtain ⟨g'', b', made', tidy', (_ : g.Extends ∅ g''), -⟩ :=
    loopBlock_spec tidy ordered hits ready notLoose ⟨e, cached, iterates⟩
  cases made.symm.trans made'
  obtain rfl | ⟨anchor, outer, g₂, unknown, known, owned, attached, rehomed⟩ :=
    loopBlock_cases tidy hits ready notLoose made
  · exact .refl
  · exact .single (.loop cached iterates unknown known owned attached rehomed) tidy'

/-- Finding the block that stands for a control, one step after the other: it is known, or what
stands for the node of the control is remembered. -/
theorem controlBlock_cases (tidy : g.Tidy t c loose) (hits : Hits nested) (ready : g.Cached k)
    (notLoose : loose ≠ some k) (made : g.controlBlock t nested k = .ok (g', b)) :
    g' = g ∨ ∃ id, g.controlBlocks[k]? = none ∧ g.nodeOf[k]? = some id ∧
      g.standIn? id = some b ∧ g' = g.remember k id b := by
  obtain ⟨rfl, -⟩ | ⟨g₁, id, n, g₂, unknown, placed, node, rfl, found⟩ := controlBlock_steps made
  · exact .inl rfl
  · obtain ⟨_, known⟩ := ready
    cases (hits known).symm.trans placed
    obtain ⟨outer, owned⟩ := tidy.exists_owner? known notLoose
    have owner : g.owner? id = n.owner := owner?_of_shape? (shape?_of_node? node)
    obtain ⟨stands, rfl⟩ | ⟨thread, nothing, -⟩ := found
    · refine .inr ⟨id, unknown, known, ?_, rfl⟩
      rw [standIn?, isBlock_of_node? node, owner]
      exact stands
    · -- the node of the control belongs to a block
      rw [← owner, owned] at nothing
      split at nothing <;> cases nothing

/-- Finding the block that stands for the control of the loose event is one change, if it was not
remembered. -/
theorem controlBlock_pass (tidy : g.Tidy t c (some e)) (ordered : t.WellOrdered)
    (hits : Hits nested) (cached : g.Cached e) (ready : g.Cached k) (notLoose : some e ≠ some k)
    (decided : t.controlOf? e = some k) (noLoop : t.loopOf? c e = none)
    (made : g.controlBlock t nested k = .ok (g', b)) : Pass t c (some e) g (some e) g' := by
  obtain ⟨g'', b', made', tidy', (_ : g.Extends ∅ g''), -⟩ :=
    controlBlock_spec tidy ordered hits ready notLoose ⟨e, cached, decided, noLoop⟩
  cases made.symm.trans made'
  obtain rfl | ⟨id, unknown, known, stands, rfl⟩ :=
    controlBlock_cases tidy hits ready notLoose made
  · exact .refl
  · exact .single (.control cached decided noLoop unknown known stands) tidy'

/-- Finding the block of the loose event leads to a graph in which the event is loose. -/
theorem blockFor_pass (tidy : g.Tidy t c (some e)) (ordered : t.WellOrdered) (hits : Hits nested)
    (recorded : t.record? e = some r) (cached : g.Cached e) (ready : g.Ready t c e)
    (made : g.blockFor t c nested e = .ok (g', b)) : Pass t c (some e) g (some e) g' := by
  obtain ⟨r', recorded', ⟨-, made⟩ |
    ⟨k, head, g₁, b₁, thread, controlled, loop, found, -, chosen⟩⟩ := blockFor_cases made
  · cases recorded.symm.trans recorded'
    obtain rfl := congrArg Prod.fst made
    exact threadBlock_pass tidy recorded
  · cases recorded.symm.trans recorded'
    have control := Trace.controlOf?_of_record? recorded controlled
    rw [ordered.loopHead_eq_ok c recorded controlled, Except.ok.injEq] at loop
    have leads₁ : Pass t c (some e) g (some e) g₁ := by
      cases head with
      | some first =>
        have needs := Trace.needs?_of_loopOf? loop
        exact loopBlock_pass tidy ordered hits cached (ready first needs)
          (ne_of_needs? ordered recorded needs) loop found
      | none =>
        have needs := Trace.needs?_of_controlOf? loop control
        exact controlBlock_pass tidy ordered hits cached (ready k needs)
          (ne_of_needs? ordered recorded needs) control loop found
    split at chosen
    · obtain rfl := congrArg Prod.fst chosen
      exact leads₁
    · obtain rfl := congrArg Prod.fst chosen
      exact leads₁.trans (threadBlock_pass (leads₁.tidy tidy) recorded)

/-- Making the node of an event leads from a graph without a loose event to such a graph: the event
gets a node, its block is found, and the event joins it. -/
theorem create_pass (tidy : g.Tidy t c none) (ordered : t.WellOrdered) (hits : Hits nested)
    (recorded : t.record? e = some r) (unknown : g.nodeOf[e]? = none) (ready : g.Ready t c e)
    (made : g.create t c nested e = .ok g') : Pass t c none g none g' := by
  obtain ⟨g'', made', tidy', -⟩ :=
    create_spec tidy ordered hits recorded unknown ready (Set.mem_univ e)
  cases made.symm.trans made'
  obtain ⟨r', g₂, b, recorded', found, attached⟩ := create_cases made
  cases recorded.symm.trans recorded'
  have tidy₁ := (addEvent_spec tidy recorded unknown (Set.mem_univ e)).1
  have cached : (g.addEvent t e r.kind).nodeOf[e]? = some ⟨g.size⟩ :=
    Std.TreeMap.getElem?_insert_self
  have ready₁ := ready.addEvent tidy recorded unknown
  obtain ⟨g₃, b', found', -, (extends₂ : Extends ∅ _ g₃), target⟩ :=
    blockFor_spec tidy₁ ordered hits recorded ⟨_, cached⟩ ready₁
  cases found.symm.trans found'
  have leads₂ := blockFor_pass tidy₁ ordered hits recorded ⟨_, cached⟩ ready₁ found
  have known : g₂.nodeOf[e]? = some ⟨g.size⟩ := extends₂.at? (p := .event e) cached
  exact ((Leads.single (.event recorded unknown) tidy₁).trans leads₂).step
    (.adopt known target attached) tidy'

/-- The nodes of a queue are made by changes one after the other. -/
theorem foldlM_ensure_pass (ordered : t.WellOrdered) (hits : Hits nested) (order : List EventId)
    (tidy : g.Tidy t c none) (ready : ∀ first ∈ order.head?, g.Ready t c first)
    (queued : Queued t c order) (inside : ∀ e ∈ order, e.index < t.size)
    (made : order.foldlM (ensure t c nested) g = .ok g') : Pass t c none g none g' := by
  induction order generalizing g with
  | nil =>
    cases made
    exact .refl
  | cons e rest ih =>
    rw [List.foldlM_cons] at made
    obtain ⟨g₁, first, made⟩ := bind_eq_ok_iff.1 made
    have insideE := inside e List.mem_cons_self
    obtain ⟨g₂, first', -, -, cached⟩ :=
      ensure_spec tidy ordered hits insideE (ready e rfl) (Set.mem_univ e)
    cases first.symm.trans first'
    have leads₁ : Pass t c none g none g₁ := by
      by_cases known : g.Cached e
      · rw [ensure_of_cached known] at first
        cases first
        exact .refl
      · obtain ⟨r, recorded⟩ := Trace.record?_of_lt insideE
        rw [ensure_of_not_cached known] at first
        exact create_pass tidy ordered hits recorded (nodeOf_of_not_cached known) (ready e rfl)
          first
    exact leads₁.trans (ih (leads₁.tidy tidy) (queued.ready cached) queued.tail
      (fun e' member => inside e' (List.mem_cons_of_mem e member)) made)

/-- Placing an event is made up of changes. -/
theorem place_pass (tidy : g.Tidy t c none) (ordered : t.WellOrdered)
    (inside : e.index < t.size) (placed : g.place t c e = .ok (g', id)) :
    Pass t c none g none g' := by
  by_cases cached : g.Cached e
  · obtain ⟨id', known⟩ := cached
    rw [place, hits_placeWithin t c _ known] at placed
    cases placed
    exact .refl
  · obtain ⟨order, chained, -, queued, ready, required⟩ := queue_spec tidy ordered inside
    obtain ⟨order', chained', made⟩ := place_cases cached placed
    cases chained.symm.trans chained'
    exact foldlM_ensure_pass ordered (hits_placeWithin t c t.size) order tidy ready queued
      (fun e' member => (required e' member).2) made

/-! ### Explaining nodes -/

/-- A change of the explanation of a node. -/
theorem pass_modify (tidy : g.Tidy t c none) (id : NodeId) {f : Node → Node}
    (same : ∀ n, (f n).body = n.body) : Pass t c none g none (g.modify id f) := by
  have tables := sameTables_modify g id f
  have shapes : ∀ n, (f n).shape = n.shape := by
    intro n
    show (f n).body.shape = n.body.shape
    rw [same]
  refine .single (.quiet ⟨tables.size, fun x => ?_, rfl, rfl, rfl⟩ rfl ⟨rfl, rfl, rfl⟩)
    (tidy.modify id shapes)
  by_cases self : x = id
  · subst self
    cases found : g.node? x with
    | none => rw [node?_modify_eq_none f found, found]
    | some n => rw [node?_modify_self f found, Option.map_some, Option.map_some, same]
  · rw [node?_modify_of_ne f self]

/-- Finding a cause changes the graph by placing its event only. -/
theorem causeFor_pass (tidy : g.Tidy t c none) (ordered : t.WellOrdered) {d : Dependency}
    {cause : Cause} (inside : d.event.index < t.size)
    (found : g.causeFor t c d = .ok (g', cause)) : Pass t c none g none g' := by
  obtain ⟨g₁, id, placed, -⟩ := place_spec tidy ordered inside
  obtain ⟨r, recorded⟩ := Trace.record?_of_lt inside
  have instruction : t.instruction d.event = .ok r.instruction :=
    Trace.map_read_of_record? recorded Record.instruction
  have same : g₁ = g' := by
    unfold causeFor at found
    cases role : d.role <;> simp only [role, instruction, placed, bind, Except.bind] at found <;>
      cases found <;> rfl
  exact same ▸ place_pass tidy ordered inside placed

/-- Finding causes is made up of changes. -/
theorem gather_pass (ordered : t.WellOrdered) {dependencies : List Dependency}
    {causes : List Cause} (tidy : g.Tidy t c none)
    (inside : ∀ d ∈ dependencies, d.event.index < t.size)
    (gathered : g.gather t c dependencies = .ok (g', causes)) : Pass t c none g none g' := by
  induction dependencies generalizing g causes with
  | nil =>
    cases gathered
    exact .refl
  | cons d rest ih =>
    rw [gather] at gathered
    obtain ⟨⟨g₁, cause⟩, found, gathered⟩ := bind_eq_ok_iff.1 gathered
    obtain ⟨⟨g₂, others⟩, gathered', gathered⟩ := bind_eq_ok_iff.1 gathered
    cases gathered
    have leads := causeFor_pass tidy ordered (inside d List.mem_cons_self) found
    exact leads.trans (ih (leads.tidy tidy)
      (fun d' member => inside d' (List.mem_cons_of_mem d member)) gathered')

/-- Explaining a node is made up of changes. -/
theorem explainNode_pass (tidy : g.Tidy t c none) (ordered : t.WellOrdered)
    {unvisited : List NodeId} (found : g.node? id = some n)
    (explained : g.explainNode t c id = .ok (g', unvisited)) : Pass t c none g none g' := by
  obtain ⟨r, recorded⟩ : ∃ r, t.record? n.event = some r :=
    tidy.recorded_anchor (shape?_of_node? found)
  have inside : ∀ d ∈ r.dependencies c n.event, d.event.index < t.size := fun d member =>
    ordered.dependency_lt recorded (Record.mem_dependencies_iff.1 (List.mem_map_of_mem member))
  have tidy₁ := tidy.modify id (f := fun n => { n with status := .inProgress }) fun _ => rfl
  have found₁ := node?_modify_self (fun n => { n with status := .inProgress }) found
  unfold explainNode at explained
  simp only [node_eq_ok_iff.2 found₁, Trace.read_of_record? recorded, bind, Except.bind]
    at explained
  obtain ⟨⟨g₂, causes⟩, gathered, explained⟩ := bind_eq_ok_iff.1 explained
  obtain ⟨_, -, explained⟩ := bind_eq_ok_iff.1 explained
  cases explained
  have leads := (pass_modify tidy id (f := fun n => { n with status := .inProgress })
    fun _ => rfl).trans (gather_pass ordered tidy₁ inside gathered)
  exact leads.trans (pass_modify (leads.tidy tidy) id
    (f := fun n => { n with causes := some causes, status := .done }) fun _ => rfl)

theorem pass_withUnexplained (tidy : g.Tidy t c none) (pending : List NodeId) :
    Pass t c none g none { g with unexplainedControls := pending } :=
  .single (.quiet ⟨rfl, fun _ => rfl, rfl, rfl, rfl⟩ rfl ⟨rfl, rfl, rfl⟩)
    (tidy.withUnexplained pending)

/-- Working off a stack is made up of changes. -/
theorem explainPending_pass (ordered : t.WellOrdered) {count : Nat} {pending : List NodeId}
    (tidy : g.Tidy t c none) (explained : explainPending t c count pending g = .ok g') :
    Pass t c none g none g' := by
  refine explainPending_induction (P := Pass t c none g none) .refl ?_ ?_ explained
  · intro g₁ leads
    exact leads.trans (pass_withUnexplained (leads.tidy tidy) [])
  · intro g₁ g₂ id fresh leads unvisited round
    obtain ⟨y, progress⟩ := isUnvisited_iff.1 unvisited
    obtain ⟨n, found, -⟩ := Option.map_eq_some_iff.1 progress
    exact leads.trans (explainNode_pass (leads.tidy tidy) ordered found round)

/-! ### Requests -/

/-- Explaining an event is made up of changes. -/
theorem explain_pass (tidy : g.Tidy t c none) (ordered : t.WellOrdered)
    (inside : e.index < t.size) (explained : g.explain t c e = .ok (g', id)) :
    Pass t c none g none g' := by
  unfold explain at explained
  obtain ⟨⟨g₁, id₁⟩, placed, explained⟩ := bind_eq_ok_iff.1 explained
  obtain ⟨g₂, worked, explained⟩ := bind_eq_ok_iff.1 explained
  cases explained
  have leads := place_pass tidy ordered inside placed
  exact leads.trans (explainPending_pass ordered (leads.tidy tidy) worked)

/-- Requesting an event is made up of changes. -/
theorem request_pass (tidy : g.Tidy t c none) (ordered : t.WellOrdered)
    (inside : e.index < t.size) (requested : g.request t c e = .ok (g', id)) :
    Pass t c none g none g' := by
  unfold request at requested
  obtain ⟨⟨g₁, id₁⟩, placed, requested⟩ := bind_eq_ok_iff.1 requested
  have leads := place_pass tidy ordered inside placed
  have tidy₁ := leads.tidy tidy
  cases controls : g₁.unexplainedControls with
  | nil =>
    simp only [controls] at requested
    cases requested
    exact leads
  | cons latest others =>
    simp only [controls] at requested
    obtain ⟨g₂, worked, requested⟩ := bind_eq_ok_iff.1 requested
    cases requested
    have leads₂ := leads.trans (pass_withUnexplained tidy₁ others)
    exact leads₂.trans (explainPending_pass ordered (tidy₁.withUnexplained others) worked)

end Graph

namespace Answer

variable {t : Trace} {c : Config} {a a' : Answer} {calls : List Call}

/-- A request is one pass, at whose end the books are closed. -/
theorem Orderly.pass_of_perform (orderly : Orderly t c a) (ordered : t.WellOrdered) {call : Call}
    {deliveries : List Delivery} (inside : call.event.index < t.size)
    (performed : a.perform call = .ok (a', deliveries)) :
    ∃ g, Graph.Pass t c none a.graph none g ∧ a' = (a.conclude g ()).answer ∧
      deliveries = (a.conclude g ()).deliveries := by
  have tidy := orderly.tidy
  have explained : ∀ {e : EventId} {outcome : Outcome NodeId}, e.index < t.size →
      a.explain e = .ok outcome →
      ∃ g, Graph.Pass t c none a.graph none g ∧ outcome = a.conclude g outcome.value := by
    intro e outcome inside succeeds
    simp only [Answer.explain, orderly.trace, orderly.config] at succeeds
    obtain ⟨⟨graph, id⟩, explained, concluded⟩ := bind_eq_ok_iff.1 succeeds
    cases concluded
    exact ⟨graph, Graph.explain_pass tidy ordered inside explained, rfl⟩
  cases call with
  | explain e =>
    obtain ⟨outcome, succeeds, same⟩ := map_eq_ok_iff.1 performed
    obtain ⟨g, pass, concluded⟩ := explained inside succeeds
    rw [concluded] at same
    cases same
    exact ⟨g, pass, rfl, rfl⟩
  | request e =>
    obtain ⟨outcome, succeeds, same⟩ := map_eq_ok_iff.1 performed
    simp only [Answer.request, orderly.trace, orderly.config] at succeeds
    obtain ⟨⟨graph, id⟩, requested, concluded⟩ := bind_eq_ok_iff.1 succeeds
    cases concluded
    cases same
    exact ⟨graph, Graph.request_pass tidy ordered inside requested, rfl, rfl⟩
  | terminals e =>
    obtain ⟨outcome, succeeds, same⟩ := map_eq_ok_iff.1 performed
    obtain ⟨outcome', succeeds', found⟩ := bind_eq_ok_iff.1 succeeds
    obtain ⟨terminals, -, found⟩ := bind_eq_ok_iff.1 found
    obtain ⟨g, pass, concluded⟩ := explained inside succeeds'
    rw [concluded] at found
    cases found
    cases same
    exact ⟨g, pass, rfl, rfl⟩

/-- A request leads from the graph of an answer to that of the next. -/
theorem Orderly.leads_of_call (orderly : Orderly t c a) (ordered : t.WellOrdered) {call : Call}
    (inside : call.event.index < t.size) (called : a.call call = .ok a') :
    Graph.Leads t c (fun _ _ => True) none a.graph none a'.graph := by
  rw [call_eq_perform] at called
  obtain ⟨⟨a'', deliveries⟩, performed, rfl⟩ := map_eq_ok_iff.1 called
  obtain ⟨g, pass, rfl, -⟩ := orderly.pass_of_perform ordered inside performed
  exact (pass.mono fun _ => trivial).step
    (.quiet ⟨rfl, fun _ => rfl, rfl, rfl, rfl⟩ rfl trivial)
    ((pass.tidy orderly.tidy).congr ⟨rfl, rfl, rfl, rfl, rfl⟩ fun _ => rfl)

/-- Requests lead from the graph of an answer to that of the last. -/
theorem Orderly.leads_of_run (orderly : Orderly t c a) (ordered : t.WellOrdered)
    (inside : ∀ call ∈ calls, call.event.index < t.size) (succeeds : a.run calls = .ok a') :
    Graph.Leads t c (fun _ _ => True) none a.graph none a'.graph := by
  induction calls generalizing a with
  | nil =>
    cases succeeds
    exact .refl
  | cons call rest ih =>
    rw [Answer.run, List.foldlM_cons] at succeeds
    obtain ⟨a₁, called, succeeds⟩ := bind_eq_ok_iff.1 succeeds
    have inside₁ := inside call List.mem_cons_self
    have leads := orderly.leads_of_call ordered inside₁ called
    obtain ⟨a₂, called', reached⟩ := orderly.call ordered inside₁
    cases called.symm.trans called'
    exact leads.trans (ih reached.toOrderly
      (fun call' member => inside call' (List.mem_cons_of_mem call member)) succeeds)

/-- Changes lead from the empty graph to that of an answer. -/
theorem leads_of_run (ordered : t.WellOrdered) {counter : AnswerCounter}
    (inside : ∀ call ∈ calls, call.event.index < t.size)
    (succeeds : (new t c counter).1.run calls = .ok a) :
    Graph.Leads t c (fun _ _ => True) none {} none a.graph :=
  (orderly_new t c counter).leads_of_run ordered inside succeeds

end Answer

end Inquest
