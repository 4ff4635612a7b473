import Inquest.Proofs.Explanation.Blocks

/-!
# Graphs in order

The tables of a graph grow while nodes are made out of order: an event may be placed before or
after the events around it, and a loop is discovered only when its second iteration is placed, when
the node that starts it belongs to some other block already.  `Graph.Tidy` relates the tables, the
owners and the members of such a graph to the recording.  It says for each node to which block it
belongs, in terms of the tables as they are; since the tables only grow and no entry is ever
replaced, what it says about a node stays true until a loop block takes the node over.

While an event is being placed its node is *loose*: it is in the graph, and belongs to no block
yet.  The invariant is stated for a graph with at most one loose event.

## Main Definitions

* `Trace.startsNext` - a call is followed by the start of an invocation
* `Graph.target?` - the block that an event belongs to by the tables of the graph
* `Graph.Tidy` - the invariant
* `Graph.Grows` - the tables have grown

## Main Statements

* `Graph.Tidy.target?_spec` - the block of an event is older than the event
* `Graph.Tidy.owner_rank` - owners come before their members
* `Graph.Tidy.readable` - every reference leads somewhere
-/

namespace Inquest

/-- Whether the next event of the thread of an event starts an invocation. -/
def Trace.startsNext (t : Trace) (e : EventId) : Bool :=
  ((t.nextInThread? e).bind t.record?).any (·.kind = .startMethod)

/-- Whether the code that a recorded call reached was recorded can be told. -/
theorem Graph.calleeRecorded_eq {t : Trace} {e : EventId} {r : Record}
    (recorded : t.record? e = some r) : calleeRecorded t e = .ok (t.startsNext e) := by
  unfold calleeRecorded Trace.startsNext
  cases linked : t.nextInThread? e with
  | none => rfl
  | some next =>
    obtain ⟨-, s, recorded', -⟩ := Trace.nextInThread?_sound recorded linked
    have kind : t.kind next = .ok s.kind := Trace.map_read_of_record? recorded' Record.kind
    rw [Option.bind_some, recorded', Option.any_some]
    simp only [kind]
    rfl

/-- What the node of a recorded event stands for can be told. -/
theorem Graph.kindFor_eq {t : Trace} {e : EventId} {r : Record} (recorded : t.record? e = some r) :
    kindFor t e = .ok (.ofEvent r.kind (r.kind.isInvocation && t.startsNext e)) := by
  have kind : t.kind e = .ok r.kind := Trace.map_read_of_record? recorded Record.kind
  unfold kindFor
  rw [kind, calleeRecorded_eq recorded]
  simp only [bind, Except.bind]
  cases r.kind.isInvocation <;> rfl

/-- The thread of what a node stands for. -/
def Place.thread? (t : Trace) : Place → Option ThreadId
  | .event e => (t.record? e).map Record.thread
  | .loop first => (t.record? first).map Record.thread
  | .thread id => some id

/-- A node stands for something that was recorded, and is anchored there. -/
def Shape.Sited (t : Trace) (s : Shape) : Prop :=
  match s.place with
  | .event e => s.anchor = e ∧ ∃ r, t.record? e = some r ∧
    s.kind = .ofEvent r.kind (r.kind.isInvocation && t.startsNext e)
  | .loop first => s.anchor = first ∧ ∃ r, t.record? first = some r
  | .thread thread => t.firstInThread? thread = some s.anchor

theorem Shape.isBlock_of_loop {s : Shape} {first : EventId} (loop : s.place = .loop first) :
    s.isBlock = true := by
  unfold Shape.place NodeKind.place at loop
  cases kind : s.kind <;> simp_all [Shape.isBlock, NodeKind.isBlock]

theorem Shape.isBlock_of_thread {s : Shape} {thread : ThreadId}
    (isThread : s.place = .thread thread) : s.isBlock = true := by
  unfold Shape.place NodeKind.place at isThread
  cases kind : s.kind <;> simp_all [Shape.isBlock, NodeKind.isBlock]

/-- The order in which nodes enclose each other: by their anchors, and at one anchor the thread
around the loop around the event. -/
def Shape.rank (s : Shape) : Nat :=
  3 * s.anchor.index +
    match s.place with
    | .thread _ => 0
    | .loop _ => 1
    | .event _ => 2

theorem Shape.rank_bounds (s : Shape) :
    3 * s.anchor.index ≤ s.rank ∧ s.rank ≤ 3 * s.anchor.index + 2 := by
  unfold Shape.rank
  cases s.place <;> simp

theorem Shape.anchor_le_of_rank_lt {s m : Shape} (below : m.rank < s.rank) :
    m.anchor ≤ s.anchor := by
  have lower := m.rank_bounds.1
  have upper := s.rank_bounds.2
  exact Ident.le_def.2 (by omega)

namespace Graph

variable {g g' : Graph} {t : Trace} {c : Config} {loose : Option EventId}
variable {e f k : EventId} {id b x : NodeId} {p : Place} {s : Shape} {r : Record}

/-! ### Tables -/

/-- The node that stands for something. -/
def at? (g : Graph) : Place → Option NodeId
  | .event e => g.nodeOf[e]?
  | .loop first => g.loopBlocks[first]?
  | .thread thread => g.threadBlocks[thread]?

/-- What a node stands for. -/
def place? (g : Graph) (id : NodeId) : Option Place := (g.shape? id).map Shape.place

/-- The block that a node belongs to. -/
def owner? (g : Graph) (id : NodeId) : Option NodeId := (g.shape? id).bind Shape.owner

/-- The member of a block for an event. -/
def member? (g : Graph) (id : NodeId) (e : EventId) : Option NodeId :=
  (g.shape? id).bind (·.members[e]?)

/-- An event has a node. -/
def Cached (g : Graph) (e : EventId) : Prop := ∃ id, g.nodeOf[e]? = some id

/-- The block that an event belongs to, as far as the tables know it. -/
def target? (g : Graph) (t : Trace) (c : Config) (e : EventId) : Option NodeId :=
  (t.record? e).bind fun r =>
    match r.control, t.loopOf? c e with
    | none, _ => g.threadBlocks[r.thread]?
    | some _, some first => g.loopBlocks[first]?
    | some control, none =>
      g.controlBlocks[control]?.bind fun block =>
        if (g.place? block).bind (Place.thread? t) = some r.thread then some block
        else g.threadBlocks[r.thread]?

/-- The block that a node belongs to, as far as the tables know it.  An event that starts a loop
belongs to the block of the loop, which belongs where the event would. -/
def ownerFor (g : Graph) (t : Trace) (c : Config) (loose : Option EventId) :
    Place → Option NodeId
  | .event e => if loose = some e then none else g.loopBlocks[e]?.or (g.target? t c e)
  | .loop first => g.target? t c first
  | .thread _ => none

/-! ### The invariant -/

/-- The tables, owners and members of a graph are those that the recording asks for. -/
structure Tidy (t : Trace) (c : Config) (loose : Option EventId) (g : Graph) : Prop where
  /-- The tables list exactly the nodes that there are. -/
  registered : ∀ {p id}, g.at? p = some id ↔ g.place? id = some p
  sited : ∀ {id s}, g.shape? id = some s → s.Sited t
  /-- There is a loop block only for a loop that some event iterates. -/
  keyed : ∀ {f : EventId} {id}, g.loopBlocks[f]? = some id →
    g.Cached f ∧ loose ≠ some f ∧ ∃ e, g.Cached e ∧ t.loopOf? c e = some f
  /-- Every event that iterates a loop has the block of that loop. -/
  looped : ∀ {e f}, g.Cached e → loose ≠ some e → t.loopOf? c e = some f →
    ∃ id, g.loopBlocks[f]? = some id
  /-- The block that stands for a control event does not start after it, and is its own node if
  that is a block. -/
  memo : ∀ {k : EventId} {b}, g.controlBlocks[k]? = some b →
    g.Cached k ∧ ∃ s, g.shape? b = some s ∧ s.isBlock = true ∧ s.anchor ≤ k ∧
      ∀ r, t.record? k = some r → r.kind.canControl = true → g.nodeOf[k]? = some b
  owner : ∀ {id p}, g.place? id = some p → g.owner? id = g.ownerFor t c loose p
  /-- Every event has a block to belong to. -/
  housed : ∀ {e}, g.Cached e → loose ≠ some e → ∃ b, g.target? t c e = some b
  /-- The members of a block are the events that belong to it. -/
  members : ∀ {b e id},
    g.member? b e = some id ↔ g.nodeOf[e]? = some id ∧ g.owner? id = some b
  /-- A block stands for a control event only if some event has this control and no loop. -/
  decides : ∀ {k : EventId} {b}, g.controlBlocks[k]? = some b →
    ∃ e, g.Cached e ∧ t.controlOf? e = some k ∧ t.loopOf? c e = none

theorem owner?_of_shape? (found : g.shape? id = some s) : g.owner? id = s.owner := by
  rw [owner?, found, Option.bind_some]

theorem exists_node?_of_owner? (owned : g.owner? id = some b) :
    ∃ n, g.node? id = some n ∧ n.owner = some b := by
  obtain ⟨s, shape, owner⟩ := Option.bind_eq_some_iff.1 owned
  obtain ⟨n, found, rfl⟩ := exists_node?_of_shape? shape
  exact ⟨n, found, owner⟩

theorem exists_shape?_of_owner? (owned : g.owner? id = some b) : ∃ s, g.shape? id = some s := by
  obtain ⟨n, found, -⟩ := exists_node?_of_owner? owned
  exact ⟨n.shape, shape?_of_node? found⟩

theorem place?_of_shape? (found : g.shape? id = some s) : g.place? id = some s.place := by
  rw [place?, found, Option.map_some]

theorem exists_shape?_of_place? (known : g.place? id = some p) :
    ∃ s, g.shape? id = some s ∧ s.place = p :=
  Option.map_eq_some_iff.1 known

/-- An event that iterates a loop belongs to the block of the loop. -/
theorem target?_of_loopOf? (recorded : t.record? e = some r) (loop : t.loopOf? c e = some f) :
    g.target? t c e = g.loopBlocks[f]? := by
  rw [target?, recorded, Option.bind_some]
  cases controlled : r.control with
  | none => simp [Trace.loopOf?, Trace.controlOf?, recorded, controlled] at loop
  | some k => simp only [loop]

/-- Which event is loose matters to the node of that event only. -/
theorem ownerFor_of_ne (other : p ≠ .event e) :
    g.ownerFor t c (some e) p = g.ownerFor t c none p := by
  cases p with
  | event e' =>
    have notLoose : ¬ some e = some e' := fun same => other (by rw [Option.some.inj same])
    simp only [ownerFor, if_neg notLoose, reduceCtorEq, if_false]
  | loop first => rfl
  | thread thread => rfl

/-! ### What follows from the invariant -/

namespace Tidy

variable (tidy : g.Tidy t c loose)

include tidy

theorem exists_shape? (known : g.at? p = some id) : ∃ s, g.shape? id = some s ∧ s.place = p :=
  exists_shape?_of_place? (tidy.registered.1 known)

/-- No two nodes stand for the same. -/
theorem unique (known : g.place? id = some p) (known' : g.place? x = some p) : id = x :=
  Option.some.inj ((tidy.registered.2 known).symm.trans (tidy.registered.2 known'))

theorem place?_of_event (known : g.nodeOf[e]? = some id) : g.place? id = some (.event e) :=
  tidy.registered.1 (show g.at? (.event e) = some id from known)

/-- No two events share a node. -/
theorem event_unique {e' : EventId} (known : g.nodeOf[e]? = some id)
    (known' : g.nodeOf[e']? = some id) : e = e' :=
  Place.event.inj (Option.some.inj
    ((tidy.place?_of_event known).symm.trans (tidy.place?_of_event known')))

/-- The node of an event is anchored at the event, and its kind is that of the event. -/
theorem shape?_of_event (known : g.nodeOf[e]? = some id) :
    ∃ s r, g.shape? id = some s ∧ s.place = .event e ∧ s.anchor = e ∧ t.record? e = some r ∧
      s.kind = .ofEvent r.kind (r.kind.isInvocation && t.startsNext e) := by
  obtain ⟨s, found, place⟩ := tidy.exists_shape? (p := .event e) known
  have sited := tidy.sited found
  simp only [Shape.Sited, place] at sited
  obtain ⟨anchor, r, recorded, kind⟩ := sited
  exact ⟨s, r, found, place, anchor, recorded, kind⟩

theorem recorded_of_cached (cached : g.Cached e) : ∃ r, t.record? e = some r := by
  obtain ⟨id, known⟩ := cached
  obtain ⟨-, r, -, -, -, recorded, -⟩ := tidy.shape?_of_event known
  exact ⟨r, recorded⟩

/-- The event at which a node is anchored was recorded. -/
theorem recorded_anchor (found : g.shape? id = some s) : ∃ r, t.record? s.anchor = some r := by
  have sited := tidy.sited found
  unfold Shape.Sited at sited
  cases place : s.place with
  | event e =>
    simp only [place] at sited
    obtain ⟨rfl, r, recorded, -⟩ := sited
    exact ⟨r, recorded⟩
  | loop first =>
    simp only [place] at sited
    obtain ⟨rfl, recorded⟩ := sited
    exact recorded
  | thread thread =>
    simp only [place] at sited
    obtain ⟨r, recorded, -⟩ := Trace.record?_of_firstInThread? sited
    exact ⟨r, recorded⟩

theorem thread_spec (recorded : t.record? e = some r)
    (known : g.threadBlocks[r.thread]? = some b) :
    ∃ s, g.shape? b = some s ∧ s.isBlock = true ∧ s.rank ≤ 3 * e.index := by
  obtain ⟨s, found, place⟩ := tidy.exists_shape? (p := .thread r.thread) known
  have sited := tidy.sited found
  simp only [Shape.Sited, place] at sited
  obtain ⟨first, isFirst, below⟩ := Trace.firstInThread?_of_record? recorded
  rw [isFirst, Option.some.injEq] at sited
  subst sited
  refine ⟨s, found, Shape.isBlock_of_thread place, ?_⟩
  have below : s.anchor.index ≤ e.index := below
  simp only [Shape.rank, place]
  omega

/-- The block of an event is a block, and comes before the event and the loop it starts. -/
theorem target?_spec (ordered : t.WellOrdered) (target : g.target? t c e = some b) :
    ∃ s, g.shape? b = some s ∧ s.isBlock = true ∧ s.rank ≤ 3 * e.index := by
  obtain ⟨r, recorded, target⟩ := Option.bind_eq_some_iff.1 target
  cases controlled : r.control with
  | none =>
    simp only [controlled] at target
    exact tidy.thread_spec recorded target
  | some k =>
    have earlier : k.index < e.index := ordered.control recorded controlled
    cases loop : t.loopOf? c e with
    | some first =>
      simp only [controlled, loop] at target
      obtain ⟨s, found, place⟩ := tidy.exists_shape? (p := .loop first) target
      have sited := tidy.sited found
      simp only [Shape.Sited, place] at sited
      obtain ⟨rfl, -⟩ := sited
      have before : s.anchor.index < e.index := (ordered.loopOf?_spec recorded loop).1
      refine ⟨s, found, Shape.isBlock_of_loop place, ?_⟩
      simp only [Shape.rank, place]
      omega
    | none =>
      simp only [controlled, loop] at target
      obtain ⟨block, stands, target⟩ := Option.bind_eq_some_iff.1 target
      split at target
      · obtain rfl := Option.some.inj target
        obtain ⟨-, s, found, isBlock, below, -⟩ := tidy.memo stands
        have below : s.anchor.index ≤ k.index := below
        have upper := s.rank_bounds.2
        exact ⟨s, found, isBlock, by omega⟩
      · exact tidy.thread_spec recorded target

/-- Owners are blocks, and come before what they own. -/
theorem owner_rank (ordered : t.WellOrdered) (found : g.shape? id = some s)
    (owned : g.owner? id = some b) :
    ∃ m, g.shape? b = some m ∧ m.isBlock = true ∧ m.rank < s.rank := by
  have sited := tidy.sited found
  rw [tidy.owner (place?_of_shape? found)] at owned
  cases place : s.place with
  | event e =>
    simp only [place, ownerFor] at owned
    simp only [Shape.Sited, place] at sited
    split at owned
    · cases owned
    · rcases Option.or_eq_some_iff.1 owned with loop | ⟨-, target⟩
      · obtain ⟨m, found', place'⟩ := tidy.exists_shape? (p := .loop e) loop
        have sited' := tidy.sited found'
        simp only [Shape.Sited, place'] at sited'
        refine ⟨m, found', Shape.isBlock_of_loop place', ?_⟩
        simp only [Shape.rank, place, place', sited.1, sited'.1]
        omega
      · obtain ⟨m, found', isBlock, below⟩ := tidy.target?_spec ordered target
        refine ⟨m, found', isBlock, Nat.lt_of_le_of_lt below ?_⟩
        simp only [Shape.rank, place, sited.1]
        omega
  | loop first =>
    simp only [place, ownerFor] at owned
    simp only [Shape.Sited, place] at sited
    obtain ⟨m, found', isBlock, below⟩ := tidy.target?_spec ordered owned
    refine ⟨m, found', isBlock, Nat.lt_of_le_of_lt below ?_⟩
    simp only [Shape.rank, place, sited.1]
    omega
  | thread thread =>
    simp only [place, ownerFor] at owned
    cases owned

/-- Whatever a tidy graph refers to can be read. -/
theorem readable : g.Readable t := by
  refine ⟨tidy.recorded_anchor, fun {b s e x} found entry => ?_, fun {thread b} known => ?_⟩
  · have member : g.member? b e = some x := by rw [member?, found]; exact entry
    obtain ⟨m, found', -⟩ := tidy.exists_shape? (p := .event e) (tidy.members.1 member).1
    exact ⟨m, found'⟩
  · obtain ⟨m, found, -⟩ := tidy.exists_shape? (p := .thread thread) known
    exact ⟨m, found⟩

theorem lt_size_of_at? (known : g.at? p = some id) : id.index < g.size := by
  obtain ⟨s, found, -⟩ := tidy.exists_shape? known
  exact lt_size_of_shape? found

end Tidy

/-! ### Growing tables -/

/-- The tables have grown, and no entry was replaced. -/
structure Grows (g g' : Graph) : Prop where
  at? : ∀ {p id}, g.at? p = some id → g'.at? p = some id
  place? : ∀ {id p}, g.place? id = some p → g'.place? id = some p
  controlBlocks : ∀ {k : EventId} {b}, g.controlBlocks[k]? = some b →
    g'.controlBlocks[k]? = some b

theorem Grows.cached (grows : g.Grows g') (cached : g.Cached e) : g'.Cached e := by
  obtain ⟨id, known⟩ := cached
  exact ⟨id, grows.at? (p := .event e) known⟩

namespace Tidy

variable (tidy : g.Tidy t c loose) (grows : g.Grows g')

include tidy grows

/-- The block of an event stays its block. -/
theorem target?_mono (target : g.target? t c e = some b) : g'.target? t c e = some b := by
  obtain ⟨r, recorded, target⟩ := Option.bind_eq_some_iff.1 target
  refine Option.bind_eq_some_iff.2 ⟨r, recorded, ?_⟩
  cases controlled : r.control with
  | none =>
    simp only [controlled] at target ⊢
    exact grows.at? (p := .thread r.thread) target
  | some k =>
    cases loop : t.loopOf? c e with
    | some first =>
      simp only [controlled, loop] at target ⊢
      exact grows.at? (p := .loop first) target
    | none =>
      simp only [controlled, loop] at target ⊢
      obtain ⟨block, stands, target⟩ := Option.bind_eq_some_iff.1 target
      refine Option.bind_eq_some_iff.2 ⟨block, grows.controlBlocks stands, ?_⟩
      -- the thread of the block is known, and does not change
      obtain ⟨-, s, found, -⟩ := tidy.memo stands
      have place := place?_of_shape? found
      rw [place] at target
      rw [grows.place? place]
      split at target
      · next same => rwa [if_pos same]
      · next other =>
        rw [if_neg other]
        exact grows.at? (p := .thread r.thread) target

/-- The owner of a node stays its owner, unless a loop block is made for it. -/
theorem ownerFor_mono {loose' : Option EventId} (known : g.place? id = some p)
    (loops : ∀ e, p = .event e → g'.loopBlocks[e]? = g.loopBlocks[e]?)
    (same : ∀ e, p = .event e → (loose' = some e ↔ loose = some e)) :
    g'.ownerFor t c loose' p = g.ownerFor t c loose p := by
  have stands := tidy.registered.2 known
  cases p with
  | event e =>
    simp only [ownerFor]
    rw [loops e rfl]
    by_cases isLoose : loose = some e
    · rw [if_pos isLoose, if_pos ((same e rfl).2 isLoose)]
    · rw [if_neg isLoose, if_neg fun loose' => isLoose ((same e rfl).1 loose')]
      obtain ⟨b, target⟩ := tidy.housed ⟨id, stands⟩ isLoose
      rw [target, tidy.target?_mono grows target]
  | loop first =>
    obtain ⟨cached, notLoose, -⟩ := tidy.keyed stands
    obtain ⟨b, target⟩ := tidy.housed cached notLoose
    simp only [ownerFor]
    rw [target, tidy.target?_mono grows target]
  | thread thread => rfl

end Tidy

end Graph

end Inquest
