import Inquest.Proofs.Explanation.Answers

/-!
# Who owns what

Nodes are made in whatever order the requests ask for them, and a loop block that is made late
takes the node that starts the loop away from the block it belonged to.  Yet in the end the owner of
a node depends on the recording alone, and on which events have a node: an event belongs to its
*home*, which is read off its record, unless it starts a loop that some event with a node iterates.
Then the loop block stands in its place.

This takes recordings in which whatever controls an event opens a block of its own.  Elsewhere the
block that stands for a control is that of its owner, and the owner may change.

## Main Definitions

* `Trace.home` - the block that an event belongs to by its record
* `Graph.ownerOf?` - the owner of a node, both named by what they stand for
* `Node.label`, `Graph.Owns` - owners and what they own, both named by kind and event

## Main Statements

* `Graph.Tidy.ownerOf?_event`, `Graph.Tidy.ownerOf?_loop` - the owners in a tidy graph
* `Answer.owners_eq_home` - the owners in an answer, after any requests
-/

namespace Inquest

namespace Trace

/-- Whatever controls an event opens a block of its own. -/
def ControlledByBlocks (t : Trace) : Prop :=
  ∀ {e k : EventId} {r s : Record}, t.record? e = some r → r.control = some k →
    t.record? k = some s → s.kind.canControl = true

theorem controlledByBlocks_iff {t : Trace} :
    t.ControlledByBlocks ↔ ∀ index < t.size,
      ((t.controlOf? ⟨index⟩).bind t.record?).all (·.kind.canControl) = true := by
  simp only [Option.all_eq_true, controlOf?, Option.bind_eq_some_iff]
  constructor
  · rintro controls index - s ⟨k, ⟨r, recorded, controlled⟩, recorded'⟩
    exact controls recorded controlled recorded'
  · intro controls e k r s recorded controlled recorded'
    exact controls e.index (lt_size_of_record? recorded) s ⟨k, ⟨r, recorded, controlled⟩, recorded'⟩

instance (t : Trace) : Decidable t.ControlledByBlocks := decidable_of_iff' _ controlledByBlocks_iff

/-- The block that an event belongs to by its record. -/
def home (t : Trace) (c : Config) (e : EventId) (r : Record) : Place :=
  match r.control, t.loopOf? c e with
  | none, _ => .thread r.thread
  | some _, some first => .loop first
  | some control, none =>
    if (t.record? control).map Record.thread = some r.thread then .event control
    else .thread r.thread

end Trace

namespace Graph

variable {g g' : Graph} {t : Trace} {c : Config} {e f : EventId} {id b : NodeId} {p q : Place}
variable {r : Record}

/-- The owner of the node that stands for something, named by what it stands for. -/
def ownerOf? (g : Graph) (p : Place) : Option Place :=
  (g.at? p).bind fun id => (g.owner? id).bind g.place?

theorem ownerOf?_eq_none (missing : g.at? p = none) : g.ownerOf? p = none := by
  rw [ownerOf?, missing, Option.bind_none]

namespace Tidy

variable (tidy : g.Tidy t c none)

include tidy

/-- There is a block for the loops that events iterate, and for no others. -/
theorem exists_loop_iff :
    (∃ b, g.at? (.loop f) = some b) ↔ ∃ e, g.Cached e ∧ t.loopOf? c e = some f := by
  constructor
  · rintro ⟨b, known⟩
    exact (tidy.keyed known).2.2
  · rintro ⟨e, cached, loop⟩
    exact tidy.looped cached nofun loop

variable (ordered : t.WellOrdered) (controls : t.ControlledByBlocks)

include ordered controls

/-- The block of an event by the tables is the one by its record. -/
theorem place?_of_target? (recorded : t.record? e = some r) (target : g.target? t c e = some b) :
    g.place? b = some (t.home c e r) := by
  rw [target?, recorded, Option.bind_some] at target
  unfold Trace.home
  cases controlled : r.control with
  | none =>
    simp only [controlled] at target ⊢
    exact tidy.registered.1 (show g.at? (.thread r.thread) = some b from target)
  | some k =>
    cases loop : t.loopOf? c e with
    | some first =>
      simp only [controlled, loop] at target ⊢
      exact tidy.registered.1 (show g.at? (.loop first) = some b from target)
    | none =>
      simp only [controlled, loop] at target ⊢
      obtain ⟨block, stands, target⟩ := Option.bind_eq_some_iff.1 target
      -- the block that stands for the control is its own node
      obtain ⟨s, recorded'⟩ := ordered.record?_control recorded controlled
      obtain ⟨-, -, -, -, -, own⟩ := tidy.memo stands
      have place := tidy.place?_of_event
        (own s recorded' (controls recorded controlled recorded'))
      rw [place, Option.bind_some, Place.thread?] at target
      split at target
      · next same =>
        rw [if_pos same, ← Option.some.inj target, place]
      · next other =>
        rw [if_neg other]
        exact tidy.registered.1 (show g.at? (.thread r.thread) = some b from target)

/-- An event belongs to the block of the loop that it starts, and otherwise to its home. -/
theorem ownerOf?_event (recorded : t.record? e = some r) (cached : g.Cached e) :
    (g.at? (.loop e) = none → g.ownerOf? (.event e) = some (t.home c e r)) ∧
      ∀ b, g.at? (.loop e) = some b → g.ownerOf? (.event e) = some (.loop e) := by
  obtain ⟨id, known⟩ := cached
  obtain ⟨b, target⟩ := tidy.housed ⟨id, known⟩ nofun
  have owner : g.owner? id = (g.loopBlocks[e]?).or (g.target? t c e) :=
    tidy.owner (tidy.place?_of_event known)
  have known : g.at? (.event e) = some id := known
  rw [ownerOf?, known, Option.bind_some, owner]
  constructor
  · intro unkeyed
    have unkeyed : g.loopBlocks[e]? = none := unkeyed
    rw [unkeyed, Option.none_or, target, Option.bind_some]
    exact tidy.place?_of_target? ordered controls recorded target
  · intro block keyed
    have stands := tidy.registered.1 keyed
    have keyed : g.loopBlocks[e]? = some block := keyed
    rw [keyed, Option.some_or, Option.bind_some, stands]

/-- A loop block belongs to the home of the event that starts the loop. -/
theorem ownerOf?_loop (recorded : t.record? f = some r) (keyed : g.at? (.loop f) = some b) :
    g.ownerOf? (.loop f) = some (t.home c f r) := by
  obtain ⟨cached, -, -⟩ := tidy.keyed keyed
  obtain ⟨outer, target⟩ := tidy.housed cached nofun
  rw [ownerOf?, keyed, Option.bind_some, tidy.owner (tidy.registered.1 keyed)]
  show (g.target? t c f).bind g.place? = _
  rw [target, Option.bind_some]
  exact tidy.place?_of_target? ordered controls recorded target

end Tidy

/-- A thread block belongs to nothing. -/
theorem Tidy.ownerOf?_thread (tidy : g.Tidy t c none) (thread : ThreadId) :
    g.ownerOf? (.thread thread) = none := by
  cases known : g.at? (.thread thread) with
  | none => exact ownerOf?_eq_none known
  | some id =>
    rw [ownerOf?, known, Option.bind_some, tidy.owner (tidy.registered.1 known)]
    rfl

/-- Two tidy graphs with nodes for the same events have the same owners. -/
theorem ownerOf?_congr (ordered : t.WellOrdered) (controls : t.ControlledByBlocks)
    (tidy : g.Tidy t c none) (tidy' : g'.Tidy t c none) (same : ∀ e, g'.Cached e ↔ g.Cached e)
    (p : Place) : g'.ownerOf? p = g.ownerOf? p := by
  have loops : ∀ f, (∃ b, g'.at? (.loop f) = some b) ↔ ∃ b, g.at? (.loop f) = some b := by
    intro f
    simp only [tidy.exists_loop_iff, tidy'.exists_loop_iff, same]
  have noLoop : ∀ {f}, g.at? (.loop f) = none → g'.at? (.loop f) = none := by
    intro f unkeyed
    refine Option.eq_none_iff_forall_ne_some.2 fun b keyed => ?_
    obtain ⟨b', keyed'⟩ := (loops f).1 ⟨b, keyed⟩
    rw [unkeyed] at keyed'
    cases keyed'
  cases p with
  | event e =>
    by_cases cached : g.Cached e
    · obtain ⟨r, recorded⟩ := tidy.recorded_of_cached cached
      obtain ⟨atHome, inLoop⟩ := tidy.ownerOf?_event ordered controls recorded cached
      obtain ⟨atHome', inLoop'⟩ :=
        tidy'.ownerOf?_event ordered controls recorded ((same e).2 cached)
      cases keyed : g.at? (.loop e) with
      | none => rw [atHome keyed, atHome' (noLoop keyed)]
      | some b =>
        obtain ⟨b', keyed'⟩ := (loops e).2 ⟨b, keyed⟩
        rw [inLoop b keyed, inLoop' b' keyed']
    · have missing : g.at? (.event e) = none :=
        Option.eq_none_iff_forall_ne_some.2 fun id known => cached ⟨id, known⟩
      have missing' : g'.at? (.event e) = none :=
        Option.eq_none_iff_forall_ne_some.2 fun id known => cached ((same e).1 ⟨id, known⟩)
      rw [ownerOf?_eq_none missing, ownerOf?_eq_none missing']
  | loop f =>
    cases keyed : g.at? (.loop f) with
    | none => rw [ownerOf?_eq_none keyed, ownerOf?_eq_none (noLoop keyed)]
    | some b =>
      obtain ⟨b', keyed'⟩ := (loops f).2 ⟨b, keyed⟩
      obtain ⟨r, recorded⟩ := tidy.recorded_of_cached (tidy.keyed keyed).1
      rw [tidy.ownerOf?_loop ordered controls recorded keyed,
        tidy'.ownerOf?_loop ordered controls recorded keyed']
  | thread thread => rw [tidy.ownerOf?_thread, tidy'.ownerOf?_thread]

end Graph

/-! ### Names -/

/-- A node is named by its kind and its event. -/
def Node.label (n : Node) : String × EventId := (n.kind.name, n.event)

theorem NodeKind.name_bare (kind : NodeKind) : kind.bare.name = kind.name := by
  cases kind <;> rfl

theorem NodeKind.name_ofEvent (kind : EventKind) (calleeRecorded : Bool) :
    (ofEvent kind calleeRecorded).name = (ofEvent kind false).name := by
  cases kind <;> rfl

/-- The name of the node that stands for something. -/
def Trace.label? (t : Trace) : Place → Option (String × EventId)
  | .event e => (t.record? e).map fun r => ((NodeKind.ofEvent r.kind false).name, e)
  | .loop first => some ((NodeKind.loop []).name, first)
  | .thread id => (t.firstInThread? id).map ((NodeKind.thread id 0 none).name, ·)

namespace Graph

variable {g g' : Graph} {t : Trace} {c : Config} {loose : Option EventId} {id : NodeId} {n : Node}

theorem place?_of_node? (found : g.node? id = some n) : g.place? id = some n.place := by
  rw [place?_of_shape? (shape?_of_node? found), n.place_shape]

theorem Tidy.label?_of_node? (tidy : g.Tidy t c loose) (found : g.node? id = some n) :
    t.label? n.place = some n.label := by
  have sited := tidy.sited (shape?_of_node? found)
  rw [Shape.Sited, n.place_shape] at sited
  cases place : n.place with
  | event e =>
    simp only [place] at sited
    obtain ⟨anchor, r, recorded, kind⟩ := sited
    have name : n.kind.name = (NodeKind.ofEvent r.kind false).name := by
      rw [← n.kind.name_bare, ← NodeKind.name_ofEvent, ← kind]
      rfl
    have event : n.event = e := anchor
    rw [Trace.label?, recorded, Option.map_some, Node.label, name, event]
  | loop first =>
    simp only [place] at sited
    have event : n.event = first := sited.1
    have name : n.kind.name = (NodeKind.loop []).name := by
      cases kind : n.kind <;> simp_all [Node.place, NodeKind.place, NodeKind.name]
    rw [Trace.label?, Node.label, name, event]
  | thread thread =>
    simp only [place] at sited
    have first : t.firstInThread? thread = some n.event := sited
    have name : n.kind.name = (NodeKind.thread thread 0 none).name := by
      cases kind : n.kind <;> simp_all [Node.place, NodeKind.place, NodeKind.name]
    rw [Trace.label?, first, Option.map_some, Node.label, name]

/-- A node owns another one, both named by kind and event. -/
def Owns (g : Graph) (owner member : String × EventId) : Prop :=
  ∃ id n b m, g.node id = .ok n ∧ n.owner = some b ∧ g.node b = .ok m ∧
    n.label = member ∧ m.label = owner

theorem Tidy.owns_iff (tidy : g.Tidy t c none) {owner member : String × EventId} :
    g.Owns owner member ↔
      ∃ p q, g.ownerOf? p = some q ∧ t.label? p = some member ∧ t.label? q = some owner := by
  constructor
  · rintro ⟨id, n, b, m, found, owned, found', rfl, rfl⟩
    have found := node_eq_ok_iff.1 found
    have found' := node_eq_ok_iff.1 found'
    refine ⟨n.place, m.place, ?_, tidy.label?_of_node? found, tidy.label?_of_node? found'⟩
    rw [ownerOf?, tidy.registered.2 (place?_of_node? found), Option.bind_some,
      owner?_of_shape? (shape?_of_node? found)]
    show n.owner.bind g.place? = _
    rw [owned, Option.bind_some, place?_of_node? found']
  · rintro ⟨p, q, owned, isMember, isOwner⟩
    obtain ⟨id, known, belongs⟩ := Option.bind_eq_some_iff.1 owned
    obtain ⟨b, owner, stands⟩ := Option.bind_eq_some_iff.1 belongs
    obtain ⟨s, shape, rfl⟩ := tidy.exists_shape? known
    obtain ⟨s', shape', rfl⟩ := exists_shape?_of_place? stands
    obtain ⟨n, found, rfl⟩ := exists_node?_of_shape? shape
    obtain ⟨m, found', rfl⟩ := exists_node?_of_shape? shape'
    rw [n.place_shape, tidy.label?_of_node? found, Option.some.injEq] at isMember
    rw [m.place_shape, tidy.label?_of_node? found', Option.some.injEq] at isOwner
    rw [owner?_of_shape? shape] at owner
    exact ⟨id, n, b, m, node_eq_ok_iff.2 found, owner, node_eq_ok_iff.2 found', isMember, isOwner⟩

end Graph

/-! ### Owners in an answer -/

namespace Answer

/-- Whatever is asked of a fresh answer, in whatever order, the events that are asked about have
nodes and every node is listed under what it stands for.  There is a block for a loop exactly if an
event with a node iterates it; an event that starts no such loop belongs to its home; and an event
that starts one belongs to the loop block, which belongs to the home of the event.  So two answers
with nodes for the same events have the same owners. -/
theorem owners_eq_home (t : Trace) (c : Config) (ordered : t.WellOrdered)
    (controls : t.ControlledByBlocks) (counter : AnswerCounter) (calls : List Call)
    (inside : ∀ call ∈ calls, call.event.index < t.size) :
    ∃ a, (new t c counter).1.run calls = .ok a ∧
      (∀ call ∈ calls, a.graph.Cached call.event) ∧
      (∀ id n, a.graph.node id = .ok n → a.graph.at? n.place = some id) ∧
      (∀ f, (∃ b, a.graph.at? (.loop f) = some b) ↔
        ∃ e, a.graph.Cached e ∧ t.loopOf? c e = some f) ∧
      (∀ e r, t.record? e = some r → a.graph.Cached e → a.graph.at? (.loop e) = none →
        a.graph.ownerOf? (.event e) = some (t.home c e r)) ∧
      (∀ e r b, t.record? e = some r → a.graph.at? (.loop e) = some b →
        a.graph.Cached e ∧ a.graph.ownerOf? (.event e) = some (.loop e) ∧
          a.graph.ownerOf? (.loop e) = some (t.home c e r)) ∧
      ∀ counter' calls' a', (∀ call ∈ calls', call.event.index < t.size) →
        (new t c counter').1.run calls' = .ok a' →
        (∀ e, a'.graph.Cached e ↔ a.graph.Cached e) →
        ∀ owner member, a'.graph.Owns owner member ↔ a.graph.Owns owner member := by
  obtain ⟨a, succeeds, reached⟩ := (orderly_new t c counter).run ordered inside
  have tidy := reached.tidy
  refine ⟨a, succeeds, fun call member => ?_, fun id n found => ?_, fun f => tidy.exists_loop_iff,
    fun e r recorded cached unkeyed => ?_, fun e r b recorded keyed => ?_,
    fun counter' calls' a' inside' succeeds' same owner member => ?_⟩
  · exact reached.cached call.event (List.mem_map_of_mem member)
  · exact tidy.registered.2 (Graph.place?_of_node? (Graph.node_eq_ok_iff.1 found))
  · exact (tidy.ownerOf?_event ordered controls recorded cached).1 unkeyed
  · have cached := (tidy.keyed keyed).1
    exact ⟨cached, (tidy.ownerOf?_event ordered controls recorded cached).2 b keyed,
      tidy.ownerOf?_loop ordered controls recorded keyed⟩
  · obtain ⟨a'', succeeds'', reached'⟩ := (orderly_new t c counter').run ordered inside'
    rw [succeeds', Except.ok.injEq] at succeeds''
    subst succeeds''
    simp only [tidy.owns_iff, reached'.tidy.owns_iff,
      Graph.ownerOf?_congr ordered controls tidy reached'.tidy same]

/-- A branch that is decided twice: the first time it leads back to itself. -/
def decidedTwice : Trace where
  program :=
    { classes := #[{ id := ⟨0⟩, name := "Countdown", superclass := none }]
      methods := #[
        { id := ⟨0⟩, declaringClass := ⟨0⟩, name := "run", isStatic := true,
          instructions := #[⟨0⟩] }]
      instructions := #[{ id := ⟨0⟩, method := ⟨0⟩, position := 0, kind := .branch }] }
  events := #[
    { kind := .branch, instruction := ⟨0⟩ },
    { kind := .branch, instruction := ⟨0⟩, control := some ⟨0⟩ }]
  ends := ∅

/-- Asked about the second decision, an answer has a block for the loop.  The first decision belongs
to it, and the block belongs to the thread. -/
theorem owners_eq_home_decidedTwice :
    decidedTwice.WellOrdered ∧ decidedTwice.ControlledByBlocks ∧
      ∃ a, (new decidedTwice {} {}).1.run [.explain ⟨1⟩] = .ok a ∧
        a.graph.ownerOf? (.event ⟨0⟩) = some (.loop ⟨0⟩) ∧
        a.graph.ownerOf? (.loop ⟨0⟩) = some (.thread ⟨0⟩) := by
  have ordered : decidedTwice.WellOrdered := by decide +kernel
  have controls : decidedTwice.ControlledByBlocks := by decide +kernel
  have inside : ∀ call ∈ [Call.explain ⟨1⟩], call.event.index < decidedTwice.size := by
    decide +kernel
  have loop : decidedTwice.loopOf? {} ⟨1⟩ = some ⟨0⟩ := by decide +kernel
  obtain ⟨a, succeeds, cached, -, loops, -, starts, -⟩ :=
    owners_eq_home decidedTwice {} ordered controls {} [.explain ⟨1⟩] inside
  obtain ⟨b, keyed⟩ := (loops ⟨0⟩).2 ⟨⟨1⟩, cached _ List.mem_cons_self, loop⟩
  obtain ⟨-, inLoop, atHome⟩ := starts ⟨0⟩ _ b rfl keyed
  exact ⟨ordered, controls, a, succeeds, inLoop, atHome⟩

end Answer

end Inquest
