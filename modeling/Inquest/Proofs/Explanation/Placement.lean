import Inquest.Proofs.Explanation.Depths
import Inquest.Proofs.Explanation.Extension
import Inquest.Proofs.Trace.Dependence

/-!
# Making the node of an event

On a well-ordered recording the node of an event can be made once the event that it waits for has a
node, and the graph stays tidy.  The argument follows the code from the inside out: each kind of
block can be made on demand, so the block of the event can be found, and the event joins it.

## Main Definitions

* `Graph.addThread`, `Graph.addLoop`, `Graph.addEvent` - a graph with a node appended
* `Graph.Hits` - a way to place events that finds the ones that are placed
* `Graph.Ready` - what an event waits for has a node

## Main Statements

* `Graph.threadBlock_spec`, `Graph.loopBlock_spec`, `Graph.controlBlock_spec` - blocks on demand
* `Graph.loopBlock_steps`, `Graph.controlBlock_steps` - how they are made
* `Graph.blockFor_spec`, `Graph.blockFor_cases` - the block of an event can be found, and how
* `Graph.create_spec`, `Graph.create_cases` - the node of an event can be made, and how
-/

namespace Inquest.Graph

variable {g g' : Graph} {t : Trace} {c : Config} {loose : Option EventId} {nested : Placing}
variable {e f k : EventId} {id b x : NodeId} {n : Node} {s : Shape} {r : Record}
variable {new : Set EventId}

/-! ### Thread blocks -/

theorem min_eq_of_le {a b : EventId} (le : a ≤ b) : min a b = a := if_pos le

/-- The graph with the block of a thread appended. -/
def addThread (g : Graph) (thread : ThreadId) (first : EventId) : Graph :=
  { (g.addBlock first (.thread thread 0 none)).1 with
    threadBlocks := g.threadBlocks.insert thread ⟨g.size⟩ }

theorem appended_addThread (g : Graph) (thread : ThreadId) (first : EventId) :
    g.Appended { kind := .thread thread 0 none, anchor := first } (g.addThread thread first) := by
  refine appended_push (n := Node.structural first (.thread thread 0 none)) rfl (fun p => ?_) rfl
  cases p with
  | event e => rfl
  | loop first => rfl
  | thread thread' =>
    show (g.threadBlocks.insert thread ⟨g.size⟩)[thread']? =
      if Place.thread thread' = .thread thread then _ else _
    simp only [Ident.getElem?_insert, Place.thread.injEq]
    rfl

/-- A thread block is anchored at the first event of the thread. -/
theorem threadBlock_eq (recorded : t.record? e = some r)
    (unknown : g.threadBlocks[r.thread]? = none) :
    ∃ first, t.firstInThread? r.thread = some first ∧
      g.threadBlock t r.thread e = (g.addThread r.thread first, ⟨g.size⟩) := by
  obtain ⟨first, isFirst, below⟩ := Trace.firstInThread?_of_record? recorded
  refine ⟨first, isFirst, ?_⟩
  simp only [threadBlock, unknown, isFirst, Option.getD_some, min_eq_of_le below]
  rfl

/-- The block of the thread of an event can be made on demand. -/
theorem threadBlock_spec (tidy : g.Tidy t c loose) (recorded : t.record? e = some r) :
    (g.threadBlock t r.thread e).1.Tidy t c loose ∧ g.Extends new (g.threadBlock t r.thread e).1 ∧
      (g.threadBlock t r.thread e).1.threadBlocks[r.thread]? =
        some (g.threadBlock t r.thread e).2 := by
  cases known : g.threadBlocks[r.thread]? with
  | some id =>
    simp only [threadBlock, known]
    exact ⟨tidy, .refl g, trivial⟩
  | none =>
    obtain ⟨first, isFirst, made⟩ := threadBlock_eq recorded known
    have appended := appended_addThread g r.thread first
    rw [made]
    refine ⟨tidy.appended appended known isFirst rfl rfl nofun nofun fun _ _ => Iff.rfl,
      extends_push (n := Node.structural first (.thread r.thread 0 none)) rfl appended known rfl rfl
        nofun, ?_⟩
    exact Std.TreeMap.getElem?_insert_self

/-! ### Loop blocks -/

/-- The graph with a loop block appended that belongs nowhere yet. -/
def addLoop (g : Graph) (f : EventId) : Graph :=
  { (g.addBlock f (.loop [])).1 with loopBlocks := g.loopBlocks.insert f ⟨g.size⟩ }

theorem appended_addLoop (g : Graph) (f : EventId) :
    g.Appended { kind := .loop [], anchor := f } (g.addLoop f) := by
  refine appended_push (n := Node.structural f (.loop [])) rfl (fun p => ?_) rfl
  cases p with
  | event e => rfl
  | loop first =>
    show (g.loopBlocks.insert f ⟨g.size⟩)[first]? = if Place.loop first = .loop f then _ else _
    simp only [Ident.getElem?_insert, Place.loop.injEq]
    rfl
  | thread thread => rfl

/-- A new loop block can be put around the event that starts the loop. -/
theorem enclose_spec {anchor outer : NodeId} (new : Set EventId) (tidy : g.Tidy t c loose)
    (ordered : t.WellOrdered) (unknown : g.loopBlocks[f]? = none)
    (known : g.nodeOf[f]? = some anchor) (owned : g.owner? anchor = some outer) :
    ∃ g₂ g₃ g₄, (g.addLoop f).attach t ⟨g.size⟩ outer = .ok g₂ ∧ g₂.detach anchor = .ok g₃ ∧
      g₃.attach t anchor ⟨g.size⟩ = .ok g₄ ∧ (g.addLoop f).Rearranged g₂ ∧ g₂.Rearranged g₃ ∧
      g₃.Rearranged g₄ ∧ g.Enclosed f anchor outer g₄ ∧ g.Extends new g₄ := by
  obtain ⟨sa, r, foundA, -, anchorA, recorded, -⟩ := tidy.shape?_of_event known
  obtain ⟨so, foundO, -, rank⟩ := tidy.owner_rank ordered foundA owned
  have outerNew : outer ≠ ⟨g.size⟩ := ne_size_of_shape? foundO
  have anchorNew : anchor ≠ ⟨g.size⟩ := ne_size_of_shape? foundA
  have different : outer ≠ anchor := by
    rintro rfl
    rw [foundA, Option.some.injEq] at foundO
    subst foundO
    exact absurd rank (Nat.lt_irrefl _)
  have order : so.anchor ≤ f := anchorA ▸ Shape.anchor_le_of_rank_lt rank
  have appended := appended_addLoop g f
  have readable := appended.readable tidy.readable rfl ⟨r, recorded⟩
  -- the loop block joins the block of the event
  obtain ⟨g₂, attached, linked⟩ :=
    attach_linked readable appended.new (appended.shape? foundO) outerNew order
  have readable₂ := linked.readable readable appended.new (appended.shape? foundO) outerNew
  have loop₂ := linked.self appended.new
  have foundA₂ : g₂.shape? anchor = some sa :=
    (linked.other anchorNew different.symm).trans (appended.shape? foundA)
  have foundO₂ := linked.into appended.new (appended.shape? foundO)
  -- the event leaves its block
  have ownedA : sa.owner = some outer := (owner?_of_shape? foundA).symm.trans owned
  obtain ⟨g₃, detached, unlisted⟩ := detach_unlisted foundA₂ ownedA foundO₂
  have loop₃ := (unlisted.other outerNew.symm).trans loop₂
  have foundA₃ := (unlisted.other different.symm).trans foundA₂
  -- and joins the loop block
  obtain ⟨g₄, attached', linked'⟩ := attach_linked (unlisted.readable readable₂ foundO₂) foundA₃
    loop₃ anchorNew.symm (Nat.le_of_eq (congrArg Ident.index anchorA.symm))
  have moved : (g.addLoop f).Rearranged g₂ :=
    ⟨linked.toKeeps, linked.outline appended.new (appended.shape? foundO) outerNew⟩
  have moved₃ : g₂.Rearranged g₃ := ⟨unlisted.toKeeps, unlisted.outline foundO₂⟩
  have moved₄ : g₃.Rearranged g₄ :=
    ⟨linked'.toKeeps, linked'.outline foundA₃ loop₃ anchorNew.symm⟩
  have rearranged := (moved.trans moved₃).trans moved₄
  have added : g.Extends new (g.addLoop f) :=
    extends_push (n := Node.structural f (.loop [])) rfl appended unknown rfl rfl nofun
  refine ⟨g₂, g₃, g₄, attached, detached, attached', moved, moved₃, moved₄,
    ⟨⟨_, appended, rearranged⟩, fun x => ?_, fun x e => ?_⟩,
    added.trans (.of_keeps rearranged.toKeeps rearranged.outline)⟩
  · rw [linked'.owner? foundA₃ loop₃ anchorNew.symm, unlisted.owner? foundO₂,
      linked.owner? appended.new (appended.shape? foundO) outerNew, appended.owner? rfl]
  · rw [linked'.member? foundA₃ loop₃ anchorNew.symm, unlisted.member? foundO₂,
      linked.member? appended.new (appended.shape? foundO) outerNew, appended.member? rfl, anchorA]
    by_cases listed : x = outer ∧ e = f
    · simp only [if_pos listed]
    · simp only [if_neg listed]

/-- A way to place events that gives the node of an event that has one. -/
def Hits (nested : Placing) : Prop :=
  ∀ {g : Graph} {e : EventId} {id : NodeId}, g.nodeOf[e]? = some id → nested g e = .ok (g, id)

/-- The node of an event that is not loose belongs to a block. -/
theorem Tidy.exists_owner? (tidy : g.Tidy t c loose) (known : g.nodeOf[e]? = some id)
    (notLoose : loose ≠ some e) : ∃ b, g.owner? id = some b := by
  obtain ⟨b, target⟩ := tidy.housed ⟨id, known⟩ notLoose
  rw [tidy.owner (tidy.place?_of_event known)]
  simp only [ownerFor, if_neg notLoose, target]
  cases g.loopBlocks[e]? with
  | none => exact ⟨b, rfl⟩
  | some l => exact ⟨l, rfl⟩

/-- Making the block of a loop, one step after the other: there is one, or the event that starts the
loop is placed, and a new block takes its place. -/
theorem loopBlock_steps (made : g.loopBlock t nested f = .ok (g', b)) :
    g' = g ∧ g.loopBlocks[f]? = some b ∨
      ∃ g₁ anchor n, g.loopBlocks[f]? = none ∧ nested g f = .ok (g₁, anchor) ∧
        g₁.node? anchor = some n ∧ b = ⟨g₁.size⟩ ∧
        (n.owner = none ∧ g' = g₁.addLoop f ∨
          ∃ outer g₂, n.owner = some outer ∧ (g₁.addLoop f).attach t b outer = .ok g₂ ∧
            g₂.rehome t anchor b = .ok g') := by
  unfold loopBlock at made
  cases known : g.loopBlocks[f]? with
  | some b' =>
    simp only [known] at made
    cases made
    exact .inl ⟨rfl, rfl⟩
  | none =>
    simp only [known] at made
    obtain ⟨⟨g₁, anchor⟩, placed, made⟩ := bind_eq_ok_iff.1 made
    obtain ⟨n, found, made⟩ := bind_eq_ok_iff.1 made
    refine .inr ⟨g₁, anchor, n, rfl, placed, node_eq_ok_iff.1 found, ?_⟩
    cases owner : n.owner with
    | none =>
      rw [owner] at made
      cases made
      exact ⟨rfl, .inl ⟨rfl, rfl⟩⟩
    | some outer =>
      rw [owner] at made
      obtain ⟨g₂, attached, made⟩ := bind_eq_ok_iff.1 made
      obtain ⟨g₃, rehomed, made⟩ := bind_eq_ok_iff.1 made
      cases made
      exact ⟨rfl, .inr ⟨outer, g₂, rfl, attached, rehomed⟩⟩

/-- The block of a loop can be made once the event that starts the loop has a node. -/
theorem loopBlock_spec (tidy : g.Tidy t c loose) (ordered : t.WellOrdered) (hits : Hits nested)
    (cached : g.Cached f) (notLoose : loose ≠ some f)
    (iterated : ∃ e, g.Cached e ∧ t.loopOf? c e = some f) :
    ∃ g' b, g.loopBlock t nested f = .ok (g', b) ∧ g'.Tidy t c loose ∧ g.Extends new g' ∧
      g'.loopBlocks[f]? = some b := by
  cases unknown : g.loopBlocks[f]? with
  | some b => exact ⟨g, b, by simp only [loopBlock, unknown], tidy, .refl g, unknown⟩
  | none =>
    obtain ⟨anchor, known⟩ := cached
    obtain ⟨outer, owned⟩ := tidy.exists_owner? known notLoose
    obtain ⟨g₂, g₃, g₄, attached, detached, attached', -, -, -, enclosed, extends_⟩ :=
      enclose_spec new tidy ordered unknown known owned
    have tidy₄ := tidy.enclosed unknown known owned notLoose iterated enclosed
    have inside : anchor.index < g₄.size :=
      Nat.lt_of_lt_of_le (tidy.lt_size_of_at? (p := .event f) known) extends_.size_le
    obtain ⟨g₅, refreshed, alike⟩ :=
      refreshDepths_alike ordered tidy₄ (Descent.start inside) (Nat.add_zero _)
    obtain ⟨s, found, owned'⟩ := Option.bind_eq_some_iff.1 owned
    obtain ⟨n, node, rfl⟩ := exists_node?_of_shape? found
    have owned' : n.owner = some outer := owned'
    refine ⟨g₅, ⟨g.size⟩, ?_, tidy₄.alike alike, extends_.trans (.of_alike alike), ?_⟩
    · have rehomed : g₂.rehome t anchor ⟨g.size⟩ = .ok g₅ := by
        simp only [rehome, detached, attached', bind, Except.bind]
        exact refreshed
      simp only [addLoop, addBlock] at attached
      simp only [loopBlock, unknown, hits known, bind, Except.bind, node_eq_ok_iff.2 node, owned',
        addBlock, attached, rehomed]
      rfl
    · obtain ⟨g₁, appended, rearranged⟩ := enclosed.appended
      have added := appended.at? (.loop f)
      rw [← rearranged.at?, ← alike.at?] at added
      exact added.trans (if_pos rfl)

/-! ### Control blocks -/

/-- Finding the block that stands for a control, one step after the other: it is known, or the
control is placed and left to be explained, and what stands for its node is entered. -/
theorem controlBlock_steps (made : g.controlBlock t nested k = .ok (g', b)) :
    g' = g ∧ g.controlBlocks[k]? = some b ∨
      ∃ g₁ id n g₂, g.controlBlocks[k]? = none ∧ nested g k = .ok (g₁, id) ∧
        g₁.node? id = some n ∧
        g' = { g₂ with controlBlocks := g₂.controlBlocks.insert k b } ∧
        ((if n.isBlock then some id else n.owner) = some b ∧
            g₂ = { g₁ with unexplainedControls := id :: g₁.unexplainedControls } ∨
          ∃ thread, (if n.isBlock then some id else n.owner) = none ∧ t.thread k = .ok thread ∧
            threadBlock { g₁ with unexplainedControls := id :: g₁.unexplainedControls } t thread k =
              (g₂, b)) := by
  unfold controlBlock at made
  cases known : g.controlBlocks[k]? with
  | some b' =>
    simp only [known] at made
    cases made
    exact .inl ⟨rfl, rfl⟩
  | none =>
    simp only [known] at made
    obtain ⟨⟨g₁, id⟩, placed, made⟩ := bind_eq_ok_iff.1 made
    obtain ⟨n, found, made⟩ := bind_eq_ok_iff.1 made
    have found : g₁.node? id = some n := node_eq_ok_iff.1 found
    by_cases isBlock : n.isBlock = true
    · rw [if_pos isBlock] at made
      cases made
      exact .inr ⟨g₁, id, n, _, rfl, placed, found, rfl, .inl ⟨if_pos isBlock, rfl⟩⟩
    · rw [if_neg isBlock] at made
      refine .inr ⟨g₁, id, n, ?_⟩
      rw [if_neg isBlock]
      cases owner : n.owner with
      | some outer =>
        rw [owner] at made
        cases made
        exact ⟨_, rfl, placed, found, rfl, .inl ⟨rfl, rfl⟩⟩
      | none =>
        rw [owner] at made
        obtain ⟨⟨g₂, root⟩, made', made⟩ := bind_eq_ok_iff.1 made
        cases made
        obtain ⟨thread, read, made'⟩ := map_eq_ok_iff.1 made'
        exact ⟨g₂, rfl, placed, found, rfl, .inr ⟨thread, rfl, read, made'⟩⟩

/-- The block that stands for a control event can be found once the event has a node. -/
theorem controlBlock_spec (tidy : g.Tidy t c loose) (ordered : t.WellOrdered)
    (hits : Hits nested) (cached : g.Cached k) (notLoose : loose ≠ some k)
    (decided : ∃ e, g.Cached e ∧ t.controlOf? e = some k ∧ t.loopOf? c e = none) :
    ∃ g' b, g.controlBlock t nested k = .ok (g', b) ∧ g'.Tidy t c loose ∧ g.Extends new g' ∧
      g'.controlBlocks[k]? = some b := by
  cases unknown : g.controlBlocks[k]? with
  | some b => exact ⟨g, b, by simp only [controlBlock, unknown], tidy, .refl g, unknown⟩
  | none =>
    obtain ⟨id, known⟩ := cached
    obtain ⟨s, r, found, place, anchor, recorded, kind⟩ := tidy.shape?_of_event known
    obtain ⟨n, node, rfl⟩ := exists_node?_of_shape? found
    have same : n.isBlock = r.kind.canControl := by
      rw [← n.isBlock_shape, Shape.isBlock, kind, NodeKind.isBlock_ofEvent]
    obtain ⟨outer, owned⟩ := tidy.exists_owner? known notLoose
    have node' : Graph.node { g with unexplainedControls := id :: g.unexplainedControls } id =
        .ok n := node_eq_ok_iff.2 node
    have tidy' := tidy.withUnexplained (id :: g.unexplainedControls)
    cases isBlock : n.isBlock with
    | true =>
      have below : n.shape.anchor ≤ k := Nat.le_of_eq (congrArg Ident.index anchor)
      have isBlock' : n.shape.isBlock = true := n.isBlock_shape.trans isBlock
      refine ⟨_, id, ?_, tidy'.remembered unknown ⟨id, known⟩ found isBlock' below
        (fun _ _ _ => known) decided, .of_remembered unknown known,
        Std.TreeMap.getElem?_insert_self⟩
      simp only [controlBlock, unknown, hits known, bind, Except.bind, node', isBlock, if_true]
      rfl
    | false =>
      -- a node that is no block does not stand for itself, so its owner does
      obtain ⟨m, found', isBlock', rank⟩ := tidy.owner_rank ordered found owned
      have below : m.anchor ≤ k := anchor ▸ Shape.anchor_le_of_rank_lt rank
      have owned : n.owner = some outer := (owner?_of_shape? found).symm.trans owned
      refine ⟨_, outer, ?_, tidy'.remembered unknown ⟨id, known⟩ found' isBlock' below
        (fun r' recorded' can' => ?_) decided, .of_remembered unknown known,
        Std.TreeMap.getElem?_insert_self⟩
      · simp only [controlBlock, unknown, hits known, bind, Except.bind, node', isBlock, owned,
          Bool.false_eq_true, if_false]
        rfl
      · rw [recorded, Option.some.injEq] at recorded'
        subst recorded'
        rw [isBlock, can'] at same
        cases same

/-! ### The block of an event -/

/-- The thread of a block is the thread of what it stands for. -/
theorem Tidy.threadOf_eq_ok (tidy : g.Tidy t c loose) (found : g.shape? b = some s) :
    ∃ thread, g.threadOf t b = .ok thread ∧ s.place.thread? t = some thread := by
  obtain ⟨r, recorded⟩ := tidy.recorded_anchor found
  obtain ⟨n, node, rfl⟩ := exists_node?_of_shape? found
  have recorded : t.record? n.event = some r := recorded
  have thread : t.thread n.event = .ok r.thread :=
    Trace.map_read_of_record? recorded Record.thread
  have anchored : (t.record? n.event).map Record.thread = some r.thread := by
    rw [recorded, Option.map_some]
  unfold threadOf
  rw [node_eq_ok_iff.2 node, n.place_shape, Node.place]
  simp only [bind, Except.bind]
  cases n.kind with
  | thread thread maxDepth deepest => exact ⟨thread, rfl, rfl⟩
  | loop runs => exact ⟨r.thread, thread, anchored⟩
  | event | invocation calleeRecorded | branch path | exception | startMethod =>
    exact ⟨r.thread, thread, anchored⟩

/-- The block of a loop belongs to the thread of the events that iterate the loop. -/
theorem Tidy.threadOf_loop (tidy : g.Tidy t c loose) (ordered : t.WellOrdered)
    (recorded : t.record? e = some r) (loop : t.loopOf? c e = some f)
    (known : g.loopBlocks[f]? = some b) : g.threadOf t b = .ok r.thread := by
  obtain ⟨-, s, recorded', thread⟩ := ordered.loopOf?_spec recorded loop
  obtain ⟨m, found, place⟩ := tidy.exists_shape? (p := .loop f) known
  obtain ⟨thread', threadOf, same⟩ := tidy.threadOf_eq_ok found
  rw [place, Place.thread?, recorded', Option.map_some, thread, Option.some.injEq] at same
  rw [threadOf, same]

/-- Finding the block of an event, one step after the other.  The block of its loop or that of its
control is the one if it belongs to the thread of the event, and the block of the thread is
otherwise. -/
theorem blockFor_cases (made : g.blockFor t c nested e = .ok (g', b)) :
    ∃ r, t.record? e = some r ∧
      (r.control = none ∧ g.threadBlock t r.thread e = (g', b) ∨
        ∃ k head g₁ b₁ thread, r.control = some k ∧ t.loopHead c e k = .ok head ∧
          head.elim (g.controlBlock t nested k) (g.loopBlock t nested) = .ok (g₁, b₁) ∧
          g₁.threadOf t b₁ = .ok thread ∧
          (if thread = r.thread then (g₁, b₁) else g₁.threadBlock t r.thread e) = (g', b)) := by
  unfold blockFor at made
  obtain ⟨r, read, made⟩ := bind_eq_ok_iff.1 made
  refine ⟨r, Trace.read_eq_ok_iff.1 read, ?_⟩
  cases control : r.control with
  | none =>
    rw [control] at made
    exact .inl ⟨rfl, Except.ok.inj made⟩
  | some k =>
    rw [control] at made
    obtain ⟨head, loop, made⟩ := bind_eq_ok_iff.1 made
    obtain ⟨g₁, b₁, found, chosen⟩ : ∃ g₁ b₁,
        head.elim (g.controlBlock t nested k) (g.loopBlock t nested) = .ok (g₁, b₁) ∧
          ((g₁.threadOf t b₁).bind fun thread =>
            if thread = r.thread then pure (g₁, b₁) else pure (g₁.threadBlock t r.thread e)) =
          .ok (g', b) := by
      cases head with
      | none =>
        obtain ⟨⟨g₁, b₁⟩, found, chosen⟩ := bind_eq_ok_iff.1 made
        exact ⟨g₁, b₁, found, chosen⟩
      | some first =>
        obtain ⟨⟨g₁, b₁⟩, found, chosen⟩ := bind_eq_ok_iff.1 made
        exact ⟨g₁, b₁, found, chosen⟩
    obtain ⟨thread, threadOf, chosen⟩ := bind_eq_ok_iff.1 chosen
    refine .inr ⟨k, head, g₁, b₁, thread, rfl, loop, found, threadOf, ?_⟩
    split at chosen
    · next same => rw [if_pos same, Except.ok.inj chosen]
    · next other => rw [if_neg other, Except.ok.inj chosen]

/-- What an event waits for has a node. -/
def Ready (g : Graph) (t : Trace) (c : Config) (e : EventId) : Prop :=
  ∀ needed, t.needs? c e = some needed → g.Cached needed

/-- No event waits for itself. -/
theorem ne_of_needs? (ordered : t.WellOrdered) (recorded : t.record? e = some r)
    (needs : t.needs? c e = some k) : some e ≠ some k := fun same =>
  absurd (ordered.needs?_lt recorded needs) (Option.some.inj same ▸ Nat.lt_irrefl _)

/-- The block of an event can be found once the event that it waits for has a node. -/
theorem blockFor_spec (tidy : g.Tidy t c (some e)) (ordered : t.WellOrdered) (hits : Hits nested)
    (recorded : t.record? e = some r) (cached : g.Cached e) (ready : g.Ready t c e) :
    ∃ g' b, g.blockFor t c nested e = .ok (g', b) ∧ g'.Tidy t c (some e) ∧ g.Extends new g' ∧
      g'.target? t c e = some b := by
  unfold blockFor
  rw [Trace.read_of_record? recorded]
  simp only [bind, Except.bind]
  cases controlled : r.control with
  | none =>
    obtain ⟨tidy', extends', known⟩ := threadBlock_spec tidy recorded
    refine ⟨_, _, rfl, tidy', extends', ?_⟩
    rw [target?, recorded, Option.bind_some]
    simp only [controlled]
    exact known
  | some k =>
    have control := Trace.controlOf?_of_record? recorded controlled
    simp only [ordered.loopHead_eq_ok c recorded controlled]
    cases loop : t.loopOf? c e with
    | some first =>
      have needs := Trace.needs?_of_loopOf? loop
      obtain ⟨g', b, succeeds, tidy', extends', known⟩ := loopBlock_spec tidy ordered hits
        (ready first needs) (ne_of_needs? ordered recorded needs) ⟨e, cached, loop⟩
      refine ⟨g', b, ?_, tidy', extends', (target?_of_loopOf? recorded loop).trans known⟩
      simp only [succeeds, tidy'.threadOf_loop ordered recorded loop known, if_true]
      rfl
    | none =>
      have needs := Trace.needs?_of_controlOf? loop control
      obtain ⟨g', b, succeeds, tidy', extends', known⟩ := controlBlock_spec tidy ordered hits
        (ready k needs) (ne_of_needs? ordered recorded needs) ⟨e, cached, control, loop⟩
      obtain ⟨-, m, found, -⟩ := tidy'.memo known
      obtain ⟨thread, threadOf, place⟩ := tidy'.threadOf_eq_ok found
      by_cases same : thread = r.thread
      · refine ⟨g', b, ?_, tidy', extends', ?_⟩
        · simp only [succeeds, threadOf, same, if_true]
          rfl
        · rw [target?, recorded, Option.bind_some]
          simp only [controlled, loop, known, Option.bind_some, place?_of_shape? found, place, same,
            if_true]
      · -- what controls the event runs on another thread
        obtain ⟨tidy'', extends'', known''⟩ := threadBlock_spec tidy' recorded
        refine ⟨_, (g'.threadBlock t r.thread e).2, ?_, tidy'', extends'.trans extends'', ?_⟩
        · simp only [succeeds, threadOf, same, if_false]
          rfl
        · rw [target?, recorded, Option.bind_some]
          simp only [controlled, loop, extends''.controlBlocks known, Option.bind_some,
            extends''.place? (place?_of_shape? found), place, Option.some.injEq, same, if_false]
          exact known''

/-! ### The node of an event -/

/-- The graph with the node of an event appended that belongs nowhere yet. -/
def addEvent (g : Graph) (t : Trace) (e : EventId) (kind : EventKind) : Graph :=
  { g with
    nodes := g.nodes.push
      { event := e, kind := .ofEvent kind (kind.isInvocation && t.startsNext e) }
    nodeOf := g.nodeOf.insert e ⟨g.size⟩
    created_listed := g.created_listed.pushNode _ }

theorem appended_addEvent (g : Graph) (t : Trace) (e : EventId) (kind : EventKind) :
    g.Appended { kind := .ofEvent kind (kind.isInvocation && t.startsNext e), anchor := e }
      (g.addEvent t e kind) := by
  rw [← Node.shape_ofEvent]
  refine appended_push rfl (fun p => ?_) rfl
  rw [Node.shape_ofEvent, Shape.place, NodeKind.place_ofEvent]
  cases p with
  | event e' =>
    simp only [Graph.at?, addEvent, Ident.getElem?_insert, Place.event.injEq]
  | loop first => rfl
  | thread thread => rfl

/-- The node of an event can be appended, and is loose then. -/
theorem addEvent_spec (tidy : g.Tidy t c none) (recorded : t.record? e = some r)
    (unknown : g.nodeOf[e]? = none) (isNew : e ∈ new) :
    (g.addEvent t e r.kind).Tidy t c (some e) ∧ g.Extends new (g.addEvent t e r.kind) := by
  have appended := appended_addEvent g t e r.kind
  have place : Shape.place
      { kind := .ofEvent r.kind (r.kind.isInvocation && t.startsNext e), anchor := e } =
        .event e := NodeKind.place_ofEvent _ _ e
  have missing : g.at? (.event e) = none := unknown
  rw [← place] at missing
  constructor
  · refine tidy.appended appended missing ?_ rfl rfl (fun first loop => ?_) (fun e' same => ?_)
      fun e' ⟨id, known⟩ => ⟨fun same => ?_, nofun⟩
    · rw [Shape.Sited, place]
      exact ⟨rfl, r, recorded, rfl⟩
    · cases place.symm.trans loop
    · cases place.symm.trans same
      rfl
    · rw [← Option.some.inj same, unknown] at known
      cases known
  · rw [← Node.shape_ofEvent] at appended missing place
    refine extends_push rfl appended missing rfl ?_ fun e' same => ?_
    · rw [place]
      rfl
    · cases place.symm.trans same
      exact isNew

/-- What the event waits for is still there when the node of the event has been appended. -/
theorem Ready.addEvent (ready : g.Ready t c e) (tidy : g.Tidy t c none)
    (recorded : t.record? e = some r) (unknown : g.nodeOf[e]? = none) :
    (g.addEvent t e r.kind).Ready t c e := fun needed waits =>
  (addEvent_spec tidy recorded unknown (Set.mem_univ e)).2.cached (ready needed waits)

/-- The node of a recorded event is appended, its block is found, and the node joins it. -/
theorem create_eq (recorded : t.record? e = some r) :
    g.create t c nested e =
      ((g.addEvent t e r.kind).blockFor t c nested e).bind fun found =>
        found.1.attach t ⟨g.size⟩ found.2 := by
  unfold create
  rw [kindFor_eq recorded]
  rfl

/-- Making the node of an event, one step after the other. -/
theorem create_cases (made : g.create t c nested e = .ok g') :
    ∃ r g₂ b, t.record? e = some r ∧
      (g.addEvent t e r.kind).blockFor t c nested e = .ok (g₂, b) ∧
      g₂.attach t ⟨g.size⟩ b = .ok g' := by
  obtain ⟨kind, told, -⟩ := bind_eq_ok_iff.1 made
  obtain ⟨_, read, -⟩ := bind_eq_ok_iff.1 told
  obtain ⟨r, read, -⟩ := map_eq_ok_iff.1 read
  have recorded := Trace.read_eq_ok_iff.1 read
  rw [create_eq recorded] at made
  obtain ⟨⟨g₂, b⟩, found, attached⟩ := bind_eq_ok_iff.1 made
  exact ⟨r, g₂, b, recorded, found, attached⟩

/-- The node of an event can be made once the event that it waits for has a node. -/
theorem create_spec (tidy : g.Tidy t c none) (ordered : t.WellOrdered) (hits : Hits nested)
    (recorded : t.record? e = some r) (unknown : g.nodeOf[e]? = none) (ready : g.Ready t c e)
    (isNew : e ∈ new) :
    ∃ g', g.create t c nested e = .ok g' ∧ g'.Tidy t c none ∧ g.Extends new g' ∧ g'.Cached e := by
  obtain ⟨tidy₁, extends₁⟩ := addEvent_spec tidy recorded unknown isNew
  have cached : (g.addEvent t e r.kind).nodeOf[e]? = some ⟨g.size⟩ :=
    Std.TreeMap.getElem?_insert_self
  obtain ⟨g₂, b, succeeds, tidy₂, extends₂, target⟩ := blockFor_spec tidy₁ ordered hits recorded
    ⟨_, cached⟩ (ready.addEvent tidy recorded unknown)
  have known : g₂.nodeOf[e]? = some ⟨g.size⟩ := extends₂.at? (p := .event e) cached
  obtain ⟨s, -, found, place, anchor, -⟩ := tidy₂.shape?_of_event known
  obtain ⟨m, found', -, rank⟩ := tidy₂.target?_spec ordered target
  have below : m.rank < s.rank := by
    simp only [Shape.rank, place, anchor] at rank ⊢
    omega
  have different : b ≠ ⟨g.size⟩ := by
    rintro rfl
    rw [found, Option.some.injEq] at found'
    subst found'
    exact absurd below (Nat.lt_irrefl _)
  obtain ⟨g₃, attached, linked⟩ := attach_linked tidy₂.readable found found' different
    (Shape.anchor_le_of_rank_lt below)
  have extends₃ : g₂.Extends new g₃ :=
    .of_keeps linked.toKeeps (linked.outline found found' different)
  refine ⟨g₃, ?_, tidy₂.adopted ordered known target linked,
    (extends₁.trans extends₂).trans extends₃, ⟨_, extends₃.at? (p := .event e) known⟩⟩
  rw [create_eq recorded, succeeds]
  exact attached

end Inquest.Graph
