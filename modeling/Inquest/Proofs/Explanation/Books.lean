import Inquest.Proofs.Explanation.Iterations
import Inquest.Proofs.Explanation.Membership

/-!
# The books of a pass

While a pass is under way the graph keeps books: which loop and thread blocks were created, and the
members of which blocks changed.  Members change at several places, when a node joins a block, when
it leaves one for a loop block, and when the loop block itself is put between the two; the runs of a
block change when a branch joins it.  Whatever a pass is made of, the books tell all of it: a block
that is not listed has the members and the runs that it had, and the new blocks are listed in the
order of their numbers.

## Main Definitions

* `Graph.structures` - the loop and thread blocks with their anchors
* `Graph.Booked` - what happened between two graphs is in the books

## Main Statements

* `Graph.attach_booked`, `Graph.rehome_booked` - the operations on blocks keep the books
* `Graph.Leads.booked` - what a pass did is in its books
-/

namespace Inquest

/-- Whether a node stands for no event: it is a loop block or a thread block. -/
def NodeKind.isStructural : NodeKind → Bool
  | .loop _ => true
  | .thread _ _ _ => true
  | _ => false

namespace Node

/-- What a block shows: its members and its runs. -/
def contents (n : Node) : List (EventId × NodeId) × List LoopRun :=
  (n.members.toList, n.kind.runs)

/-- The anchor of a loop or thread block. -/
def anchor? (n : Node) : Option EventId := if n.kind.isStructural then some n.event else none

theorem anchor?_eq_some_iff {n : Node} {e : EventId} :
    n.anchor? = some e ↔ n.kind.isStructural = true ∧ n.event = e := by
  unfold anchor?
  split <;> simp_all

theorem contents_noteDepth (n : Node) (b : NodeId) (depth : Nat) :
    (n.noteDepth b depth).contents = n.contents := by
  unfold noteDepth
  split
  · next kind =>
    split
    · simp only [contents, kind, NodeKind.runs]
    · rfl
  · rfl

theorem anchor?_noteDepth (n : Node) (b : NodeId) (depth : Nat) :
    (n.noteDepth b depth).anchor? = n.anchor? := by
  unfold noteDepth
  split
  · next kind =>
    split
    · simp only [anchor?, kind, NodeKind.isStructural]
    · rfl
  · rfl

theorem contents_resolvePath (n : Node) (pathOf : EventId → Option LoopPathId) :
    (n.resolvePath pathOf).contents = n.contents := by
  unfold resolvePath
  split
  · next kind => simp only [contents, kind, NodeKind.runs]
  · rfl

theorem anchor?_resolvePath (n : Node) (pathOf : EventId → Option LoopPathId) :
    (n.resolvePath pathOf).anchor? = n.anchor? := by
  unfold resolvePath
  split
  · next kind =>
    rw [anchor?, anchor?, kind]
    rfl
  · rfl

end Node

namespace Graph

variable {g g' g'' : Graph} {t : Trace} {c : Config} {loose loose' : Option EventId}
variable {e : EventId} {id b x : NodeId} {n : Node} {f : Node → Node}

/-! ### Loop and thread blocks -/

/-- A loop or thread block with its anchor. -/
def structure? (g : Graph) (x : NodeId) : Option (NodeId × EventId) :=
  ((g.node? x).map Node.anchor?).join.map (x, ·)

/-- The loop and thread blocks with their anchors, in the order of creation. -/
def structures (g : Graph) : List (NodeId × EventId) := g.ids.filterMap g.structure?

theorem structure?_eq_some_iff {y : NodeId} :
    g.structure? x = some (y, e) ↔ x = y ∧ ∃ n, g.node? x = some n ∧ n.anchor? = some e := by
  rw [structure?, Option.map_eq_some_iff]
  simp only [Option.join_eq_some_iff, Option.map_eq_some_iff, Prod.mk.injEq]
  constructor
  · rintro ⟨e', anchored, rfl, rfl⟩
    exact ⟨rfl, anchored⟩
  · rintro ⟨rfl, anchored⟩
    exact ⟨e, anchored, rfl, rfl⟩

theorem mem_structures :
    (b, e) ∈ g.structures ↔ ∃ n, g.node? b = some n ∧ n.anchor? = some e := by
  rw [structures, List.mem_filterMap]
  constructor
  · rintro ⟨x, -, listed⟩
    obtain ⟨rfl, anchored⟩ := structure?_eq_some_iff.1 listed
    exact anchored
  · rintro ⟨n, found, anchored⟩
    exact ⟨b, mem_ids.2 (Array.getElem?_eq_some_iff.1 found).1,
      structure?_eq_some_iff.2 ⟨rfl, n, found, anchored⟩⟩

/-- The blocks come in the order of their numbers. -/
theorem pairwise_structures (g : Graph) : g.structures.Pairwise (·.1 < ·.1) := by
  rw [structures, List.pairwise_filterMap, ids, List.pairwise_map]
  refine List.pairwise_lt_range.imp fun {i j} before => ?_
  rintro ⟨x, e⟩ known ⟨y, f⟩ known'
  obtain ⟨rfl, -⟩ := structure?_eq_some_iff.1 known
  obtain ⟨rfl, -⟩ := structure?_eq_some_iff.1 known'
  exact before

theorem structures_congr (size : g'.size = g.size)
    (anchors : ∀ x, (g'.node? x).map Node.anchor? = (g.node? x).map Node.anchor?) :
    g'.structures = g.structures := by
  have same : g'.structure? = g.structure? := funext fun x => by
    rw [structure?, structure?, anchors]
  rw [structures, structures, ids, ids, size, same]

/-- An appended node is the last of the blocks, if it is one. -/
theorem structures_push (nodes : g'.nodes = g.nodes.push n) :
    g'.structures = g.structures ++ (n.anchor?.map ((⟨g.size⟩ : NodeId), ·)).toList := by
  have size : g'.size = g.size + 1 := by rw [Graph.size, nodes, Array.size_push]; rfl
  have old : g.ids.filterMap g'.structure? = g.structures := by
    refine List.filterMap_congr fun x listed => ?_
    have different : x ≠ ⟨g.size⟩ := by
      rintro rfl
      exact absurd (mem_ids.1 listed) (Nat.lt_irrefl _)
    rw [structure?, structure?, node?_push nodes, if_neg different]
  have new : g'.structure? ⟨g.size⟩ = n.anchor?.map ((⟨g.size⟩ : NodeId), ·) := by
    rw [structure?, node?_push nodes, if_pos rfl, Option.map_some, Option.join_some]
  rw [structures, ids, size, List.range_succ, List.map_append, List.filterMap_append]
  refine congrArg₂ (· ++ ·) old ?_
  rw [List.map_singleton, List.filterMap_cons, new]
  cases n.anchor? <;> rfl

/-! ### Books -/

/-- What happened on the way from `g` to `g'` is in the books of `g'`. -/
structure Booked (g g' : Graph) : Prop where
  unread : g'.unread = g.unread
  changed : ∀ b, b ∈ g.changed → b ∈ g'.changed
  /-- A block that is not listed shows what it showed before. -/
  entries : ∀ b, b ∉ g'.changed → g'.entries b = g.entries b
  runs : ∀ b, b ∉ g'.changed → g'.runsOf b = g.runsOf b
  /-- The new loop and thread blocks are listed in order. -/
  created : ∃ new, g'.structures = g.structures ++ new ∧
    g'.created.toList = g.created.toList ++ new.map Prod.fst

namespace Booked

theorem refl (g : Graph) : g.Booked g :=
  ⟨rfl, fun _ listed => listed, fun _ _ => rfl, fun _ _ => rfl,
    [], (List.append_nil _).symm, (List.append_nil _).symm⟩

theorem trans (first : g.Booked g') (second : g'.Booked g'') : g.Booked g'' := by
  have unlisted : ∀ {b}, b ∉ g''.changed → b ∉ g'.changed := fun {b} unlisted listed =>
    unlisted (second.changed b listed)
  refine ⟨second.unread.trans first.unread,
    fun b listed => second.changed b (first.changed b listed),
    fun b other => (second.entries b other).trans (first.entries b (unlisted other)),
    fun b other => (second.runs b other).trans (first.runs b (unlisted other)), ?_⟩
  obtain ⟨new, structures, created⟩ := first.created
  obtain ⟨new', structures', created'⟩ := second.created
  refine ⟨new ++ new', ?_, ?_⟩
  · rw [structures', structures, List.append_assoc]
  · rw [created', created, List.map_append, List.append_assoc]

/-- A loop or thread block stays one. -/
theorem anchored (booked : g.Booked g') (found : g.node? x = some n)
    (anchor : n.anchor? = some e) : ∃ n', g'.node? x = some n' ∧ n'.anchor? = some e := by
  obtain ⟨new, structures, -⟩ := booked.created
  have listed : (x, e) ∈ g'.structures := by
    rw [structures]
    exact List.mem_append_left _ (mem_structures.2 ⟨n, found, anchor⟩)
  exact mem_structures.1 listed

end Booked

theorem entries_congr
    (same : (g'.node? b).map Node.contents = (g.node? b).map Node.contents) :
    g'.entries b = g.entries b := by
  have view := congrArg (Option.map Prod.fst) same
  rw [Option.map_map, Option.map_map] at view
  exact congrArg (Option.getD · []) view

theorem runsOf_congr
    (same : (g'.node? b).map Node.contents = (g.node? b).map Node.contents) :
    g'.runsOf b = g.runsOf b := by
  have view := congrArg (Option.map Prod.snd) same
  rw [Option.map_map, Option.map_map] at view
  rw [runsOf, runsOf, laps?, laps?, Option.map_map, Option.map_map]
  exact congrArg (Option.getD · []) view

/-- A change of nodes is booked if it leaves the blocks what they are, and changes what they show
only where the books tell it. -/
theorem booked_of_contents (size : g'.size = g.size) (unread : g'.unread = g.unread)
    (created : g'.created = g.created) (changed : ∀ b, b ∈ g.changed → b ∈ g'.changed)
    (anchors : ∀ x, (g'.node? x).map Node.anchor? = (g.node? x).map Node.anchor?)
    (contents : ∀ x, x ∉ g'.changed →
      (g'.node? x).map Node.contents = (g.node? x).map Node.contents) : g.Booked g' := by
  refine ⟨unread, changed, fun b other => entries_congr (contents b other),
    fun b other => runsOf_congr (contents b other), [], ?_, ?_⟩
  · rw [structures_congr size anchors, List.append_nil]
  · rw [created, List.map_nil, List.append_nil]

theorem booked_modify (anchors : ∀ n, g.node? id = some n → (f n).anchor? = n.anchor?)
    (contents : id ∉ g.changed → ∀ n, g.node? id = some n → (f n).contents = n.contents) :
    g.Booked (g.modify id f) := by
  refine booked_of_contents (sameTables_modify g id f).size rfl rfl (fun _ listed => listed)
    (map_node?_modify anchors) fun x other => ?_
  by_cases self : x = id
  · subst self
    exact map_node?_modify (contents other) x
  · rw [node?_modify_of_ne f self]

/-- A block that is listed may show anything. -/
theorem booked_listed (anchors : ∀ n, (f n).anchor? = n.anchor?) :
    g.Booked { g.modify b f with changed := (g.modify b f).changed.insert b } := by
  refine booked_of_contents (sameTables_modify g b f).size rfl rfl
    (fun _ listed => IdentSet.mem_insert.2 (.inr listed))
    (map_node?_modify fun n _ => anchors n) fun x other => ?_
  have different : x ≠ b := fun same => other (IdentSet.mem_insert.2 (.inl same))
  exact congrArg (Option.map Node.contents) (node?_modify_of_ne f different)

/-- A change of explanations does not matter. -/
theorem SameBodies.booked (same : g.SameBodies g') (books : g.SameBooks g') : g.Booked g' :=
  booked_of_contents same.size books.unread books.created
    (fun _ listed => books.changed ▸ listed) (same.map_node? Node.anchor? fun _ => rfl)
    fun x _ => same.map_node? Node.contents (fun _ => rfl) x

/-- An appended node shows nothing.  It is listed if it is a loop or thread block. -/
theorem booked_push (nodes : g'.nodes = g.nodes.push n) (blank : n.contents = ([], []))
    (unread : g'.unread = g.unread) (changed : g'.changed = g.changed)
    (created : g'.created.toList =
      g.created.toList ++ (n.anchor?.map fun _ => (⟨g.size⟩ : NodeId)).toList) : g.Booked g' := by
  have entries : ∀ x, g'.entries x = g.entries x := by
    intro x
    by_cases isNew : x = ⟨g.size⟩
    · subst isNew
      rw [Graph.entries, Graph.entries, node?_push nodes, if_pos rfl, node?_size]
      exact congrArg Prod.fst blank
    · rw [Graph.entries, Graph.entries, node?_push nodes, if_neg isNew]
  have runs : ∀ x, g'.runsOf x = g.runsOf x := by
    intro x
    by_cases isNew : x = ⟨g.size⟩
    · subst isNew
      rw [runsOf, runsOf, laps?, laps?, node?_push nodes, if_pos rfl, node?_size]
      exact congrArg Prod.snd blank
    · rw [runsOf, runsOf, laps?, laps?, node?_push nodes, if_neg isNew]
  refine ⟨unread, fun _ listed => changed ▸ listed, fun b _ => entries b, fun b _ => runs b, _,
    structures_push nodes, created.trans (congrArg (g.created.toList ++ ·) ?_)⟩
  cases n.anchor? <;> rfl

/-! ### Operations on blocks -/

theorem link_booked (g : Graph) (id b : NodeId) (e : EventId) : g.Booked (g.link id b e) := by
  have owned : g.Booked (g.modify id fun n => { n with owner := some b }) :=
    booked_modify (fun _ _ => rfl) fun _ _ _ => rfl
  exact owned.trans
    (booked_listed (f := fun n => { n with members := n.members.insert e id }) fun _ => rfl)

theorem detach_booked (detached : g.detach id = .ok g') : g.Booked g' := by
  obtain ⟨n, -, ⟨-, rfl⟩ | ⟨b, -, rfl⟩⟩ := detach_cases detached
  · exact .refl _
  · exact booked_listed (f := fun m => { m with members := m.members.erase n.event }) fun _ => rfl

theorem setDepth_booked {depth : Nat} (deepened : g.setDepth t id depth = .ok g') :
    g.Booked g' := by
  have first : g.Booked (g.modify id fun n => { n with depth }) :=
    booked_modify (fun _ _ => rfl) fun _ _ _ => rfl
  obtain ⟨-, -, -, -, ⟨-, rfl⟩ | ⟨root, -, rfl⟩⟩ := setDepth_cases deepened
  · exact first
  · exact first.trans (booked_modify (fun n _ => n.anchor?_noteDepth id depth)
      fun _ n _ => n.contents_noteDepth id depth)

theorem refreshDepths_booked {count : Nat} {stack : List NodeId}
    (refreshed : refreshDepths t count stack g = .ok g') : g.Booked g' :=
  refreshDepths_induction (P := fun g' => g.Booked g') (.refl g)
    (fun before _ set => before.trans (setDepth_booked set)) refreshed

/-- Grouping the members of a loop block that is listed already. -/
theorem recomputeRuns_booked (listed : b ∈ g.changed) (found : g.node? b = some n)
    (isStructural : n.kind.isStructural = true) (grouped : g.recomputeRuns t b = .ok g') :
    g.Booked g' := by
  have resolved : ∀ (ids : List NodeId) (g : Graph),
      g.Booked (ids.foldl (·.resolvePath t ·) g) := by
    intro ids
    induction ids with
    | nil => exact .refl
    | cons id rest ih =>
      intro g
      exact (booked_modify (fun n _ => n.anchor?_resolvePath _)
        fun _ n _ => n.contents_resolvePath _).trans (ih (g.resolvePath t id))
  obtain rfl := recomputeRuns_eq found grouped
  have first := resolved n.members.values g
  refine first.trans (booked_modify (fun m found' => ?_) fun other => ?_)
  · obtain ⟨m', found'', anchor⟩ :=
      first.anchored found (Node.anchor?_eq_some_iff.2 ⟨isStructural, rfl⟩)
    cases found'.symm.trans found''
    rw [anchor, ← (Node.anchor?_eq_some_iff.1 anchor).2]
    rfl
  · exact absurd (first.changed b listed) other

/-- Whoever joins a block makes it one that changed. -/
theorem attach_booked (attached : g.attach t id b = .ok g') : g.Booked g' := by
  obtain ⟨n, m, g₂, -, found, deepened, grouped⟩ := attach_cases attached
  have linked := link_booked g id b n.event
  have listed : b ∈ (g.link id b n.event).changed := IdentSet.mem_insert.2 (.inl rfl)
  have deeper : (g.link id b n.event).Booked g₂ := by
    split at deepened
    · exact setDepth_booked deepened
    · cases deepened
      exact .refl _
  have before := linked.trans deeper
  split at grouped
  · next regroups =>
    have isLoop : m.kind.isLoop = true := (Bool.and_eq_true_iff.1 regroups).1
    have isStructural : m.kind.isStructural = true := by
      cases kind : m.kind <;> simp_all [NodeKind.isLoop, NodeKind.isStructural]
    obtain ⟨m', found', anchor⟩ :=
      before.anchored found (Node.anchor?_eq_some_iff.2 ⟨isStructural, rfl⟩)
    exact before.trans (recomputeRuns_booked (deeper.changed b listed) found'
      (Node.anchor?_eq_some_iff.1 anchor).1 grouped)
  · cases grouped
    exact before

theorem rehome_booked (rehomed : g.rehome t id b = .ok g') : g.Booked g' := by
  unfold rehome at rehomed
  obtain ⟨g₁, detached, rehomed⟩ := bind_eq_ok_iff.1 rehomed
  obtain ⟨g₂, attached, refreshed⟩ := bind_eq_ok_iff.1 rehomed
  exact ((detach_booked detached).trans (attach_booked attached)).trans
    (refreshDepths_booked refreshed)

/-! ### Passes -/

theorem addEvent_booked (g : Graph) (t : Trace) (e : EventId) (kind : EventKind) :
    g.Booked (g.addEvent t e kind) := by
  have plain : ∀ called, (NodeKind.ofEvent kind called).isStructural = false ∧
      (NodeKind.ofEvent kind called).runs = [] := by
    intro called
    cases kind <;> exact ⟨rfl, rfl⟩
  obtain ⟨notStructural, noRuns⟩ := plain (kind.isInvocation && t.startsNext e)
  refine booked_push rfl ?_ rfl rfl ?_
  · rw [Node.contents, noRuns]
    rfl
  · simp [Node.anchor?, notStructural, addEvent]

theorem addThread_booked (g : Graph) (thread : ThreadId) (first : EventId) :
    g.Booked (g.addThread thread first) :=
  booked_push (n := Node.structural first (.thread thread 0 none)) rfl rfl rfl rfl
    Array.toList_push

theorem addLoop_booked (g : Graph) (first : EventId) : g.Booked (g.addLoop first) :=
  booked_push (n := Node.structural first (.loop [])) rfl rfl rfl rfl Array.toList_push

/-- What a pass did is in its books. -/
theorem Leads.booked (pass : Pass t c loose g loose' g') : g.Booked g' := by
  induction pass with
  | refl => exact .refl g
  | step _ change _ ih =>
    refine ih.trans ?_
    cases change with
    | quiet same _ books => exact same.booked books
    | control => exact SameBodies.booked ⟨rfl, fun _ => rfl, rfl, rfl, rfl⟩ ⟨rfl, rfl, rfl⟩
    | event => exact addEvent_booked _ t _ _
    | thread => exact addThread_booked _ _ _
    | loop _ _ _ _ _ attached rehomed =>
      exact ((addLoop_booked _ _).trans (attach_booked attached)).trans (rehome_booked rehomed)
    | adopt _ _ attached => exact attach_booked attached

end Graph

end Inquest
