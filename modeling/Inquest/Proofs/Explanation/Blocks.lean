import Inquest.Proofs.Explanation.Shape
import Inquest.Proofs.Walk

/-!
# What the operations on blocks do

Each operation on blocks is described by what it does to shapes, and none of them touches the
progress of a node.  Depths and runs are derived, so that setting a depth and regrouping the members
of a loop change no shape at all.

An operation reads the nodes that it follows references to.  There are two statements about each:
what it has done if it succeeds, whatever the graph, and that it succeeds on a readable graph.

## Main Definitions

* `Graph.resolvePath`, `Graph.regroup` - a graph in which paths are resolved, and in which the
  members of a loop are regrouped
* `Graph.Traceable` - a node can be asked for its path
* `Graph.Linked`, `Graph.Unlisted` - a graph in which a node was put into a block, or taken out

## Main Statements

* `Graph.setDepth_cases`, `Graph.refreshDepths_cases`, `Graph.attach_cases`, `Graph.detach_cases` -
  what an operation does, one step after the other
* `Graph.refreshDepths_induction` - what holds after depths have been brought up to date
* `Graph.loopPath_cases`, `Graph.recomputeRuns_eq` - resolving paths and regrouping
* `Graph.attach_linked`, `Graph.detach_unlisted` - attaching a node puts it into a block and
  detaching takes it out, and they do nothing else
-/

namespace Inquest

/-! ### Members as a list -/

theorem values_eq_map_toList (members : Std.TreeMap EventId NodeId) :
    members.values = members.toList.map Prod.snd := by
  have fold : members.values = members.foldr (fun _ id ids => id :: ids) [] := rfl
  rw [fold, Std.TreeMap.foldr_eq_foldr_toList]
  induction members.toList with
  | nil => rfl
  | cons entry rest ih => rw [List.foldr_cons, ih, List.map_cons]

theorem mem_values {members : Std.TreeMap EventId NodeId} {id : NodeId} :
    id ∈ members.values ↔ ∃ e : EventId, members[e]? = some id := by
  rw [values_eq_map_toList, List.mem_map]
  constructor
  · rintro ⟨⟨e, _⟩, listed, rfl⟩
    exact ⟨e, Std.TreeMap.mem_toList_iff_getElem?_eq_some.1 listed⟩
  · rintro ⟨e, listed⟩
    exact ⟨(e, id), Std.TreeMap.mem_toList_iff_getElem?_eq_some.2 listed, rfl⟩

namespace Graph

variable {g g' g'' : Graph} {t : Trace} {id block x : NodeId} {n m : Node} {s : Shape}

/-- The nodes of a list can be looked at if there are nodes of these numbers. -/
theorem filterM_node_eq_ok_iff {p : Node → Bool} {ids kept : List NodeId} :
    ids.filterM (fun id => p <$> g.node id) = .ok kept ↔
      (∀ x ∈ ids, ∃ n, g.node? x = some n) ∧ kept = ids.filter fun x => (g.node? x).any p := by
  have tests : (∀ x ∈ ids, ∃ n, g.node? x = some n) →
      ids.filterM (fun id => p <$> g.node id) = .ok (ids.filter fun x => (g.node? x).any p) := by
    intro known
    refine filterM_eq_ok fun x listed => ?_
    obtain ⟨n, found⟩ := known x listed
    rw [node_eq_ok_iff.2 found, found]
    rfl
  constructor
  · intro filtered
    have known : ∀ x ∈ ids, ∃ n, g.node? x = some n := by
      intro x listed
      obtain ⟨_, test⟩ := exists_ok_of_filterM filtered x listed
      obtain ⟨n, found, -⟩ := map_eq_ok_iff.1 test
      exact ⟨n, node_eq_ok_iff.1 found⟩
    exact ⟨known, Except.ok.inj (filtered.symm.trans (tests known))⟩
  · rintro ⟨known, rfl⟩
    exact tests known

/-- The members of a block can be looked at. -/
theorem Readable.exists_node? (readable : g.Readable t) (found : g.node? id = some n)
    (listed : x ∈ n.members.values) : ∃ m, g.node? x = some m := by
  obtain ⟨e, entry⟩ := mem_values.1 listed
  obtain ⟨s, shape⟩ := readable.members (shape?_of_node? found) entry
  obtain ⟨m, found', -⟩ := exists_node?_of_shape? shape
  exact ⟨m, found'⟩

/-! ### Depths -/

section Depths

variable {depth : Nat}

/-- The depth of a node is set, and the block of its thread is told if there is one. -/
theorem setDepth_cases (deepened : g.setDepth t id depth = .ok g') :
    ∃ n r, g.node? id = some n ∧ t.record? n.event = some r ∧
      (g.threadBlocks[r.thread]? = none ∧ g' = g.modify id ({ · with depth }) ∨
        ∃ root, g.threadBlocks[r.thread]? = some root ∧
          g' = (g.modify id ({ · with depth })).modify root (·.noteDepth id depth)) := by
  unfold setDepth noteDepth at deepened
  obtain ⟨n', found', deepened⟩ := bind_eq_ok_iff.1 deepened
  have found' := node_eq_ok_iff.1 found'
  rw [node?_modify, if_pos rfl] at found'
  obtain ⟨n, found, rfl⟩ := Option.map_eq_some_iff.1 found'
  obtain ⟨thread, read, deepened⟩ := bind_eq_ok_iff.1 deepened
  obtain ⟨r, recorded, rfl⟩ := map_eq_ok_iff.1 read
  refine ⟨n, r, found, Trace.read_eq_ok_iff.1 recorded, ?_⟩
  have tables : (g.modify id ({ · with depth })).threadBlocks = g.threadBlocks := rfl
  rw [tables] at deepened
  cases known : g.threadBlocks[r.thread]? with
  | none =>
    simp only [known] at deepened
    cases deepened
    exact .inl ⟨rfl, rfl⟩
  | some root =>
    simp only [known] at deepened
    obtain ⟨_, -, deepened⟩ := bind_eq_ok_iff.1 deepened
    cases deepened
    exact .inr ⟨root, rfl, rfl⟩

/-- Setting a depth changes no shape. -/
theorem alike_of_setDepth (deepened : g.setDepth t id depth = .ok g') : g.Alike g' := by
  have set : g.Alike (g.modify id ({ · with depth })) :=
    alike_modify fun n _ => n.sameAs_depth depth
  obtain ⟨-, -, -, -, ⟨-, rfl⟩ | ⟨root, -, rfl⟩⟩ := setDepth_cases deepened
  · exact set
  · exact set.trans (alike_modify fun n _ => n.sameAs_noteDepth id depth)

/-- The depth of a node of a readable graph can be set. -/
theorem setDepth_alike (readable : g.Readable t) (found : g.node? id = some n) (depth : Nat) :
    ∃ g', g.setDepth t id depth = .ok g' ∧ g.Alike g' := by
  obtain ⟨r, recorded⟩ := readable.recorded (shape?_of_node? found)
  have set : g.Alike (g.modify id ({ · with depth })) :=
    alike_modify fun n _ => n.sameAs_depth depth
  have found' := node?_modify_self ({ · with depth }) found
  have thread : t.thread n.event = .ok r.thread :=
    Trace.map_read_of_record? recorded Record.thread
  suffices succeeds : ∃ g', g.setDepth t id depth = .ok g' by
    obtain ⟨g', deepened⟩ := succeeds
    exact ⟨g', deepened, alike_of_setDepth deepened⟩
  unfold setDepth noteDepth
  rw [node_eq_ok_iff.2 found']
  simp only [bind, Except.bind, thread]
  split
  · exact ⟨_, rfl⟩
  · next root known =>
    obtain ⟨m, shape⟩ := (readable.alike set).threads known
    obtain ⟨m, foundRoot, -⟩ := exists_node?_of_shape? shape
    rw [node_eq_ok_iff.2 foundRoot]
    exact ⟨_, rfl⟩

/-- Bringing depths up to date looks into one block after the other, and sets the depths of the
blocks in it. -/
theorem refreshDepths_cases {count : Nat} {stack : List NodeId}
    (refreshed : refreshDepths t count stack g = .ok g') :
    stack = [] ∧ g' = g ∨ ∃ left current rest n g₁, count = left + 1 ∧ stack = current :: rest ∧
      g.node? current = some n ∧
      (n.members.values.filter g.isBlock).foldlM
        (fun g id => g.setDepth t id (n.depth + 1)) g = .ok g₁ ∧
      refreshDepths t left ((n.members.values.filter g.isBlock).reverse ++ rest) g₁ = .ok g' := by
  cases stack with
  | nil =>
    cases count <;> cases refreshed <;> exact .inl ⟨rfl, rfl⟩
  | cons current rest =>
    cases count with
    | zero => cases refreshed
    | succ left =>
      rw [refreshDepths] at refreshed
      obtain ⟨n, found, refreshed⟩ := bind_eq_ok_iff.1 refreshed
      obtain ⟨nested, looked, refreshed⟩ := bind_eq_ok_iff.1 refreshed
      obtain ⟨g₁, deepened, refreshed⟩ := bind_eq_ok_iff.1 refreshed
      obtain ⟨-, rfl⟩ := filterM_node_eq_ok_iff.1 looked
      exact .inr ⟨left, current, rest, n, g₁, rfl, rfl, node_eq_ok_iff.1 found, deepened, refreshed⟩

/-- What holds of a graph and goes on to hold when the depth of a block is set holds when depths
have been brought up to date. -/
theorem refreshDepths_induction {P : Graph → Prop} {count : Nat} {stack : List NodeId} (start : P g)
    (step : ∀ {g₁ g₂ x depth}, P g₁ → g₁.isBlock x = true → g₁.setDepth t x depth = .ok g₂ → P g₂)
    (refreshed : refreshDepths t count stack g = .ok g') : P g' := by
  induction count generalizing g stack with
  | zero =>
    obtain ⟨-, rfl⟩ | ⟨left, -, -, -, -, impossible, -⟩ := refreshDepths_cases refreshed
    · exact start
    · cases impossible
  | succ count ih =>
    obtain ⟨-, rfl⟩ | ⟨left, current, rest, n, g₁, same, -, -, deepened, refreshed⟩ :=
      refreshDepths_cases refreshed
    · exact start
    · cases same
      refine ih ?_ refreshed
      have both : P g₁ ∧ g.Alike g₁ := by
        refine foldlM_induction (P := fun g' => P g' ∧ g.Alike g') ⟨start, .refl g⟩ ?_ deepened
        rintro x g₂ g₃ member ⟨holds, alike⟩ set
        obtain ⟨s, shape, isBlock⟩ := isBlock_iff.1 (List.mem_filter.1 member).2
        have isBlock' := isBlock_iff.2 ⟨s, (alike.shape? x).trans shape, isBlock⟩
        exact ⟨step holds isBlock' set, alike.trans (alike_of_setDepth set)⟩
      exact both.1

end Depths

/-! ### Paths -/

/-- The graph with the path of a node resolved, if it is a branch. -/
def resolvePath (g : Graph) (t : Trace) (id : NodeId) : Graph :=
  g.modify id (·.resolvePath t.pathFrom?)

theorem alike_resolvePath (g : Graph) (t : Trace) (id : NodeId) : g.Alike (g.resolvePath t id) :=
  alike_modify fun n _ => n.sameAs_resolvePath t.pathFrom?

theorem node?_foldl_resolvePath (t : Trace) (ids : List NodeId) (g : Graph) (x : NodeId) :
    (ids.foldl (·.resolvePath t ·) g).node? x =
      if x ∈ ids then (g.node? x).map (·.resolvePath t.pathFrom?) else g.node? x := by
  induction ids generalizing g with
  | nil => rw [if_neg List.not_mem_nil]; rfl
  | cons id rest ih =>
    rw [List.foldl_cons, ih, resolvePath, node?_modify]
    by_cases self : x = id
    · subst self
      rw [if_pos rfl, if_pos List.mem_cons_self]
      split
      · rw [Option.map_map]
        exact Option.map_congr fun n _ => n.resolvePath_resolvePath t.pathFrom?
      · rfl
    · rw [if_neg self]
      by_cases member : x ∈ rest
      · rw [if_pos member, if_pos (List.mem_cons_of_mem id member)]
      · rw [if_neg member, if_neg fun listed => (List.mem_cons.1 listed).elim self member]

theorem foldl_resolvePath_alike (t : Trace) (ids : List NodeId) (g : Graph) :
    g.Alike (ids.foldl (·.resolvePath t ·) g) := by
  induction ids generalizing g with
  | nil => exact .refl g
  | cons id rest ih => exact (g.alike_resolvePath t id).trans (ih _)

/-- Whoever asks for the path of a node gets the one that the node has once it is resolved. -/
theorem loopPath_cases {path : Option LoopPathId} (asked : g.loopPath t id = .ok (g', path)) :
    ∃ n, g.node? id = some n ∧ g' = g.resolvePath t id ∧
      path = (n.resolvePath t.pathFrom?).kind.path? := by
  unfold loopPath at asked
  obtain ⟨n, found, asked⟩ := bind_eq_ok_iff.1 asked
  have found := node_eq_ok_iff.1 found
  refine ⟨n, found, ?_⟩
  cases kind : n.kind with
  | branch memo =>
    rw [kind] at asked
    cases memo with
    | unresolved =>
      obtain ⟨path', taken, asked⟩ := bind_eq_ok_iff.1 asked
      obtain ⟨-, rfl⟩ := Trace.loopPathOf_eq_ok_iff.1 taken
      cases asked
      have resolved : n.resolvePath t.pathFrom? =
          { n with kind := .branch (.resolved (t.pathFrom? n.event)) } := by
        simp only [Node.resolvePath, kind]
      refine ⟨modify_congr found resolved.symm, ?_⟩
      rw [resolved]
      rfl
    | resolved path' =>
      cases asked
      have same : n.resolvePath t.pathFrom? = n := by simp only [Node.resolvePath, kind]
      exact ⟨(modify_eq_self found same).symm, by rw [same, kind]; rfl⟩
  | event | invocation _ | exception | startMethod | loop _ | thread _ _ _ =>
    rw [kind] at asked
    cases asked
    have same : n.resolvePath t.pathFrom? = n := by simp only [Node.resolvePath, kind]
    exact ⟨(modify_eq_self found same).symm, by rw [same, kind]; rfl⟩

/-- The path of a node can be asked for: the node is there, and if it is a branch, its event was
recorded. -/
def Traceable (g : Graph) (t : Trace) (x : NodeId) : Prop :=
  ∃ s, g.shape? x = some s ∧ (s.kind.isBranch = true → ∃ r, t.record? s.anchor = some r)

/-- Every member of a block of a readable graph can be asked for its path. -/
theorem Readable.traceable (readable : g.Readable t) (found : g.node? id = some n)
    (listed : x ∈ n.members.values) : g.Traceable t x := by
  obtain ⟨m, found'⟩ := readable.exists_node? found listed
  exact ⟨m.shape, shape?_of_node? found', fun _ => readable.recorded (shape?_of_node? found')⟩

/-- Asking for the path of a node succeeds if the path can be asked for. -/
theorem Traceable.loopPath (traceable : g.Traceable t id) :
    ∃ path, g.loopPath t id = .ok (g.resolvePath t id, path) := by
  obtain ⟨s, shape, recorded⟩ := traceable
  obtain ⟨n, found, rfl⟩ := exists_node?_of_shape? shape
  suffices succeeds : ∃ result, g.loopPath t id = .ok result by
    obtain ⟨⟨g', path⟩, asked⟩ := succeeds
    obtain ⟨-, -, rfl, -⟩ := loopPath_cases asked
    exact ⟨path, asked⟩
  unfold Graph.loopPath
  rw [node_eq_ok_iff.2 found]
  cases kind : n.kind with
  | branch memo =>
    cases memo with
    | unresolved =>
      obtain ⟨r, recorded⟩ := recorded (n.kind.isBranch_bare.trans (by rw [kind]; rfl))
      have taken : t.loopPathOf n.event = .ok _ := Trace.loopPathOf_eq recorded
      simp only [bind, Except.bind, kind, taken]
      exact ⟨_, rfl⟩
    | resolved path => exact ⟨_, by simp only [bind, Except.bind, kind]; rfl⟩
  | event | invocation _ | exception | startMethod | loop _ | thread _ _ _ =>
    exact ⟨_, by simp only [bind, Except.bind, kind]; rfl⟩

/-! ### Runs -/

/-- The nodes of a list whose path is known to be a declared one, each with that path. -/
def pathsOf (g : Graph) (ids : List NodeId) : List (LoopPathId × NodeId) :=
  ids.filterMap fun id => ((g.node? id).bind (·.kind.path?)).map (·, id)

/-- Asking nodes for their paths one after the other resolves all of them. -/
theorem withPaths_eq {ids : List NodeId} {iterations : List (LoopPathId × NodeId)}
    (asked : withPaths t ids g = .ok (g', iterations)) :
    g' = ids.foldl (·.resolvePath t ·) g ∧ iterations = g'.pathsOf ids := by
  induction ids generalizing g g' iterations with
  | nil =>
    cases asked
    exact ⟨rfl, rfl⟩
  | cons id rest ih =>
    rw [withPaths] at asked
    obtain ⟨⟨g₁, path⟩, first, asked⟩ := bind_eq_ok_iff.1 asked
    obtain ⟨⟨g₂, others⟩, rest', asked⟩ := bind_eq_ok_iff.1 asked
    obtain ⟨n, found, rfl, rfl⟩ := loopPath_cases first
    obtain ⟨rfl, rfl⟩ := ih rest'
    cases asked
    refine ⟨rfl, ?_⟩
    -- the node still has the path that it was found to have
    have known := node?_foldl_resolvePath t (id :: rest) g id
    rw [if_pos List.mem_cons_self, found, Option.map_some, List.foldl_cons] at known
    rw [pathsOf, pathsOf, List.filterMap_cons, known, Option.bind_some]
    cases (n.resolvePath t.pathFrom?).kind.path? <;> rfl

/-- Nodes can be asked for their paths one after the other. -/
theorem withPaths_succeeds {ids : List NodeId} (traceable : ∀ x ∈ ids, g.Traceable t x) :
    ∃ result, withPaths t ids g = .ok result := by
  induction ids generalizing g with
  | nil => exact ⟨_, rfl⟩
  | cons id rest ih =>
    obtain ⟨first, traceable⟩ := List.forall_mem_cons.1 traceable
    obtain ⟨path, asked⟩ := first.loopPath
    obtain ⟨⟨g', others⟩, asked'⟩ := ih (g := g.resolvePath t id) fun x listed => by
      rw [Traceable, (g.alike_resolvePath t id).shape?]
      exact traceable x listed
    rw [withPaths, asked]
    simp only [bind, Except.bind, asked']
    exact ⟨_, rfl⟩

/-- The graph with the paths of some nodes resolved, and with a loop block of the runs that they
make up. -/
def regroup (g : Graph) (t : Trace) (id : NodeId) (ids : List NodeId) : Graph :=
  let resolved := ids.foldl (·.resolvePath t ·) g
  resolved.modify id fun n => { n with kind := .loop (groupRuns (resolved.pathsOf ids)) }

/-- Regrouping is about the members of the block. -/
theorem recomputeRuns_eq (found : g.node? id = some n) (grouped : g.recomputeRuns t id = .ok g') :
    g' = g.regroup t id n.members.values := by
  unfold recomputeRuns at grouped
  obtain ⟨n', found', grouped⟩ := bind_eq_ok_iff.1 grouped
  cases found.symm.trans (node_eq_ok_iff.1 found')
  obtain ⟨⟨g₁, iterations⟩, asked, grouped⟩ := bind_eq_ok_iff.1 grouped
  obtain ⟨rfl, rfl⟩ := withPaths_eq asked
  cases grouped
  rfl

/-- Regrouping the members of a loop block changes no shape. -/
theorem alike_of_recomputeRuns (found : g.node? id = some n) (loop : n.kind.isLoop = true)
    (grouped : g.recomputeRuns t id = .ok g') : g.Alike g' := by
  obtain rfl := recomputeRuns_eq found grouped
  have resolved := foldl_resolvePath_alike t n.members.values g
  refine resolved.trans (alike_modify fun m found' => m.sameAs_runs ?_ _)
  obtain ⟨m', found'', shape⟩ := resolved.node? found
  cases found'.symm.trans found''
  have place : m.place = n.place := by rw [← m.place_shape, shape, n.place_shape]
  exact Node.isLoop_of_place (place.trans (Node.place_of_isLoop loop))

/-- The members of a loop block can be regrouped if they can be asked for their paths. -/
theorem recomputeRuns_alike (found : g.node? id = some n) (loop : n.kind.isLoop = true)
    (traceable : ∀ x ∈ n.members.values, g.Traceable t x) :
    ∃ g', g.recomputeRuns t id = .ok g' ∧ g.Alike g' := by
  obtain ⟨⟨g₁, iterations⟩, asked⟩ := withPaths_succeeds traceable
  have grouped : g.recomputeRuns t id =
      .ok (g₁.modify id fun n => { n with kind := .loop (groupRuns iterations) }) := by
    simp only [recomputeRuns, node_eq_ok_iff.2 found, bind, Except.bind, asked]
    rfl
  exact ⟨_, grouped, alike_of_recomputeRuns found loop grouped⟩

/-! ### Membership -/

/-- The graph `g'` is `g` with the node `id` put into another block. -/
structure Linked (g : Graph) (id block : NodeId) (g' : Graph) : Prop extends Keeps g g' where
  self : ∀ {s}, g.shape? id = some s → g'.shape? id = some { s with owner := some block }
  into : ∀ {s m}, g.shape? id = some s → g.shape? block = some m →
    g'.shape? block = some { m with members := m.members.insert s.anchor id }
  other : ∀ {x}, x ≠ id → x ≠ block → g'.shape? x = g.shape? x

theorem Linked.trans_alike (linked : g.Linked id block g') (alike : g'.Alike g'') :
    g.Linked id block g'' :=
  ⟨linked.toKeeps.trans alike.toKeeps, fun found => (alike.shape? _).trans (linked.self found),
    fun found found' => (alike.shape? _).trans (linked.into found found'),
    fun different different' => (alike.shape? _).trans (linked.other different different')⟩

theorem linked_link (found : g.node? id = some n) (different : block ≠ id) :
    g.Linked id block (g.link id block n.event) := by
  have owned : g.Keeps (g.modify id fun n => { n with owner := some block }) :=
    keeps_modify fun _ => rfl
  have listed : (g.modify id fun n => { n with owner := some block }).Keeps
      ((g.modify id fun n => { n with owner := some block }).modify block
        fun m => { m with members := m.members.insert n.event id }) :=
    keeps_modify fun _ => rfl
  have keeps := owned.trans listed
  refine ⟨⟨⟨keeps.size, rfl, rfl, rfl, rfl⟩, rfl, keeps.progress?⟩, fun {s} shape => ?_,
    fun {s m} shape shape' => ?_, fun {x} notSelf notBlock => ?_⟩
  · rw [shape?_of_node? found, Option.some.injEq] at shape
    subst shape
    exact shape?_of_node?
      ((node?_modify_of_ne _ different.symm).trans (node?_modify_self _ found))
  · rw [shape?_of_node? found, Option.some.injEq] at shape
    subst shape
    obtain ⟨m, found', rfl⟩ := exists_node?_of_shape? shape'
    exact shape?_of_node? (node?_modify_self _ ((node?_modify_of_ne _ different).trans found'))
  · exact congrArg (Option.map Node.shape)
      ((node?_modify_of_ne _ notBlock).trans (node?_modify_of_ne _ notSelf))

/-- What attaching a node does, one step after the other. -/
theorem attach_cases (attached : g.attach t id block = .ok g') :
    ∃ n m g₂, g.node? id = some n ∧ g.node? block = some m ∧
      (if n.isBlock then (g.link id block n.event).setDepth t id (m.depth + 1)
        else .ok (g.link id block n.event)) = .ok g₂ ∧
      (if m.kind.isLoop && n.kind.isBranch then g₂.recomputeRuns t block else .ok g₂) = .ok g' := by
  unfold attach at attached
  obtain ⟨n, found, attached⟩ := bind_eq_ok_iff.1 attached
  obtain ⟨m, found', attached⟩ := bind_eq_ok_iff.1 attached
  split at attached
  · cases attached
  · refine ⟨n, m, ?_⟩
    by_cases isBlock : n.isBlock = true
    · simp only [isBlock, if_true] at attached ⊢
      obtain ⟨g₂, deepened, grouped⟩ := bind_eq_ok_iff.1 attached
      exact ⟨g₂, node_eq_ok_iff.1 found, node_eq_ok_iff.1 found', deepened, grouped⟩
    · simp only [isBlock, if_false, Bool.false_eq_true] at attached ⊢
      exact ⟨_, node_eq_ok_iff.1 found, node_eq_ok_iff.1 found', rfl, attached⟩

/-- A node that was put into a block of a readable graph can be read there. -/
theorem Linked.readable {m : Shape} (linked : g.Linked id block g') (readable : g.Readable t)
    (shape : g.shape? id = some s) (shape' : g.shape? block = some m) (different : block ≠ id) :
    g'.Readable t := by
  -- every node keeps its anchor, and lists what it listed or the node that was put into it
  have before : ∀ {x u}, g'.shape? x = some u → ∃ u₀, g.shape? x = some u₀ ∧
      u.anchor = u₀.anchor ∧ ∀ (e : EventId) y, u.members[e]? = some y →
        y = id ∨ u₀.members[e]? = some y := by
    intro x u found
    by_cases self : x = id
    · subst self
      cases (linked.self shape).symm.trans found
      exact ⟨s, shape, rfl, fun _ _ entry => .inr entry⟩
    · by_cases isBlock : x = block
      · subst isBlock
        cases (linked.into shape shape').symm.trans found
        refine ⟨m, shape', rfl, fun e y entry => ?_⟩
        rw [Ident.getElem?_insert] at entry
        split at entry
        · exact .inl (Option.some.inj entry).symm
        · exact .inr entry
      · rw [linked.other self isBlock] at found
        exact ⟨u, found, rfl, fun _ _ entry => .inr entry⟩
  have after : ∀ {x u}, g.shape? x = some u → ∃ u', g'.shape? x = some u' := by
    intro x u found
    by_cases self : x = id
    · exact ⟨_, self ▸ linked.self shape⟩
    · by_cases isBlock : x = block
      · exact ⟨_, isBlock ▸ linked.into shape shape'⟩
      · exact ⟨u, (linked.other self isBlock).trans found⟩
  refine ⟨fun {x u} found => ?_, fun {b u e y} found entry => ?_, fun {thread b} known => ?_⟩
  · obtain ⟨u₀, found₀, anchor, -⟩ := before found
    rw [anchor]
    exact readable.recorded found₀
  · obtain ⟨u₀, found₀, -, lists⟩ := before found
    rcases lists e y entry with rfl | entry
    · exact after shape
    · obtain ⟨v, foundY⟩ := readable.members found₀ entry
      exact after foundY
  · rw [linked.threadBlocks] at known
    obtain ⟨u, foundB⟩ := readable.threads known
    exact after foundB

/-- In a readable graph, a node can be attached to another block that does not start after it. -/
theorem attach_linked {m : Shape} (readable : g.Readable t) (shape : g.shape? id = some s)
    (shape' : g.shape? block = some m) (different : block ≠ id) (order : m.anchor ≤ s.anchor) :
    ∃ g', g.attach t id block = .ok g' ∧ g.Linked id block g' := by
  obtain ⟨n, found, rfl⟩ := exists_node?_of_shape? shape
  obtain ⟨m, found', rfl⟩ := exists_node?_of_shape? shape'
  have linked := linked_link found different
  have readable₁ := linked.readable readable shape shape' different
  have later : ¬ n.event < m.event := Nat.not_lt.2 order
  obtain ⟨n₁, known, -⟩ := exists_node?_of_shape? (linked.self (shape?_of_node? found))
  -- the depth of a block
  obtain ⟨g₂, deepened, alike⟩ : ∃ g₂,
      (if n.isBlock then (g.link id block n.event).setDepth t id (m.depth + 1)
        else .ok (g.link id block n.event)) = .ok g₂ ∧ (g.link id block n.event).Alike g₂ := by
    split
    · exact setDepth_alike readable₁ known (m.depth + 1)
    · exact ⟨_, rfl, .refl _⟩
  have linked₂ := linked.trans_alike alike
  -- the runs of a loop
  obtain ⟨g₃, grouped, alike'⟩ : ∃ g₃,
      (if m.kind.isLoop && n.kind.isBranch then g₂.recomputeRuns t block else .ok g₂) = .ok g₃ ∧
        g₂.Alike g₃ := by
    split
    · next loop =>
      obtain ⟨m₂, known', same'⟩ := exists_node?_of_shape?
        (linked₂.into (shape?_of_node? found) (shape?_of_node? found'))
      have place : m₂.place = m.place := by
        rw [← m₂.place_shape, same']
        exact m.place_shape
      rw [Node.place_of_isLoop (Bool.and_eq_true_iff.1 loop).1] at place
      exact recomputeRuns_alike known' (Node.isLoop_of_place place) fun _ listed =>
        (readable₁.alike alike).traceable known' listed
    · exact ⟨_, rfl, .refl _⟩
  refine ⟨g₃, ?_, linked₂.trans_alike alike'⟩
  unfold attach
  rw [node_eq_ok_iff.2 found, node_eq_ok_iff.2 found']
  simp only [bind, Except.bind, later, if_false]
  by_cases nested : n.isBlock = true
  · simp only [nested, if_true] at deepened ⊢
    rw [deepened]
    exact grouped
  · simp only [nested, if_false, Bool.false_eq_true] at deepened ⊢
    cases deepened
    exact grouped

/-- The graph `g'` is `g` with the entry of an event taken out of a block. -/
structure Unlisted (g : Graph) (block : NodeId) (event : EventId) (g' : Graph) : Prop
    extends Keeps g g' where
  self : ∀ {s}, g.shape? block = some s →
    g'.shape? block = some { s with members := s.members.erase event }
  other : ∀ {x}, x ≠ block → g'.shape? x = g.shape? x

/-- A node leaves the block that it belongs to, if any. -/
theorem detach_cases (detached : g.detach id = .ok g') :
    ∃ n, g.node? id = some n ∧ (n.owner = none ∧ g' = g ∨ ∃ b, n.owner = some b ∧
      g' = { g.modify b fun m => { m with members := m.members.erase n.event } with
        changed := g.changed.insert b }) := by
  unfold detach at detached
  obtain ⟨n, found, detached⟩ := bind_eq_ok_iff.1 detached
  refine ⟨n, node_eq_ok_iff.1 found, ?_⟩
  cases owner : n.owner with
  | none =>
    simp only [owner] at detached
    cases detached
    exact .inl ⟨rfl, rfl⟩
  | some b =>
    simp only [owner] at detached
    obtain ⟨_, -, detached⟩ := bind_eq_ok_iff.1 detached
    cases detached
    exact .inr ⟨b, rfl, rfl⟩

/-- A graph stays readable when a node is taken out of a block. -/
theorem Unlisted.readable {e : EventId} (unlisted : g.Unlisted block e g')
    (readable : g.Readable t) (shape : g.shape? block = some s) : g'.Readable t := by
  have after : ∀ {x u}, g.shape? x = some u → ∃ u', g'.shape? x = some u' := by
    intro x u found
    by_cases isBlock : x = block
    · exact ⟨_, isBlock ▸ unlisted.self shape⟩
    · exact ⟨u, (unlisted.other isBlock).trans found⟩
  refine ⟨fun {x u} found => ?_, fun {b u e' y} found entry => ?_, fun {thread b} known => ?_⟩
  · by_cases isBlock : x = block
    · subst isBlock
      cases (unlisted.self shape).symm.trans found
      exact readable.recorded (s := s) shape
    · exact readable.recorded ((unlisted.other isBlock).symm.trans found)
  · by_cases isBlock : b = block
    · subst isBlock
      cases (unlisted.self shape).symm.trans found
      rw [Std.TreeMap.getElem?_erase] at entry
      split at entry
      · cases entry
      · obtain ⟨v, foundY⟩ := readable.members shape entry
        exact after foundY
    · obtain ⟨v, foundY⟩ := readable.members ((unlisted.other isBlock).symm.trans found) entry
      exact after foundY
  · rw [unlisted.threadBlocks] at known
    obtain ⟨u, foundB⟩ := readable.threads known
    exact after foundB

/-- A node can be taken out of its block. -/
theorem detach_unlisted {m : Shape} (shape : g.shape? id = some s) (owned : s.owner = some block)
    (shape' : g.shape? block = some m) :
    ∃ g', g.detach id = .ok g' ∧ g.Unlisted block s.anchor g' := by
  obtain ⟨n, found, rfl⟩ := exists_node?_of_shape? shape
  obtain ⟨m, found', rfl⟩ := exists_node?_of_shape? shape'
  have owned : n.owner = some block := owned
  unfold detach
  rw [node_eq_ok_iff.2 found]
  simp only [bind, Except.bind, owned, node_eq_ok_iff.2 found']
  have keeps : g.Keeps (g.modify block fun m => { m with members := m.members.erase n.event }) :=
    keeps_modify fun _ => rfl
  refine ⟨_, rfl, ⟨⟨keeps.size, rfl, rfl, rfl, rfl⟩, rfl, keeps.progress?⟩, fun {s} shape => ?_,
    fun {x} different => congrArg (Option.map Node.shape) (node?_modify_of_ne _ different)⟩
  obtain ⟨m, found', rfl⟩ := exists_node?_of_shape? shape
  exact shape?_of_node? (node?_modify_self _ found')

end Graph

end Inquest
