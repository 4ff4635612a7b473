import Inquest.Proofs.Trace.Routes

/-!
# The shape of a graph

Much of what a graph keeps is derived: depths, the runs of loops, and the paths of branches.  The
*shape* of a node leaves these out and says only what the node stands for and where it belongs,
and its *progress* says how far its explanation has come.

Whoever follows a reference reads the node that it leads to, and whoever asks where that happened
reads the recording.  In a graph that is *readable* neither is a fault, and whether a graph is
readable can be told from its shapes.

## Main Definitions

* `Place` - what a node stands for
* `Shape`, `Graph.shape?` - where a node belongs
* `Graph.progress?` - how far its explanation has come
* `Node.resolvePath` - a node whose path is known, if it is a branch
* `Graph.Alike` - two graphs with the same shapes
* `Graph.Readable` - every reference leads to a node, and every node to a record

## Main Statements

* `Graph.alike_modify` - a change of the derived parts of a node changes no shape
-/

namespace Inquest

/-- Looking up an identifier after an entry was made. -/
theorem Ident.getElem?_insert {kind : IdentKind} {β : Type} (table : Std.TreeMap (Ident kind) β)
    (a b : Ident kind) (v : β) :
    (table.insert a v)[b]? = if b = a then some v else table[b]? := by
  rw [Std.TreeMap.getElem?_insert]
  by_cases same : b = a
  · rw [if_pos (compare_eq_iff.2 same.symm), if_pos same]
  · rw [if_neg fun equal => same (compare_eq_iff.1 equal).symm, if_neg same]

/-- What a node stands for. -/
inductive Place where
  /-- An event. -/
  | event (event : EventId)
  /-- A loop, known by the event that starts it. -/
  | loop (first : EventId)
  /-- A thread. -/
  | thread (thread : ThreadId)
deriving DecidableEq

namespace NodeKind

/-- What a node of some kind stands for that is anchored at some event. -/
def place (kind : NodeKind) (anchor : EventId) : Place :=
  match kind with
  | .loop _ => .loop anchor
  | .thread id _ _ => .thread id
  | _ => .event anchor

/-- The kind of a node without what is derived. -/
def bare : NodeKind → NodeKind
  | .branch _ => .branch .unresolved
  | .loop _ => .loop []
  | .thread id _ _ => .thread id 0 none
  | kind => kind

theorem isBranch_bare (kind : NodeKind) : kind.bare.isBranch = kind.isBranch := by
  cases kind <;> rfl

theorem place_bare (kind : NodeKind) (anchor : EventId) :
    kind.bare.place anchor = kind.place anchor := by
  cases kind <;> rfl

theorem isBlock_bare (kind : NodeKind) : kind.bare.isBlock = kind.isBlock := by
  cases kind <;> rfl

theorem place_ofEvent (kind : EventKind) (calleeRecorded : Bool) (e : EventId) :
    (ofEvent kind calleeRecorded).place e = .event e := by
  cases kind <;> rfl

theorem bare_ofEvent (kind : EventKind) (calleeRecorded : Bool) :
    (ofEvent kind calleeRecorded).bare = ofEvent kind calleeRecorded := by
  cases kind <;> rfl

end NodeKind

/-- Where a node belongs. -/
structure Shape where
  /-- The kind of the node without what is derived. -/
  kind : NodeKind
  /-- The event it stands for or is anchored at. -/
  anchor : EventId
  owner : Option NodeId := none
  members : Std.TreeMap EventId NodeId := ∅

/-- What a node of some shape stands for. -/
def Shape.place (s : Shape) : Place := s.kind.place s.anchor

/-- Whether a node of some shape can own others. -/
def Shape.isBlock (s : Shape) : Bool := s.kind.isBlock

namespace Node

/-- What a node stands for. -/
def place (n : Node) : Place := n.kind.place n.event

/-- Where a node belongs. -/
def shape (n : Node) : Shape where
  kind := n.kind.bare
  anchor := n.event
  owner := n.owner
  members := n.members

theorem place_shape (n : Node) : n.shape.place = n.place := n.kind.place_bare n.event

theorem isBlock_shape (n : Node) : n.shape.isBlock = n.isBlock := n.kind.isBlock_bare

/-- How far the explanation of a node has come. -/
def progress (n : Node) : Status × Option (List Cause) := (n.status, n.causes)

/-- The derived parts of a node are neither part of its shape nor of its progress. -/
def SameAs (n n' : Node) : Prop := n'.shape = n.shape ∧ n'.progress = n.progress

theorem sameAs_depth (n : Node) (depth : Nat) : n.SameAs { n with depth } := ⟨rfl, rfl⟩

/-- The node with the path of a branch resolved; other nodes stay as they are. -/
def resolvePath (n : Node) (pathOf : EventId → Option LoopPathId) : Node :=
  match n.kind with
  | .branch .unresolved => { n with kind := .branch (.resolved (pathOf n.event)) }
  | _ => n

theorem resolvePath_resolvePath (n : Node) (pathOf : EventId → Option LoopPathId) :
    (n.resolvePath pathOf).resolvePath pathOf = n.resolvePath pathOf := by
  cases kind : n.kind with
  | branch memo => cases memo <;> simp [resolvePath, kind]
  | event | invocation _ | exception | startMethod | loop _ | thread _ _ _ =>
    simp [resolvePath, kind]

theorem sameAs_resolvePath (n : Node) (pathOf : EventId → Option LoopPathId) :
    n.SameAs (n.resolvePath pathOf) := by
  unfold resolvePath
  split
  · next branch =>
    refine ⟨?_, rfl⟩
    simp [shape, branch, NodeKind.bare]
  · exact ⟨rfl, rfl⟩

theorem sameAs_noteDepth (n : Node) (block : NodeId) (depth : Nat) :
    n.SameAs (n.noteDepth block depth) := by
  unfold noteDepth
  split
  · next thread =>
    split
    · refine ⟨?_, rfl⟩
      simp [shape, thread, NodeKind.bare]
    · exact ⟨rfl, rfl⟩
  · exact ⟨rfl, rfl⟩

theorem sameAs_runs (n : Node) (loop : n.kind.isLoop = true) (runs : List LoopRun) :
    n.SameAs { n with kind := .loop runs } := by
  refine ⟨?_, rfl⟩
  cases kind : n.kind <;> simp_all [shape, NodeKind.bare, NodeKind.isLoop]

theorem shape_ofEvent (e : EventId) (kind : EventKind) (calleeRecorded : Bool) :
    shape { event := e, kind := .ofEvent kind calleeRecorded } =
      { kind := .ofEvent kind calleeRecorded, anchor := e } := by
  rw [shape, NodeKind.bare_ofEvent]

theorem isLoop_of_place {n : Node} {first : EventId} (loop : n.place = .loop first) :
    n.kind.isLoop = true := by
  unfold place at loop
  cases kind : n.kind <;> simp_all [NodeKind.place, NodeKind.isLoop]

theorem place_of_isLoop {n : Node} (loop : n.kind.isLoop = true) : n.place = .loop n.event := by
  unfold place
  cases kind : n.kind <;> simp_all [NodeKind.place, NodeKind.isLoop]

end Node

namespace Graph

variable {g g' g'' : Graph} {t : Trace} {id block x : NodeId} {n m : Node} {s : Shape}

/-! ### Nodes, shapes and progress by identifier -/

/-- The node of an identifier, if there is one. -/
def node? (g : Graph) (id : NodeId) : Option Node := g.nodes[id.index]?

/-- Where the node of an identifier belongs. -/
def shape? (g : Graph) (id : NodeId) : Option Shape := (g.node? id).map Node.shape

/-- How far the explanation of the node of an identifier has come. -/
def progress? (g : Graph) (id : NodeId) : Option (Status × Option (List Cause)) :=
  (g.node? id).map Node.progress

theorem node_eq_ok_iff : g.node id = .ok n ↔ g.node? id = some n := by
  unfold node node?
  cases g.nodes[id.index]? with
  | none => simp
  | some m => simp

theorem shape?_of_node? (found : g.node? id = some n) : g.shape? id = some n.shape := by
  rw [shape?, found, Option.map_some]

theorem progress?_of_node? (found : g.node? id = some n) : g.progress? id = some n.progress := by
  rw [progress?, found, Option.map_some]

theorem exists_node?_of_shape? (found : g.shape? id = some s) :
    ∃ n, g.node? id = some n ∧ n.shape = s :=
  Option.map_eq_some_iff.1 found

theorem lt_size_of_shape? (found : g.shape? id = some s) : id.index < g.size := by
  obtain ⟨n, found, -⟩ := exists_node?_of_shape? found
  exact (Array.getElem?_eq_some_iff.1 found).1

/-- Whether an identifier names a block. -/
def isBlock (g : Graph) (x : NodeId) : Bool := (g.node? x).any Node.isBlock

theorem isBlock_of_node? (found : g.node? x = some n) : g.isBlock x = n.isBlock := by
  rw [isBlock, found, Option.any_some]

theorem isBlock_of_shape? (shape : g.shape? x = some s) : g.isBlock x = s.isBlock := by
  obtain ⟨n, found, rfl⟩ := exists_node?_of_shape? shape
  rw [isBlock_of_node? found, n.isBlock_shape]

theorem isBlock_iff : g.isBlock x = true ↔ ∃ s, g.shape? x = some s ∧ s.isBlock = true := by
  constructor
  · intro isBlock
    obtain ⟨n, found, isBlock⟩ := (Option.any_eq_true _ _).1 isBlock
    exact ⟨n.shape, shape?_of_node? found, n.isBlock_shape.trans isBlock⟩
  · rintro ⟨s, shape, isBlock⟩
    rw [isBlock_of_shape? shape, isBlock]

theorem node?_modify_self (f : Node → Node) (found : g.node? id = some n) :
    (g.modify id f).node? id = some (f n) := by
  unfold node? at found
  simp [node?, modify, Array.getElem?_modify, found]

theorem node?_modify_of_ne (f : Node → Node) (different : x ≠ id) :
    (g.modify id f).node? x = g.node? x := by
  have index : id.index ≠ x.index := fun same => different (Ident.ext same.symm)
  simp [node?, modify, Array.getElem?_modify, index]

theorem node?_modify_eq_none (f : Node → Node) (missing : g.node? id = none) (x : NodeId) :
    (g.modify id f).node? x = g.node? x := by
  by_cases same : x = id
  · subst same
    unfold node? at missing ⊢
    simp [modify, Array.getElem?_modify, missing]
  · exact node?_modify_of_ne f same

theorem node?_modify (g : Graph) (id : NodeId) (f : Node → Node) (x : NodeId) :
    (g.modify id f).node? x = if x = id then (g.node? x).map f else g.node? x := by
  split
  · next self =>
    subst self
    cases found : g.node? x with
    | none => exact (node?_modify_eq_none f found x).trans found
    | some n => exact node?_modify_self f found
  · next other => exact node?_modify_of_ne f other

/-- A change that leaves a view of one node alone leaves it alone for every node. -/
theorem map_node?_modify {β : Type} {view : Node → β} {f : Node → Node}
    (same : ∀ n, g.node? id = some n → view (f n) = view n) (x : NodeId) :
    ((g.modify id f).node? x).map view = (g.node? x).map view := by
  rw [node?_modify]
  split
  · next self =>
    subst self
    rw [Option.map_map]
    exact Option.map_congr fun n found => same n found
  · rfl

/-- A change depends on what becomes of the node only. -/
theorem modify_congr {f f' : Node → Node} (found : g.node? id = some n) (same : f n = f' n) :
    g.modify id f = g.modify id f' := by
  have nodes : (g.modify id f).nodes = (g.modify id f').nodes := Array.ext_getElem? fun i => by
    show (g.modify id f).node? ⟨i⟩ = (g.modify id f').node? ⟨i⟩
    rw [node?_modify, node?_modify]
    split
    · next self => rw [self, found, Option.map_some, Option.map_some, same]
    · rfl
  simp only [modify] at nodes ⊢
  congr 1

/-- A change that changes nothing. -/
theorem modify_eq_self {f : Node → Node} (found : g.node? id = some n) (same : f n = n) :
    g.modify id f = g := by
  have nodes : (g.modify id f).nodes = g.nodes := Array.ext_getElem? fun i => by
    show (g.modify id f).node? ⟨i⟩ = g.node? ⟨i⟩
    rw [node?_modify]
    split
    · next self => rw [self, found, Option.map_some, same]
    · rfl
  cases g
  simp only [modify] at nodes ⊢
  congr 1

/-! ### What an operation leaves alone -/

/-- There are as many nodes as before, and the tables are the same. -/
structure SameTables (g g' : Graph) : Prop where
  size : g'.size = g.size
  nodeOf : g'.nodeOf = g.nodeOf
  controlBlocks : g'.controlBlocks = g.controlBlocks
  loopBlocks : g'.loopBlocks = g.loopBlocks
  threadBlocks : g'.threadBlocks = g.threadBlocks

theorem SameTables.trans (first : g.SameTables g') (second : g'.SameTables g'') :
    g.SameTables g'' :=
  ⟨second.size.trans first.size, second.nodeOf.trans first.nodeOf,
    second.controlBlocks.trans first.controlBlocks, second.loopBlocks.trans first.loopBlocks,
    second.threadBlocks.trans first.threadBlocks⟩

theorem sameTables_modify (g : Graph) (id : NodeId) (f : Node → Node) :
    g.SameTables (g.modify id f) :=
  ⟨by simp [size, modify], rfl, rfl, rfl, rfl⟩

/-- Everything but the shapes is as it was. -/
structure Keeps (g g' : Graph) : Prop extends SameTables g g' where
  unexplainedControls : g'.unexplainedControls = g.unexplainedControls
  progress? : ∀ x, g'.progress? x = g.progress? x

theorem Keeps.refl (g : Graph) : g.Keeps g := ⟨⟨rfl, rfl, rfl, rfl, rfl⟩, rfl, fun _ => rfl⟩

theorem Keeps.trans (first : g.Keeps g') (second : g'.Keeps g'') : g.Keeps g'' :=
  ⟨first.toSameTables.trans second.toSameTables,
    second.unexplainedControls.trans first.unexplainedControls,
    fun x => (second.progress? x).trans (first.progress? x)⟩

theorem keeps_modify {f : Node → Node} (same : ∀ n, (f n).progress = n.progress) :
    g.Keeps (g.modify id f) := by
  refine ⟨sameTables_modify g id f, rfl, fun x => ?_⟩
  by_cases self : x = id
  · subst self
    cases found : g.node? x with
    | none => rw [progress?, progress?, node?_modify_eq_none f found]
    | some n =>
      rw [progress?_of_node? (node?_modify_self f found), progress?_of_node? found, same]
  · rw [progress?, progress?, node?_modify_of_ne f self]

/-- The shapes are as they were too. -/
structure Alike (g g' : Graph) : Prop extends Keeps g g' where
  shape? : ∀ x, g'.shape? x = g.shape? x

theorem Alike.refl (g : Graph) : g.Alike g := ⟨.refl g, fun _ => rfl⟩

theorem Alike.trans (first : g.Alike g') (second : g'.Alike g'') : g.Alike g'' :=
  ⟨first.toKeeps.trans second.toKeeps, fun x => (second.shape? x).trans (first.shape? x)⟩

theorem Alike.node? (alike : g.Alike g') (found : g.node? x = some n) :
    ∃ n', g'.node? x = some n' ∧ n'.shape = n.shape :=
  exists_node?_of_shape? ((alike.shape? x).trans (shape?_of_node? found))

/-- A change of the derived parts of a node. -/
theorem alike_modify {f : Node → Node} (same : ∀ n, g.node? id = some n → n.SameAs (f n)) :
    g.Alike (g.modify id f) := by
  cases found : g.node? id with
  | none =>
    refine ⟨⟨sameTables_modify g id f, rfl, fun x => ?_⟩, fun x => ?_⟩
    · rw [progress?, progress?, node?_modify_eq_none f found]
    · rw [Graph.shape?, Graph.shape?, node?_modify_eq_none f found]
  | some n =>
    obtain ⟨shape, progress⟩ := same n found
    refine ⟨⟨sameTables_modify g id f, rfl, fun x => ?_⟩, fun x => ?_⟩
    · by_cases self : x = id
      · subst self
        rw [progress?_of_node? (node?_modify_self f found), progress?_of_node? found, progress]
      · rw [progress?, progress?, node?_modify_of_ne f self]
    · by_cases self : x = id
      · subst self
        rw [shape?_of_node? (node?_modify_self f found), shape?_of_node? found, shape]
      · rw [Graph.shape?, Graph.shape?, node?_modify_of_ne f self]

/-! ### Readable graphs -/

/-- Every reference leads to a node, and every node stands where something was recorded. -/
structure Readable (t : Trace) (g : Graph) : Prop where
  recorded : ∀ {x s}, g.shape? x = some s → ∃ r, t.record? s.anchor = some r
  members : ∀ {b s} {e : EventId} {x}, g.shape? b = some s → s.members[e]? = some x →
    ∃ m, g.shape? x = some m
  threads : ∀ {thread : ThreadId} {b}, g.threadBlocks[thread]? = some b → ∃ m, g.shape? b = some m

theorem Readable.alike (readable : g.Readable t) (alike : g.Alike g') : g'.Readable t := by
  refine ⟨fun {x s} found => ?_, fun {b s e x} found entry => ?_, fun {thread b} known => ?_⟩
  · rw [alike.shape?] at found
    exact readable.recorded found
  · rw [alike.shape?] at found ⊢
    exact readable.members found entry
  · rw [alike.threadBlocks] at known
    rw [alike.shape?]
    exact readable.threads known

end Graph

end Inquest
