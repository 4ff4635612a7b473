import Inquest.IdentSet
import Inquest.Explanation.Node
import Inquest.Trace.Frame

/-!
# Explanation graphs

The graph grows by appending nodes.  Beside the nodes it keeps where the node of an event is,
which block stands for a control event, and the loop and thread blocks by their keys; and it
keeps the book of a pass: the blocks that were created and those whose members changed.

## Main Definitions

* `Listed` - the books of a pass list nodes that there are
* `Graph` - the nodes and the tables over them
* `Graph.node` - a node by its identifier, a fault outside the graph
* `Graph.loopPath`, `Graph.isRedundant` - questions about loops
* `Notice`, `Graph.flush` - what a pass has to announce

## Design Notes

A pass announces a block once, however often its members changed.  Announced changes stay
unread until they are taken by `Graph.takeChanged`.  Who closes the books has a node for every
block that was created, since `Graph.created_listed` says that there is one.
-/

namespace Inquest

/-- The blocks that the books of a pass list are among a number of nodes. -/
def Listed (created : Array NodeId) (size : Nat) : Prop := ∀ id ∈ created, id.index < size

namespace Listed

variable {created : Array NodeId} {size size' : Nat}

theorem empty (size : Nat) : Listed #[] size := fun id listed =>
  absurd listed (Array.not_mem_empty id)

theorem mono (listed : Listed created size) (le : size ≤ size') : Listed created size' :=
  fun id member => Nat.lt_of_lt_of_le (listed id member) le

theorem push (listed : Listed created size) {id : NodeId} (inside : id.index < size) :
    Listed (created.push id) size := by
  intro id' member
  rcases Array.mem_push.1 member with old | rfl
  · exact listed id' old
  · exact inside

theorem pushNode {nodes : Array Node} (listed : Listed created nodes.size) (n : Node) :
    Listed created (nodes.push n).size :=
  listed.mono (Nat.le_of_lt (Array.size_push n ▸ Nat.lt_succ_self _))

end Listed

/-- An explanation graph. -/
structure Graph where
  /-- The nodes in order of creation. -/
  nodes : Array Node := #[]
  /-- The node of each event that has one. -/
  nodeOf : Std.TreeMap EventId NodeId := ∅
  /-- The block that stands for a control event. -/
  controlBlocks : Std.TreeMap EventId NodeId := ∅
  /-- The loop blocks, by the event that starts the loop. -/
  loopBlocks : Std.TreeMap EventId NodeId := ∅
  /-- The thread blocks. -/
  threadBlocks : Std.TreeMap ThreadId NodeId := ∅
  /-- The control nodes that still have to be explained, the latest first. -/
  unexplainedControls : List NodeId := []
  /-- The loop and thread blocks created in this pass. -/
  created : Array NodeId := #[]
  /-- The blocks whose members changed in this pass. -/
  changed : IdentSet .node := ∅
  /-- The blocks whose announced changes have not been taken. -/
  unread : IdentSet .node := ∅
  created_listed : Listed created nodes.size := by exact .empty _

namespace Graph

/-- The number of nodes. -/
def size (g : Graph) : Nat := g.nodes.size

/-- The node of an identifier. -/
def node (g : Graph) (id : NodeId) : Except Fault Node :=
  match g.nodes[id.index]? with
  | some n => .ok n
  | none => .error (.outOfBounds g.size id.index)

/-- The identifier of the node of an event. -/
def cached (g : Graph) (event : EventId) : Except Fault NodeId :=
  match g.nodeOf[event]? with
  | some id => .ok id
  | none => .error (.unknownEvent event)

/-- The graph with one node changed. -/
def modify (g : Graph) (id : NodeId) (f : Node → Node) : Graph :=
  { g with
    nodes := g.nodes.modify id.index f
    created_listed := g.created_listed.mono (Nat.le_of_eq Array.size_modify.symm) }

/-- All identifiers. -/
def ids (g : Graph) : List NodeId := (List.range g.size).map Ident.mk

/-- The blocks in order of creation. -/
def blocks (g : Graph) : List NodeId :=
  (g.ids.zip g.nodes.toList).filterMap fun (id, n) => if n.isBlock then some id else none

/-! ### Loops -/

/-- The loop path of a node; that of a branch is resolved when it is asked for. -/
def loopPath (g : Graph) (t : Trace) (id : NodeId) :
    Except Fault (Graph × Option LoopPathId) := do
  let n ← g.node id
  match n.kind with
  | .branch (.resolved path) => return (g, path)
  | .branch .unresolved =>
    let path ← t.loopPathOf n.event
    return (g.modify id fun n => { n with kind := .branch (.resolved path) }, path)
  | _ => return (g, none)

/-- Whether a node repeats the path of the iteration before it. -/
def isRedundant (g : Graph) (id : NodeId) : Except Fault Bool := do
  match (← g.node id).owner with
  | none => return false
  | some owner =>
    return (← g.node owner).kind.runs.any fun run => run.members.head? ≠ some id && id ∈ run.members

/-! ### Announcements -/

/-- What listeners hear. -/
inductive Notice where
  /-- A loop or thread block was created. -/
  | created (block : NodeId) (anchor : EventId)
  /-- The members of these blocks changed. -/
  | changed (blocks : List NodeId)
deriving DecidableEq

/-- Closes a pass: the graph with empty books, and what the pass has to announce. -/
def flush (g : Graph) : Graph × List Notice :=
  let created := g.created.attach.toList.map fun block =>
    have inside := g.created_listed block.1 block.2
    Notice.created block.1 g.nodes[block.1.index].event
  let changed := if g.changed.isEmpty then [] else [Notice.changed g.changed.toList]
  ({ g with
      created := #[]
      changed := ∅
      unread := g.unread.union g.changed
      created_listed := .empty _ },
    created ++ changed)

/-- Takes the announced changes that nobody has taken. -/
def takeChanged (g : Graph) : Graph × List NodeId :=
  ({ g with unread := ∅ }, g.unread.toList)

end Graph

end Inquest
