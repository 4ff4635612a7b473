import Inquest.Explanation.Graph

/-!
# Blocks: owners, members and depth

Every node but a thread block belongs to a block.  Attaching a node sets both ends of that
relation, gives a nested block its depth, and brings the runs of a loop up to date.  A node
can move to another block, and the depths of the blocks under it follow.

## Main Definitions

* `groupRuns` - iterations grouped into runs of one path
* `Graph.recomputeRuns` - the runs of a loop block from its current members
* `Graph.attach` - puts a node into a block
* `Graph.rehome` - moves a node from its block into another one
-/

namespace Inquest

/-- Groups iterations, each with its path, into maximal runs of one path. -/
def groupRuns : List (LoopPathId × NodeId) → List LoopRun
  | [] => []
  | (path, id) :: rest =>
    match groupRuns rest with
    | [] => [{ path, members := [id] }]
    | run :: runs =>
      if run.path = path then { path, members := id :: run.members } :: runs
      else { path, members := [id] } :: run :: runs

namespace Graph

/-! ### Depth -/

/-- Tells the thread block of a block's thread how deep the block lies. -/
def noteDepth (g : Graph) (t : Trace) (block : NodeId) (depth : Nat) : Except Fault Graph := do
  let thread ← t.thread (← g.node block).event
  match g.threadBlocks[thread]? with
  | none => return g
  | some root => do
    let _ ← g.node root
    return g.modify root (·.noteDepth block depth)

/-- Gives a block its depth. -/
def setDepth (g : Graph) (t : Trace) (block : NodeId) (depth : Nat) : Except Fault Graph :=
  (g.modify block fun n => { n with depth }).noteDepth t block depth

/-- Brings the depths under the blocks of a stack up to date, looking into no more than the
given number of blocks. -/
def refreshDepths (t : Trace) : Nat → List NodeId → Graph → Except Fault Graph
  | _, [], g => .ok g
  | 0, _ :: _, _ => .error .exhausted
  | n + 1, current :: rest, g => do
    let block ← g.node current
    let nested ← block.members.values.filterM fun id => Node.isBlock <$> g.node id
    let g ← nested.foldlM (fun g id => g.setDepth t id (block.depth + 1)) g
    refreshDepths t n (nested.reverse ++ rest) g

/-! ### Runs -/

/-- The nodes of a list that have a loop path, each with its path; the paths are resolved on the
way. -/
def withPaths (t : Trace) :
    List NodeId → Graph → Except Fault (Graph × List (LoopPathId × NodeId))
  | [], g => .ok (g, [])
  | id :: rest, g => do
    let (g, path) ← g.loopPath t id
    let (g, others) ← withPaths t rest g
    return (g, (path.map (·, id)).toList ++ others)

/-- Regroups the members of a loop block into runs; members without a path neither extend nor
break a run. -/
def recomputeRuns (g : Graph) (t : Trace) (block : NodeId) : Except Fault Graph := do
  let n ← g.node block
  let (g, iterations) ← withPaths t n.members.values g
  return g.modify block fun n => { n with kind := .loop (groupRuns iterations) }

/-! ### Membership -/

/-- Sets both ends of the relation between a node and its block, and notes the change. -/
def link (g : Graph) (id block : NodeId) (event : EventId) : Graph :=
  let g := g.modify id fun n => { n with owner := some block }
  let g := g.modify block fun n => { n with members := n.members.insert event id }
  { g with changed := g.changed.insert block }

/-- Puts a node into a block, which must not start after it. -/
def attach (g : Graph) (t : Trace) (id block : NodeId) : Except Fault Graph := do
  let member ← g.node id
  let owner ← g.node block
  if member.event < owner.event then .error (.laterAnchor member.event owner.event)
  else
    let g := g.link id block member.event
    let g ← if member.isBlock then g.setDepth t id (owner.depth + 1) else .ok g
    if owner.kind.isLoop && member.kind.isBranch then g.recomputeRuns t block else .ok g

/-- Takes a node out of its block. -/
def detach (g : Graph) (id : NodeId) : Except Fault Graph := do
  let member ← g.node id
  match member.owner with
  | none => return g
  | some block =>
    let _ ← g.node block
    let g := g.modify block fun n => { n with members := n.members.erase member.event }
    return { g with changed := g.changed.insert block }

/-- Moves a node into another block, and the depths under it along. -/
def rehome (g : Graph) (t : Trace) (id block : NodeId) : Except Fault Graph := do
  let g ← g.detach id
  let g ← g.attach t id block
  refreshDepths t g.size [id] g

end Graph

end Inquest
