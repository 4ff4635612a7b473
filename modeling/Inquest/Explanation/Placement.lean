import Inquest.Config
import Inquest.Explanation.Block

/-!
# Placing events in the graph

An event belongs to the block of what controls it.  If it is an iteration of a loop, which
means that the branch that controls it stands behind it in its method, it belongs to the block
of the loop; the loop is known by the first execution of that branch on the thread.  If nothing
controls it, or what controls it runs on another thread, it belongs to the block of its thread.

## Main Definitions

* `Trace.loopHead` - the event by which the loop of an event is known
* `Graph.threadBlock`, `Graph.loopBlock`, `Graph.controlBlock` - the blocks, made on demand
* `Graph.blockFor` - the block that an event belongs to
* `Graph.create` - makes the node of an event and puts it into its block
* `Graph.awaited` - the earlier event that needs a node first
* `Graph.settle` - makes the nodes that a stack of events asks for
* `Graph.place` - the node of an event, made on demand

## Design Notes

The block of an event may need the node of another event first.  `Graph.settle` puts what an event
needs on top of it, while the needs point backward, and creates an event that needs nothing any
more.  Every event of a chain of needs is taken off the stack twice, but for the earliest one, so
the number of rounds is known from the number of the event.  A control that is not earlier than its
event is met only in the middle of `Graph.create`, which takes the way to place such an event
as an argument.  Every nested placement finds one more event in the graph than the one around
it, so the nesting is less deep than the recording is long.
-/

namespace Inquest

/-- Whether control goes back from a branch to an instruction of its method. -/
def Instruction.loopsTo (branch target : Instruction) : Bool :=
  branch.method = target.method && (target.position < branch.position || branch.id = target.id)

/-- The event by which the loop is known that an event iterates, if it iterates one. -/
def Trace.loopHead (t : Trace) (c : Config) (event control : EventId) :
    Except Fault (Option EventId) :=
  if c.collapseLoops then do
    let deciding ← t.read control
    if deciding.kind.isBranch then
      let r ← t.read event
      if deciding.thread = r.thread then
        match t.program.instruction? deciding.instruction,
          t.program.instruction? r.instruction with
        | some branch, some target =>
          if branch.loopsTo target then
            .ok (some ((t.firstExecution branch.id r.thread control).getD control))
          else .ok none
        | _, _ => .ok none
      else .ok none
    else .ok none
  else .ok none

namespace Graph

/-! ### Blocks on demand -/

/-- Appends a loop or thread block. -/
def addBlock (g : Graph) (event : EventId) (kind : NodeKind) : Graph × NodeId :=
  let id : NodeId := ⟨g.size⟩
  ({ g with
      nodes := g.nodes.push (.structural event kind)
      created := g.created.push id
      created_listed := (g.created_listed.pushNode _).push
        (Array.size_push _ ▸ Nat.lt_succ_self _) }, id)

/-- The block of a thread, anchored at its first event but not after the event given. -/
def threadBlock (g : Graph) (t : Trace) (thread : ThreadId) (event : EventId) : Graph × NodeId :=
  match g.threadBlocks[thread]? with
  | some id => (g, id)
  | none =>
    let anchor := min ((t.firstInThread? thread).getD event) event
    let (g, id) := g.addBlock anchor (.thread thread 0 none)
    ({ g with threadBlocks := g.threadBlocks.insert thread id }, id)

/-- The thread that a block belongs to. -/
def threadOf (g : Graph) (t : Trace) (block : NodeId) : Except Fault ThreadId := do
  let n ← g.node block
  match n.kind with
  | .thread thread _ _ => return thread
  | _ => t.thread n.event

/-- A way to place an event in a graph. -/
abbrev Placing := Graph → EventId → Except Fault (Graph × NodeId)

/-- The block of a loop.  A new one takes the place of the node of its first event: it joins the
block of that node, and the node moves into it. -/
def loopBlock (g : Graph) (t : Trace) (nested : Placing) (first : EventId) :
    Except Fault (Graph × NodeId) :=
  match g.loopBlocks[first]? with
  | some id => .ok (g, id)
  | none => do
    let (g, anchor) ← nested g first
    let owner := (← g.node anchor).owner
    let (g, id) := g.addBlock first (.loop [])
    let g := { g with loopBlocks := g.loopBlocks.insert first id }
    match owner with
    | none => return (g, id)
    | some owner =>
      let g ← g.attach t id owner
      let g ← g.rehome t anchor id
      return (g, id)

/-- The block that stands for a control event: its own node if that is a block, else the block
that its node belongs to.  The node is left to be explained. -/
def controlBlock (g : Graph) (t : Trace) (nested : Placing) (control : EventId) :
    Except Fault (Graph × NodeId) :=
  match g.controlBlocks[control]? with
  | some id => .ok (g, id)
  | none => do
    let (g, id) ← nested g control
    let g := { g with unexplainedControls := id :: g.unexplainedControls }
    let n ← g.node id
    let (g, block) ←
      if n.isBlock then .ok (g, id)
      else
        match n.owner with
        | some owner => .ok (g, owner)
        | none => (fun thread => g.threadBlock t thread control) <$> t.thread control
    return ({ g with controlBlocks := g.controlBlocks.insert control block }, block)

/-- The block that an event belongs to. -/
def blockFor (g : Graph) (t : Trace) (c : Config) (nested : Placing) (event : EventId) :
    Except Fault (Graph × NodeId) := do
  let r ← t.read event
  match r.control with
  | none => return g.threadBlock t r.thread event
  | some control =>
    let (g, block) ←
      match ← t.loopHead c event control with
      | some first => g.loopBlock t nested first
      | none => g.controlBlock t nested control
    if (← g.threadOf t block) = r.thread then return (g, block)
    else return g.threadBlock t r.thread event

/-! ### Nodes on demand -/

/-- Whether the code that a call reached was recorded: the next event of the thread starts an
invocation. -/
def calleeRecorded (t : Trace) (event : EventId) : Except Fault Bool :=
  match t.nextInThread? event with
  | none => .ok false
  | some next => (· = .startMethod) <$> t.kind next

/-- What the node of an event stands for. -/
def kindFor (t : Trace) (event : EventId) : Except Fault NodeKind := do
  let kind ← t.kind event
  if kind.isInvocation then return .ofEvent kind (← calleeRecorded t event)
  else return .ofEvent kind false

/-- Makes the node of an event and puts it into its block. -/
def create (g : Graph) (t : Trace) (c : Config) (nested : Placing) (event : EventId) :
    Except Fault Graph := do
  let kind ← kindFor t event
  let id : NodeId := ⟨g.size⟩
  let g := { g with
    nodes := g.nodes.push { event, kind }
    nodeOf := g.nodeOf.insert event id
    created_listed := g.created_listed.pushNode _ }
  let (g, block) ← g.blockFor t c nested event
  g.attach t id block

/-- The earlier event that needs a node before an event can be put into its block. -/
def awaited (g : Graph) (t : Trace) (c : Config) (event : EventId) :
    Except Fault (Option EventId) := do
  match ← t.control event with
  | none => return none
  | some control =>
    let needed :=
      match ← t.loopHead c event control with
      | some first => if g.loopBlocks.contains first then none else some first
      | none => if g.controlBlocks.contains control then none else some control
    return needed.filter fun e => e < event && !g.nodeOf.contains e

/-- Makes the nodes that the events of a stack ask for, in no more than the given number of rounds.
An event that needs another one first stays under it, and is asked again when its turn comes. -/
def settle (t : Trace) (c : Config) (nested : Placing) :
    Nat → List EventId → Graph → Except Fault Graph
  | _, [], g => .ok g
  | 0, _ :: _, _ => .error .exhausted
  | n + 1, current :: rest, g =>
    if g.nodeOf.contains current then settle t c nested n rest g
    else do
      match ← g.awaited t c current with
      | some earlier => settle t c nested n (earlier :: current :: rest) g
      | none => settle t c nested n rest (← g.create t c nested current)

/-- The node of an event, made on demand, with no more than the given nesting of placements. -/
def placeWithin (t : Trace) (c : Config) : Nat → Placing
  | depth, g, event =>
    match depth, g.nodeOf[event]? with
    | _, some id => .ok (g, id)
    | 0, none => .error .exhausted
    | depth + 1, none => do
      let g ← settle t c (placeWithin t c depth) (2 * event.index + 1) [event] g
      return (g, ← g.cached event)

/-- The node of an event, made on demand. -/
def place (g : Graph) (t : Trace) (c : Config) (event : EventId) :
    Except Fault (Graph × NodeId) :=
  placeWithin t c (t.size + 1) g event

end Graph

end Inquest
