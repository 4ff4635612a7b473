import Inquest.Explanation.Placement

/-!
# Causes

The causes of an event are the events that produced its operands, the write that it read from
the heap and, for a call into unrecorded code, the events that produced its arguments.
Explaining a node means to find its causes and to explain them in turn, and with them the
controls of every event that was placed on the way.

## Main Definitions

* `Dependency`, `Record.dependencies` - the recorded dependencies of an event
* `Graph.gather` - the causes for a list of dependencies
* `Graph.explainPending` - explains a stack of nodes
* `Graph.explain`, `Graph.request` - explains an event; places one and explains what controls it

## Design Notes

`explainPending` works off a stack: the controls that were met last come first, then the causes
found last.  Each round explains one event, so there are no more rounds than events.
-/

namespace Inquest

/-- The way in which a recorded dependency is used. -/
inductive DependencyRole where
  | operand (position : Nat)
  | heap
  | opaqueArgument
deriving DecidableEq

/-- A recorded dependency of an event. -/
structure Dependency where
  event : EventId
  role : DependencyRole
deriving DecidableEq

/-- The events of a list that have not been seen, each at its first occurrence. -/
def unseen (seen : List EventId) : List EventId → List EventId
  | [] => []
  | e :: rest => if e ∈ seen then unseen seen rest else e :: unseen (e :: seen) rest

namespace Record

/-- The operands that an event depends on; an operand that is the event itself is none. -/
def operandDependencies (r : Record) (event : EventId) : List Dependency :=
  r.operands.zipIdx.filterMap fun (e, position) =>
    if e = event then none else some { event := e, role := .operand position }

/-- The heap write that an event depends on. -/
def heapDependencies (r : Record) (event : EventId) : List Dependency :=
  match r.heap with
  | some e => if e = event then [] else [{ event := e, role := .heap }]
  | none => []

/-- The dependencies of an event, in the order in which they become causes.  A producer of an
argument counts only if it is not there already. -/
def dependencies (r : Record) (c : Config) (event : EventId) : List Dependency :=
  let direct := r.operandDependencies event ++ r.heapDependencies event
  if c.opaqueArguments && r.kind.isInvocation then
    direct ++ (unseen (event :: direct.map Dependency.event) r.opaqueArguments).map fun e =>
      { event := e, role := .opaqueArgument }
  else direct

end Record

namespace Graph

/-- The cause for a dependency. -/
def causeFor (g : Graph) (t : Trace) (c : Config) (d : Dependency) :
    Except Fault (Graph × Cause) := do
  let source ←
    match d.role with
    | .operand position => CauseSource.operand position <$> t.instruction d.event
    | .heap => .ok .heap
    | .opaqueArgument => .ok .opaqueArgument
  let (g, node) ← g.place t c d.event
  return (g, { node, event := d.event, source })

/-- The causes for a list of dependencies. -/
def gather (g : Graph) (t : Trace) (c : Config) :
    List Dependency → Except Fault (Graph × List Cause)
  | [] => .ok (g, [])
  | d :: rest => do
    let (g, cause) ← g.causeFor t c d
    let (g, causes) ← gather g t c rest
    return (g, cause :: causes)

/-- Explains one node, and gives the causes that nobody has visited. -/
def explainNode (g : Graph) (t : Trace) (c : Config) (id : NodeId) :
    Except Fault (Graph × List NodeId) := do
  let g := g.modify id fun n => { n with status := .inProgress }
  let event := (← g.node id).event
  let (g, causes) ← g.gather t c ((← t.read event).dependencies c event)
  let fresh ← (causes.map Cause.node).filterM fun id => Node.isUnvisited <$> g.node id
  return (g.modify id fun n => { n with causes := some causes, status := .done }, fresh)

/-- A stack without the nodes on top of it that have been visited. -/
def skipVisited (g : Graph) : List NodeId → Except Fault (List NodeId)
  | [] => .ok []
  | id :: rest => do
    if (← g.node id).isUnvisited then return id :: rest else skipVisited g rest

/-- Explains the nodes of a stack and all that they lead to, in no more than the given number of
rounds. -/
def explainPending (t : Trace) (c : Config) : Nat → List NodeId → Graph → Except Fault Graph
  | 0, pending, g => do
    match ← g.skipVisited (g.unexplainedControls ++ pending) with
    | [] => return { g with unexplainedControls := [] }
    | _ :: _ => .error .exhausted
  | n + 1, pending, g => do
    match ← g.skipVisited (g.unexplainedControls ++ pending) with
    | [] => return { g with unexplainedControls := [] }
    | id :: rest =>
      let (g, fresh) ← explainNode { g with unexplainedControls := [] } t c id
      explainPending t c n (fresh.reverse ++ rest) g

/-- Explains an event. -/
def explain (g : Graph) (t : Trace) (c : Config) (event : EventId) :
    Except Fault (Graph × NodeId) := do
  let (g, id) ← g.place t c event
  let g ← explainPending t c t.size [id] g
  return (g, id)

/-- Places an event, and explains the controls that were met on the way. -/
def request (g : Graph) (t : Trace) (c : Config) (event : EventId) :
    Except Fault (Graph × NodeId) := do
  let (g, id) ← g.place t c event
  match g.unexplainedControls with
  | [] => return (g, id)
  | latest :: others =>
    let g ← explainPending t c t.size [latest] { g with unexplainedControls := others }
    return (g, id)

end Graph

end Inquest
