import Inquest.Event

/-!
# Nodes of an explanation

An explanation graph has one node for each event it explains, and two kinds of nodes of its
own: a loop block gathers the iterations of a loop, and a thread block gathers what a thread
does outside any control.  Calls, branches, thrown exceptions and method starts are blocks
too: they gather the events that they control.

## Main Definitions

* `Cause`, `CauseSource` - why an event happened, as one edge of the graph
* `NodeKind` - what a node stands for
* `Node` - a node, its owner and members, and its explanation
-/

namespace Inquest

/-- The way in which a cause entered its effect. -/
inductive CauseSource where
  /-- As an operand, produced by an instruction. -/
  | operand (position : Nat) (producer : InstructionId)
  /-- As the write that a heap read saw. -/
  | heap
  /-- As an argument of a call into unrecorded code. -/
  | opaqueArgument
deriving DecidableEq

/-- One cause of an explained event. -/
structure Cause where
  node : NodeId
  event : EventId
  source : CauseSource
deriving DecidableEq

/-- Consecutive iterations of a loop that took the same path. -/
structure LoopRun where
  path : LoopPathId
  members : List NodeId
deriving DecidableEq

/-- What is known about the loop path taken from a branch on. -/
inductive PathMemo where
  /-- Nobody has asked yet. -/
  | unresolved
  /-- The answer, which may be that no declared path was taken. -/
  | resolved (path : Option LoopPathId)
deriving DecidableEq

/-- What a node stands for. -/
inductive NodeKind where
  /-- An event that controls nothing. -/
  | event
  /-- A call, and whether the called code was recorded. -/
  | invocation (calleeRecorded : Bool)
  /-- A decided branch. -/
  | branch (path : PathMemo)
  /-- A thrown exception. -/
  | exception
  /-- The start of an invocation. -/
  | startMethod
  /-- A loop, with the runs of its iterations. -/
  | loop (runs : List LoopRun)
  /-- A thread, with the greatest depth of a block nested in it and the first block that
  reached it. -/
  | thread (thread : ThreadId) (maxDepth : Nat) (deepest : Option NodeId)
deriving DecidableEq

namespace NodeKind

/-- What the node of an event of some kind stands for. -/
def ofEvent (kind : EventKind) (calleeRecorded : Bool) : NodeKind :=
  match kind with
  | .invocation => .invocation calleeRecorded
  | .branch => .branch .unresolved
  | .exceptionThrown => .exception
  | .startMethod => .startMethod
  | _ => .event

/-- Whether the node can own others. -/
def isBlock : NodeKind → Bool
  | .event => false
  | _ => true

/-- Whether the node stands for a decided branch. -/
def isBranch : NodeKind → Bool
  | .branch _ => true
  | _ => false

/-- Whether the node stands for a loop. -/
def isLoop : NodeKind → Bool
  | .loop _ => true
  | _ => false

/-- The runs of a loop. -/
def runs : NodeKind → List LoopRun
  | .loop runs => runs
  | _ => []

/-- The path of a branch, as far as it has been resolved. -/
def path? : NodeKind → Option LoopPathId
  | .branch (.resolved path) => path
  | _ => none

/-- The name of the kind. -/
def name : NodeKind → String
  | .event => "event"
  | .invocation _ => "invocation-block"
  | .branch _ => "branch-block"
  | .exception => "exception-block"
  | .startMethod => "start-method-block"
  | .loop _ => "loop-block"
  | .thread _ _ _ => "thread-block"

/-- The long text of the kind. -/
def debug : NodeKind → String
  | .event => "Event"
  | .invocation calleeRecorded =>
    "Invocation \x7b callee_instrumented: " ++ toString calleeRecorded ++ " \x7d"
  | .branch path =>
    let inner :=
      match path with
      | .unresolved => "None"
      | .resolved none => "Some(None)"
      | .resolved (some path) => "Some(Some(" ++ path.debug ++ "))"
    "Branch \x7b loop_path: " ++ inner ++ " \x7d"
  | .exception => "Exception"
  | .startMethod => "StartMethod"
  | .loop _ => "Loop \x7b .. \x7d"
  | .thread _ _ _ => "Thread \x7b .. \x7d"

end NodeKind

/-- A node of an explanation graph. -/
structure Node where
  /-- The event it stands for, or the event at which a loop or thread block is anchored. -/
  event : EventId
  kind : NodeKind
  /-- The block it belongs to. -/
  owner : Option NodeId := none
  status : Status := .unvisited
  /-- The causes, once the node is explained. -/
  causes : Option (List Cause) := none
  /-- The nodes that belong to this block, by their events. -/
  members : Std.TreeMap EventId NodeId := ∅
  /-- The number of blocks around this one, as far as it was followed. -/
  depth : Nat := 0

namespace Node

/-- A loop or thread block: nothing about it needs an explanation. -/
def structural (event : EventId) (kind : NodeKind) : Node :=
  { event, kind, status := .done, causes := some [] }

/-- Whether the node can own others. -/
def isBlock (n : Node) : Bool := n.kind.isBlock

/-- Whether nobody has visited the node. -/
def isUnvisited (n : Node) : Bool := n.status = .unvisited

/-- Whether the node is explained. -/
def isExplained (n : Node) : Bool := n.status = .done

/-- The causes of an explained node. -/
def readCauses (n : Node) : Except Fault (List Cause) :=
  match n.causes with
  | some causes => .ok causes
  | none => .error (.unexplained n.event n.status)

/-- Lets a thread block know of a nested block of some depth; other nodes stay as they are. -/
def noteDepth (n : Node) (block : NodeId) (depth : Nat) : Node :=
  match n.kind with
  | .thread thread maxDepth _ =>
    if maxDepth < depth then { n with kind := .thread thread depth (some block) } else n
  | _ => n

end Node

end Inquest
