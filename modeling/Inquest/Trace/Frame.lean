import Inquest.Trace.Basic

/-!
# Events of one invocation

Between two events of an invocation its thread may run nested invocations.  Following an
invocation means to skip those, and to stop at its recorded end.  The branches met on the way
tell which of the declared paths an iteration of a loop took.

## Main Definitions

* `Trace.nextInFrame` - the next event of the same invocation
* `Trace.nextBranchInFrame` - the next branch of the same invocation
* `Trace.follows` - whether an invocation went through a list of branches
* `Trace.loopPathOf` - the first declared loop path that was taken from a branch on

## Design Notes

Every event that is met is read, so a walk that leaves the recording is a fault.  Each of the walks
goes to a later event at every step, so it has ended after as many steps as the recording has
events; a walk that has not is a fault of its own.
-/

namespace Inquest.Trace

/-- The first event, from a given one on along its thread, that belongs to an invocation; none
if the end of the invocation comes first.  No more than the given number of events are met. -/
def seekFrame (t : Trace) (frame finish : Option EventId) :
    Nat → Option EventId → Except Fault (Option EventId)
  | _, none => .ok none
  | 0, some _ => .error .exhausted
  | n + 1, some event =>
    if finish.any (· < event) then .ok none
    else do
      if (← t.read event).start = frame then return some event
      else seekFrame t frame finish n (t.nextInThread? event)

/-- The next event of the same invocation. -/
def nextInFrame (t : Trace) (event : EventId) : Except Fault (Option EventId) := do
  let frame := (← t.read event).start
  t.seekFrame frame (frame.bind t.endOf?) t.size (t.nextInThread? event)

/-- The first branch among an event and the later events of its invocation.  No more than the given
number of events are met. -/
def seekBranch (t : Trace) : Nat → Option EventId → Except Fault (Option EventId)
  | _, none => .ok none
  | 0, some _ => .error .exhausted
  | n + 1, some event => do
    if (← t.kind event).isBranch then return some event
    else seekBranch t n (← t.nextInFrame event)

/-- The next branch of the same invocation. -/
def nextBranchInFrame (t : Trace) (event : EventId) : Except Fault (Option EventId) := do
  t.seekBranch t.size (← t.nextInFrame event)

/-- Whether the branches after an event, in its invocation, start with the given ones. -/
def followsAfter (t : Trace) : EventId → List InstructionId → Except Fault Bool
  | _, [] => .ok true
  | event, branch :: rest => do
    match ← t.nextBranchInFrame event with
    | none => return false
    | some next =>
      if (← t.instruction next) = branch then followsAfter t next rest else return false

/-- Whether an event and the branches after it, in its invocation, start with the given ones;
no list at all is followed by nothing. -/
def follows (t : Trace) (event : EventId) : List InstructionId → Except Fault Bool
  | [] => .ok false
  | branch :: rest => do
    if (← t.instruction event) = branch then t.followsAfter event rest else return false

/-- The first declared loop path that was taken from a branch on. -/
def loopPathOf (t : Trace) (event : EventId) : Except Fault (Option LoopPathId) := do
  match t.program.instruction? (← t.instruction event) with
  | none => return none
  | some i =>
    let taken ← i.loopPaths.findM? fun path => t.follows event path.branches
    return taken.map LoopPath.id

end Inquest.Trace
