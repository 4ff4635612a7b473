import Inquest.Ident

/-!
# Faults and query errors

Two things can go wrong, and they are kept apart.  A *fault* is a broken contract: the caller
named something that does not exist, or the recording refers to events in an order that no
execution can have.  A fault ends the operation that met it.  A *query error* is an answer: the
recording does not hold the value that was asked for, or the work was called off.

## Main Definitions

* `Status` - how far the explanation of a node has come
* `Fault`, `Fault.message` - broken contracts and their texts
* `QueryError`, `QueryError.message` - negative answers and their texts
-/

namespace Inquest

/-- How far the explanation of a node has come. -/
inductive Status where
  /-- Nothing has been worked out. -/
  | unvisited
  /-- The node is being explained. -/
  | inProgress
  /-- The explanation is final. -/
  | done
deriving DecidableEq

/-- The name of a status. -/
def Status.name : Status → String
  | .unvisited => "Unvisited"
  | .inProgress => "InProgress"
  | .done => "Done"

/-- A broken contract. -/
inductive Fault where
  /-- An event outside the recording was read. -/
  | unknownEvent (event : EventId)
  /-- A method that the program does not have was to be changed. -/
  | foreignMethod (method : MethodId)
  /-- An instruction that the program does not have was to be changed. -/
  | foreignInstruction (instruction : InstructionId)
  /-- A method without instructions was entered. -/
  | emptyMethod (method : MethodId)
  /-- A thread left an invocation while none was open. -/
  | noOpenInvocation (thread : ThreadId)
  /-- A node was to join a block that starts after it. -/
  | laterAnchor (event anchor : EventId)
  /-- The causes of a node were read before it was explained. -/
  | unexplained (event : EventId) (status : Status)
  /-- A node outside the graph was read. -/
  | outOfBounds (size index : Nat)
  /-- The largest event identifier has no successor. -/
  | lastIdentifier
  /-- A bounded search used up its bound. -/
  | exhausted
deriving DecidableEq

/-- The text of a fault. -/
def Fault.message : Fault → String
  | .unknownEvent event => "unknown event: " ++ event.display
  | .foreignMethod method => "method " ++ method.display ++ " is not part of this program"
  | .foreignInstruction instruction =>
    "instruction " ++ instruction.display ++ " is not part of this program"
  | .emptyMethod method => "method " ++ method.display ++ " has no instructions"
  | .noOpenInvocation thread => thread.display ++ " has no open invocation"
  | .laterAnchor event anchor =>
    event.display ++ " cannot belong to a block anchored at the later event " ++ anchor.display
  | .unexplained event status =>
    "causes of " ++ event.display ++ " requested while " ++ status.name
  | .outOfBounds size index =>
    "index out of bounds: the len is " ++ toString size ++ " but the index is " ++ toString index
  | .lastIdentifier => "attempt to add with overflow"
  | .exhausted => "the search did not come to an end"

/-- A negative answer of a query. -/
inductive QueryError where
  /-- The recording holds no value there. -/
  | noValue (event : EventId)
  /-- The recording has no such event. -/
  | unknownEvent (event : EventId)
  /-- The program has no such instruction. -/
  | unknownInstruction (instruction : InstructionId)
  /-- The work was called off. -/
  | canceled
deriving DecidableEq

/-- The text of a query error. -/
def QueryError.message : QueryError → String
  | .noValue event => "no value available for event " ++ event.display
  | .unknownEvent event => "unknown event: " ++ event.display
  | .unknownInstruction instruction => "unknown instruction: " ++ instruction.display
  | .canceled => "operation canceled"

/-- Whether the value is missing from a recording that has the event. -/
def QueryError.isNoValue : QueryError → Bool
  | .noValue _ => true
  | _ => false

end Inquest
