import Inquest.Fault

/-!
# Events

An event is one recorded step of the execution.  Its kind says what happened, and the facets
of a kind say how the analyses treat it.

## Main Definitions

* `EventKind` - what happened
* `EventKind.isArtificial`, `EventKind.isTerminal`, … - the facets of a kind
* `EventId.next`, `EventId.previous` - the neighbours of an event
-/

namespace Inquest

namespace EventId

/-- The largest number that names an event. -/
def maxIndex : Nat := UInt64.size - 1

/-- The first event of every recording. -/
def first : EventId := ⟨0⟩

/-- The event after this one; the largest identifier has none. -/
def next (event : EventId) : Except Fault EventId :=
  if event.index < maxIndex then .ok ⟨event.index + 1⟩ else .error .lastIdentifier

/-- The event before this one; the first event has none. -/
def previous (event : EventId) : Option EventId :=
  if event.index = 0 then none else some ⟨event.index - 1⟩

end EventId

/-- What happened at an event. -/
inductive EventKind where
  | constant
  | value
  | argument
  | invocation
  | branch
  | startMethod
  | returned
  | exceptionThrown
  | exceptionCaught
  | instantiation
  | fieldDefinition
  | arrayDefinition
  | localDefinition
  | staticDefinition
deriving DecidableEq

namespace EventKind

/-- All kinds. -/
def all : List EventKind :=
  [.constant, .value, .argument, .invocation, .branch, .startMethod, .returned,
    .exceptionThrown, .exceptionCaught, .instantiation, .fieldDefinition, .arrayDefinition,
    .localDefinition, .staticDefinition]

/-- The name of a kind. -/
def name : EventKind → String
  | .constant => "constant"
  | .value => "value"
  | .argument => "argument"
  | .invocation => "invocation"
  | .branch => "branch"
  | .startMethod => "start-method"
  | .returned => "return"
  | .exceptionThrown => "exception-thrown"
  | .exceptionCaught => "exception-caught"
  | .instantiation => "instantiation"
  | .fieldDefinition => "field-definition"
  | .arrayDefinition => "array-definition"
  | .localDefinition => "local-definition"
  | .staticDefinition => "static-definition"

/-- The kind of a name. -/
def ofName? (text : String) : Option EventKind := all.find? (·.name == text)

/-- A value was stored in a variable, a field or an array. -/
def isDefinition : EventKind → Bool
  | .fieldDefinition | .arrayDefinition | .localDefinition | .staticDefinition => true
  | _ => false

/-- A parameter received its value. -/
def isArgument (kind : EventKind) : Bool := kind = .argument

/-- A method was called. -/
def isInvocation (kind : EventKind) : Bool := kind = .invocation

/-- A branch was decided. -/
def isBranch (kind : EventKind) : Bool := kind = .branch

/-- The event marks a place in the recording; no instruction executed there. -/
def isArtificial (kind : EventKind) : Bool := kind = .argument ∨ kind = .startMethod

/-- A value was computed. -/
def isValueProduced (kind : EventKind) : Bool := kind = .value

/-- An exception was thrown or caught. -/
def isException (kind : EventKind) : Bool := kind = .exceptionThrown ∨ kind = .exceptionCaught

/-- A chain of causes that is shown to a reader ends at such an event. -/
def isTerminal (kind : EventKind) : Bool :=
  kind.isDefinition ∨ kind = .argument ∨ kind = .invocation ∨ kind = .returned ∨
    kind = .instantiation

end EventKind

end Inquest
