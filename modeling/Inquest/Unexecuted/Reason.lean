import Inquest.IdentSet

/-!
# Reasons

## Main Definitions

* `Reason` - why an instruction did not execute
* `ReasonKind` - the kinds of reasons, in the order in which they are listed
* `Reason.decidingEvents` - the events that a reason points at
* `Reason.description` - the reason in words
-/

namespace Inquest

/-- Why an instruction did not execute. -/
inductive Reason where
  /-- Nobody has worked it out. -/
  | unexplained
  /-- Nothing can call the method, and it is no entry point. -/
  | unreachable (method : MethodId)
  /-- None of the callers of the method executed. -/
  | methodDidNotExecute (method : MethodId) (callers : IdentSet .instruction)
  /-- A guarding branch was decided the other way. -/
  | wrongWay (branch : EventId) (dependencies : List EventId)
  /-- None of the guarding branches executed. -/
  | branchDidNotExecute (branches : IdentSet .instruction)
  /-- It did execute. -/
  | didExecute (event : EventId)
  /-- An exception ended or interrupted the invocation. -/
  | exceptionCaught (event : EventId)
  /-- No reason was found. -/
  | unknown
deriving DecidableEq

/-- The kinds of reasons. -/
inductive ReasonKind where
  | unexplained
  | unreachable
  | methodDidNotExecute
  | wrongWay
  | branchDidNotExecute
  | didExecute
  | exceptionCaught
  | unknown
deriving DecidableEq

namespace ReasonKind

/-- All kinds in the order in which they are listed. -/
def all : List ReasonKind :=
  [.unexplained, .unreachable, .methodDidNotExecute, .wrongWay, .branchDidNotExecute,
    .didExecute, .exceptionCaught, .unknown]

/-- The name of a kind. -/
def name : ReasonKind → String
  | .unexplained => "UNEXPLAINED"
  | .unreachable => "UNREACHABLE"
  | .methodDidNotExecute => "METHOD_DID_NOT_EXECUTE"
  | .wrongWay => "WRONG_WAY"
  | .branchDidNotExecute => "INSTRUCTIONS_BRANCH_DID_NOT_EXECUTE"
  | .didExecute => "DID_EXECUTE"
  | .exceptionCaught => "EXCEPTION_CAUGHT"
  | .unknown => "UNKNOWN_REASON"

end ReasonKind

namespace Reason

/-- The kind of a reason. -/
def kind : Reason → ReasonKind
  | .unexplained => .unexplained
  | .unreachable _ => .unreachable
  | .methodDidNotExecute _ _ => .methodDidNotExecute
  | .wrongWay _ _ => .wrongWay
  | .branchDidNotExecute _ => .branchDidNotExecute
  | .didExecute _ => .didExecute
  | .exceptionCaught _ => .exceptionCaught
  | .unknown => .unknown

/-- Whether somebody has worked the reason out. -/
def isExplained (r : Reason) : Bool := r ≠ .unexplained

/-- The events that a reason points at. -/
def decidingEvents : Reason → List EventId
  | .wrongWay branch dependencies => branch :: dependencies
  | .didExecute event => [event]
  | .exceptionCaught event => [event]
  | _ => []

/-- The event at which an instruction did execute after all. -/
def execution? : Reason → Option EventId
  | .didExecute event => some event
  | _ => none

/-- Identifiers in words, divided by commas. -/
def listing {kind : IdentKind} (ids : List (Ident kind)) : String :=
  ", ".intercalate (ids.map Ident.display)

/-- The reason in words. -/
def description : Reason → String
  | .unexplained => "not yet explained"
  | .unreachable method =>
    method.display ++ " has no feasible caller and is not an entry point"
  | .methodDidNotExecute method callers =>
    if callers.isEmpty then
      method.display ++ " was never invoked from outside the recorded code"
    else
      method.display ++ " did not execute because none of its " ++ toString callers.size ++
        " callers did"
  | .wrongWay branch dependencies =>
    "branch " ++ branch.display ++ " went the other way, deciding on " ++
      if dependencies.isEmpty then "constants" else listing dependencies
  | .branchDidNotExecute branches =>
    "no guarding branch executed (" ++ listing branches.toList ++ ")"
  | .didExecute event => "it executed at " ++ event.display
  | .exceptionCaught event =>
    "an exception interrupted the invocation at " ++ event.display
  | .unknown => "no reason found"

end Reason

/-- The kinds that occur in a list of reasons, each once, in the order in which they are
listed. -/
def ReasonKind.occurring (reasons : List Reason) : List ReasonKind :=
  all.filter fun kind => reasons.any (·.kind = kind)

end Inquest
