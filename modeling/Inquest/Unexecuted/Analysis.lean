import Inquest.Config
import Inquest.Unexecuted.Expectation
import Inquest.Unexecuted.Reason

/-!
# The analysis of one instruction

Why did an instruction not execute before some event?  First the latest invocation of its
method is sought that meets the expectation.  If there is one, either the instruction did
execute there, or an exception got in the way, or the branches that guard it decide.  If there
is none, the callers of the method decide.

## Main Definitions

* `Scope` - the trace, the configuration and the boundary of a question
* `Verdict` - the reason, or the instructions that decide it
* `Finding` - a verdict and what was seen on the way
* `Scope.analyse` - the analysis of one instruction under one expectation

## Design Notes

The analysis of an instruction looks at the trace alone.  It does not depend on what is known
about other instructions; what those contribute is left to the graph that asks.
-/

namespace Inquest

/-- What a question is asked about: events before the boundary count. -/
structure Scope where
  trace : Trace
  config : Config
  boundary : EventId

/-- What the analysis of one instruction comes to. -/
inductive Verdict where
  /-- A reason that needs nothing else. -/
  | final (reason : Reason)
  /-- The callers of the method decide, under the given expectation. -/
  | callers (method : MethodId) (callers : IdentSet .instruction) (expectation : Expectation)
  /-- The guarding branches decide, under the given expectation. -/
  | guards (guards : List InstructionId) (expectation : Expectation)
deriving DecidableEq

/-- The instructions that decide, with the expectation on them. -/
def Verdict.children : Verdict → List (InstructionId × Expectation)
  | .final _ => []
  | .callers _ sites x => sites.toList.map (·, x)
  | .guards branches x => branches.map (·, x)

/-- What the analysis of one instruction found. -/
structure Finding where
  verdict : Verdict
  /-- The invocation that was searched. -/
  methodExecution : Option EventId := none
  /-- The invocations that ran for other objects. -/
  others : List EventId := []
deriving DecidableEq

namespace Scope

/-! ### Invocations -/

/-- The invocations of a method before the boundary that meet an expectation in a given way. -/
def invocationsMatching (s : Scope) (method : MethodId) (x : Expectation) (outcome : Match) :
    List EventId :=
  (s.trace.invocationsOf method s.boundary).filter fun start => x.check s.trace start = outcome

/-- The recorded end of an invocation, if it lies before the boundary. -/
def endOf? (s : Scope) (start : EventId) : Option EventId :=
  (s.trace.endOf? start).filter (· < s.boundary)

/-- The last event to look at in an invocation. -/
def limit (s : Scope) (start : EventId) : EventId :=
  match s.endOf? start, s.boundary.previous with
  | some finish, _ => finish
  | none, some last => last
  | none, none => start

/-- The first execution of an instruction in an invocation. -/
def executionIn? (s : Scope) (instruction : InstructionId) (start : EventId) : Option EventId :=
  s.trace.findBetween start (s.limit start) fun r =>
    r.instruction = instruction && r.start = some start && !r.kind.isArtificial

/-- The last exception caught by one of the handlers of an instruction. -/
def caughtIn? (s : Scope) (i : Instruction) (start : EventId) : Option EventId :=
  if i.isProtected then
    s.trace.findLastBetween start (s.limit start) fun r =>
      r.kind = .exceptionCaught && r.instruction ∈ i.handlers
  else none

/-- The exception that ended an invocation. -/
def escapeFrom? (s : Scope) (start : EventId) : Option EventId :=
  ((s.trace.endRecord? start).filter fun (finish, r) =>
    finish < s.boundary && r.kind.isException).map Prod.fst

/-- The verdict on an instruction in an invocation that was searched under an expectation. -/
def withinInvocation (s : Scope) (i : Instruction) (search : Expectation) (start : EventId) :
    Verdict :=
  match s.executionIn? i.id start, s.caughtIn? i start, s.escapeFrom? start with
  | some event, _, _ => .final (.didExecute event)
  | none, some event, _ => .final (.exceptionCaught event)
  | none, none, some event => .final (.exceptionCaught event)
  | none, none, none =>
    if i.guards.isEmpty then .final .unknown else .guards i.guards search

/-! ### Callers -/

/-- Whether no receiver that the expectation allows dispatches from a call site to a method; to
know that, the class of every one of them must be known. -/
def missesReceivers (s : Scope) (callSite : InstructionId) (method : MethodId)
    (receivers : List ObjectId) : Bool :=
  let classes := receivers.filterMap s.trace.classOf?
  !receivers.isEmpty && classes.length = receivers.length &&
    !classes.any fun c => s.trace.program.dispatchesTo callSite c method

/-- Whether a call site lies in an instance method of a class without instances. -/
def lacksInstance (s : Scope) (callSite : InstructionId) : Bool :=
  (s.trace.program.methodOf? callSite).any fun caller =>
    !caller.isStatic && !s.trace.hasInstance caller.declaringClass

/-- Whether a call site counts as a caller. -/
def isFeasible (s : Scope) (method : MethodId) (receivers : List ObjectId)
    (callSite : InstructionId) : Bool :=
  !(s.config.pruneByReceiver && s.missesReceivers callSite method receivers) &&
    !(s.config.pruneUninstantiated && s.lacksInstance callSite)

/-- The callers of a method under an expectation. -/
def callersOf (s : Scope) (m : Method) (search : Expectation) : IdentSet .instruction :=
  IdentSet.ofList <|
    (s.trace.program.callSitesOf m.id).filter (s.isFeasible m.id (search.receivers m.isStatic))

/-- The last call before the boundary from one of the call sites. -/
def lastCall? (s : Scope) (callers : IdentSet .instruction) : Option EventId :=
  s.boundary.previous.bind fun last =>
    s.trace.findLastBetween EventId.first last fun r =>
      r.kind = .invocation && r.instruction ∈ callers

/-- The verdict on an instruction whose method has no invocation to search. -/
def withoutInvocation (s : Scope) (m : Method) (i : Instruction) (x search : Expectation) :
    Verdict :=
  let callers := s.callersOf m search
  if callers.isEmpty then
    .final (if m.isEntryPoint then .methodDidNotExecute m.id callers else .unreachable m.id)
  else
    match s.lastCall? callers with
    | some event => .final (.didExecute event)
    | none => .callers m.id callers (x.forCallers s.trace.program i.id)

/-! ### Findings -/

/-- The analysis of an instruction of a method. -/
def analyseIn (s : Scope) (m : Method) (i : Instruction) (x : Expectation) : Finding :=
  let search := x.forMethodSearch s.trace.program i.id m.isStatic
  let others := s.invocationsMatching m.id search .no
  match (s.invocationsMatching m.id search .yes).getLast? with
  | some start =>
    { verdict := s.withinInvocation i search start, methodExecution := some start, others }
  | none =>
    if (s.invocationsMatching m.id search .unknown).isEmpty then
      { verdict := s.withoutInvocation m i x search, others }
    else { verdict := .final .unknown, others }

/-- The analysis of an instruction under an expectation. -/
def analyse (s : Scope) (instruction : InstructionId) (x : Expectation) : Finding :=
  match s.trace.program.instruction? instruction with
  | none => { verdict := .final .unknown }
  | some i =>
    match s.trace.program.method? i.method with
    | none => { verdict := .final .unknown }
    | some m => s.analyseIn m i x

end Scope

end Inquest
