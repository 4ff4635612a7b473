import Inquest.Event
import Inquest.IdentSet
import Inquest.Program.Basic

/-!
# Records and their index

A recording is a list of event records.  One pass over the records gathers what the analyses
ask for most often: the next event of the same thread, the first event of a thread, the
invocations of a method, the class of an object and the classes that have instances.

## Main Definitions

* `Record` - what was recorded at one event
* `Index` - what the pass gathers
* `Index.push` - one more record
* `Index.ofEvents` - the index of a whole recording
-/

namespace Inquest

/-- What was recorded at one event. -/
structure Record where
  kind : EventKind
  /-- The instruction that executed. -/
  instruction : InstructionId
  thread : ThreadId := ⟨0⟩
  /-- The events that produced the operands. -/
  operands : List EventId := []
  /-- The write that a heap read saw. -/
  heap : Option EventId := none
  /-- The events that produced the arguments of a call into unrecorded code. -/
  opaqueArguments : List EventId := []
  /-- The event that decided that this one happens. -/
  control : Option EventId := none
  /-- The start of the invocation that this event belongs to. -/
  start : Option EventId := none
  /-- The objects passed to an invocation, where they were recorded. -/
  arguments : List (Option ObjectId) := []
  /-- The object that an instantiation made. -/
  object : Option ObjectId := none
deriving DecidableEq

namespace Record

/-- The method that an invocation starts. -/
def startedMethod? (p : Program) (r : Record) : Option MethodId :=
  match r.kind with
  | .startMethod => (p.instruction? r.instruction).map Instruction.method
  | _ => none

/-- The class that an instantiation makes an instance of. -/
def instantiated? (p : Program) (r : Record) : Option ClassId :=
  match r.kind, (p.instruction? r.instruction).map Instruction.kind with
  | .instantiation, some (.instantiate c) => some c
  | _, _ => none

end Record

/-- What one pass over the records gathers. -/
structure Index where
  /-- The number of records read. -/
  size : Nat := 0
  /-- The next event of the same thread. -/
  nextInThread : Std.TreeMap EventId EventId := ∅
  /-- The first event of each thread. -/
  firstInThread : Std.TreeMap ThreadId EventId := ∅
  /-- The last event of each thread so far. -/
  lastInThread : Std.TreeMap ThreadId EventId := ∅
  /-- The invocations of each method, in ascending order. -/
  invocations : Std.TreeMap MethodId (Array EventId) := ∅
  /-- The class of each object, by its last instantiation. -/
  objectClass : Std.TreeMap ObjectId ClassId := ∅
  /-- The classes that have instances. -/
  instantiated : IdentSet .objectClass := ∅

namespace Index

/-- Links a record to the events of its thread. -/
def pushThread (ix : Index) (event : EventId) (thread : ThreadId) : Index :=
  { ix with
    firstInThread := ix.firstInThread.insertIfNew thread event
    nextInThread :=
      match ix.lastInThread[thread]? with
      | some previous => ix.nextInThread.insert previous event
      | none => ix.nextInThread
    lastInThread := ix.lastInThread.insert thread event }

/-- Notes the start of an invocation. -/
def pushInvocation (ix : Index) (event : EventId) (method : MethodId) : Index :=
  { ix with
    invocations := ix.invocations.insert method ((ix.invocations.getD method #[]).push event) }

/-- Notes an instantiation. -/
def pushInstance (ix : Index) (object : Option ObjectId) (c : ClassId) : Index :=
  { ix with
    instantiated := ix.instantiated.insert c
    objectClass :=
      match object with
      | some o => ix.objectClass.insert o c
      | none => ix.objectClass }

/-- Takes in one more record. -/
def push (p : Program) (ix : Index) (r : Record) : Index :=
  let event : EventId := ⟨ix.size⟩
  let ix := ix.pushThread event r.thread
  let ix :=
    match r.startedMethod? p with
    | some method => ix.pushInvocation event method
    | none => ix
  let ix :=
    match r.instantiated? p with
    | some c => ix.pushInstance r.object c
    | none => ix
  { ix with size := ix.size + 1 }

/-- The index of a recording. -/
def ofEvents (p : Program) (events : Array Record) : Index := events.foldl (push p) {}

end Index

end Inquest
