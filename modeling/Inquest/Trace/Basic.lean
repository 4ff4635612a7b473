import Inquest.Trace.Index
import Inquest.Program.Dispatch

/-!
# Traces

A trace is a finished recording of one execution of a program.  Its events are numbered from 0
in the order in which they happened; the index answers look-ups and searches run over windows
of the events.

## Main Definitions

* `EndsRecorded` - the ends of invocations lie in a recording
* `Trace` - a program, the records of its execution and the recorded ends of invocations
* `Trace.read` - the record of an event, a fault outside the recording
* `Trace.findBetween`, `Trace.findLastBetween` - the first and the last event of a window that
  meets a condition
* `Trace.nextInThread?`, `Trace.invocationsOf`, `Trace.classOf?`, … - look-ups in the index
* `Trace.argument` - an argument of an invocation, where it was recorded

## Design Notes

The index is stored because it is costly, and `Trace.index_eq` says that it is the index of the
stored events, so a trace is determined by its program, events and ends.  Who looks at the end of an
invocation has a record there, since `Trace.ends_recorded` says that it was recorded.
-/

namespace Inquest

/-- The ends of invocations lie in a recording of the given size. -/
def EndsRecorded (ends : Std.TreeMap EventId EventId) (size : Nat) : Prop :=
  ∀ start finish : EventId, ends[start]? = some finish → finish.index < size

namespace EndsRecorded

variable {ends : Std.TreeMap EventId EventId} {size size' : Nat}

theorem empty (size : Nat) : EndsRecorded ∅ size := by
  intro start finish ended
  cases Std.TreeMap.getElem?_emptyc.symm.trans ended

theorem mono (inside : EndsRecorded ends size) (le : size ≤ size') : EndsRecorded ends size' :=
  fun start finish ended => Nat.lt_of_lt_of_le (inside start finish ended) le

theorem insert (inside : EndsRecorded ends size) (start : EventId) {finish : EventId}
    (recorded : finish.index < size) : EndsRecorded (ends.insert start finish) size := by
  intro start' finish' ended
  rw [Std.TreeMap.getElem?_insert] at ended
  split at ended
  · exact Option.some.inj ended ▸ recorded
  · exact inside start' finish' ended

end EndsRecorded

/-- A finished recording. -/
structure Trace where
  program : Program
  /-- The records in order of event number. -/
  events : Array Record
  /-- The event that ended an invocation, by its start. -/
  ends : Std.TreeMap EventId EventId
  /-- Invocations end at recorded events. -/
  ends_recorded : EndsRecorded ends events.size := by exact .empty _
  /-- The index of the events. -/
  index : Index := Index.ofEvents program events
  /-- The stored index is the one that belongs to the events. -/
  index_eq : index = Index.ofEvents program events := by rfl

namespace Trace

/-- The number of events. -/
def size (t : Trace) : Nat := t.events.size

/-- The identifier after the last event. -/
def finish (t : Trace) : EventId := ⟨t.size⟩

/-! ### Records -/

/-- The record of an event, if the recording has it. -/
def record? (t : Trace) (event : EventId) : Option Record := t.events[event.index]?

/-- The record of an event. -/
def read (t : Trace) (event : EventId) : Except Fault Record :=
  match t.record? event with
  | some r => .ok r
  | none => .error (.unknownEvent event)

/-- The record of an event, as a query. -/
def get (t : Trace) (event : EventId) : Except QueryError Record :=
  match t.record? event with
  | some r => .ok r
  | none => .error (.unknownEvent event)

/-- What happened at an event. -/
def kind (t : Trace) (event : EventId) : Except Fault EventKind := Record.kind <$> t.read event

/-- The instruction that executed at an event. -/
def instruction (t : Trace) (event : EventId) : Except Fault InstructionId :=
  Record.instruction <$> t.read event

/-- The thread of an event. -/
def thread (t : Trace) (event : EventId) : Except Fault ThreadId := Record.thread <$> t.read event

/-- The producers of the operands of an event. -/
def operands (t : Trace) (event : EventId) : Except Fault (List EventId) :=
  Record.operands <$> t.read event

/-- The event that decided that an event happens. -/
def control (t : Trace) (event : EventId) : Except Fault (Option EventId) :=
  Record.control <$> t.read event

/-- An argument of an invocation. -/
def argument (t : Trace) (start : EventId) (position : Nat) : Except QueryError ObjectId := do
  let r ← t.get start
  match r.arguments[position]?.join with
  | some object => .ok object
  | none => .error (.noValue start)

/-! ### Look-ups -/

/-- The event that ended an invocation. -/
def endOf? (t : Trace) (start : EventId) : Option EventId := t.ends[start]?

/-- The event that ended an invocation, and its record. -/
def endRecord? (t : Trace) (start : EventId) : Option (EventId × Record) :=
  match ended : t.endOf? start with
  | none => none
  | some finish =>
    have inside := t.ends_recorded start finish ended
    some (finish, t.events[finish.index])

theorem endRecord?_eq_some_iff {t : Trace} {start finish : EventId} {r : Record} :
    t.endRecord? start = some (finish, r) ↔
      t.endOf? start = some finish ∧ t.record? finish = some r := by
  unfold endRecord?
  split
  · next missing => simp [missing]
  · next finish' ended =>
    have inside := t.ends_recorded start finish' ended
    have recorded : t.record? finish' = some t.events[finish'.index] :=
      Array.getElem?_eq_getElem inside
    simp only [ended, Option.some.injEq, Prod.mk.injEq]
    refine and_congr_right fun same => ?_
    rw [← same, recorded, Option.some.injEq]

/-- The next event of the same thread. -/
def nextInThread? (t : Trace) (event : EventId) : Option EventId := t.index.nextInThread[event]?

/-- The first event of a thread. -/
def firstInThread? (t : Trace) (thread : ThreadId) : Option EventId :=
  t.index.firstInThread[thread]?

/-- The starts of the invocations of a method before an event, in ascending order. -/
def invocationsOf (t : Trace) (method : MethodId) (before : EventId) : List EventId :=
  (t.index.invocations.getD method #[]).toList.filter (· < before)

/-- The class of an object, if its instantiation was recorded. -/
def classOf? (t : Trace) (object : ObjectId) : Option ClassId := t.index.objectClass[object]?

/-- Whether an instance of exactly this class was recorded. -/
def isInstantiated (t : Trace) (c : ClassId) : Bool := c ∈ t.index.instantiated

/-- Whether an instance of this class or of a class that inherits from it was recorded. -/
def hasInstance (t : Trace) (c : ClassId) : Bool :=
  t.program.classes.any fun d => t.program.isSubclassOf d.id c && t.isInstantiated d.id

/-! ### Windows -/

/-- The first of the given number of events from a position on whose record meets a
condition. -/
def scanUp (t : Trace) (p : Record → Bool) : Nat → Nat → Option EventId
  | _, 0 => none
  | position, n + 1 =>
    match t.events[position]? with
    | none => none
    | some r => if p r then some ⟨position⟩ else scanUp t p (position + 1) n

/-- The last event from a position on and before another one whose record meets a condition. -/
def scanDown (t : Trace) (p : Record → Bool) (low : Nat) : Nat → Option EventId
  | 0 => none
  | n + 1 =>
    if n < low then none
    else if t.events[n]?.any p then some ⟨n⟩
    else scanDown t p low n

/-- The position after the window that ends at an event, cut to the recording. -/
def windowEnd (t : Trace) (last : EventId) : Nat := min (last.index + 1) t.size

/-- The events of a window, in ascending order. -/
def window (t : Trace) (first last : EventId) : List EventId :=
  (List.range' first.index (t.windowEnd last - first.index)).map Ident.mk

/-- The first event of a window whose record meets a condition. -/
def findBetween (t : Trace) (first last : EventId) (p : Record → Bool) : Option EventId :=
  t.scanUp p first.index (t.windowEnd last - first.index)

/-- The last event of a window whose record meets a condition. -/
def findLastBetween (t : Trace) (first last : EventId) (p : Record → Bool) : Option EventId :=
  t.scanDown p first.index (t.windowEnd last)

/-- The events of a window at which an exception was caught. -/
def caughtBetween (t : Trace) (first last : EventId) : List EventId :=
  (t.window first last).filter fun e => (t.record? e).any (·.kind = .exceptionCaught)

/-- The first execution of an instruction on a thread, up to an event. -/
def firstExecution (t : Trace) (instruction : InstructionId) (thread : ThreadId)
    (last : EventId) : Option EventId :=
  (t.firstInThread? thread).bind fun first =>
    t.findBetween first last fun r => r.thread = thread && r.instruction = instruction

end Trace

end Inquest
