import Inquest.Trace.Basic

/-!
# Recording an execution

Events are recorded in the order in which they happen.  The recorder keeps the open
invocations of each thread: an event that names no invocation of its own belongs to the
innermost open one of its thread, and the event that leaves an invocation is its end.

## Main Definitions

* `Recorder` - a recording under way
* `Recorder.push`, `Recorder.enter`, `Recorder.exit` - an event, the start and the end of an
  invocation
* `Recorder.Step`, `Recorder.run` - a sequence of these
* `Recorder.trace` - the finished recording
-/

namespace Inquest

/-- A recording under way. -/
structure Recorder where
  program : Program
  /-- The events so far. -/
  events : Array Record := #[]
  /-- The open invocations of each thread, innermost first. -/
  frames : Std.TreeMap ThreadId (List EventId) := ∅
  /-- The event that ended an invocation, by its start. -/
  ends : Std.TreeMap EventId EventId := ∅
  /-- Invocations end at recorded events. -/
  ends_recorded : EndsRecorded ends events.size := by exact .empty _

namespace Recorder

theorem ends_recorded_push (r : Recorder) (record : Record) :
    EndsRecorded r.ends (r.events.push record).size :=
  r.ends_recorded.mono (by rw [Array.size_push]; exact Nat.le_succ _)

/-- The identifier of the next event. -/
def nextId (r : Recorder) : EventId := ⟨r.events.size⟩

/-- The innermost open invocation of a thread. -/
def currentFrame? (r : Recorder) (thread : ThreadId) : Option EventId :=
  (r.frames.getD thread []).head?

/-- Records an event. -/
def push (r : Recorder) (record : Record) : Recorder × EventId :=
  let start := record.start <|> r.currentFrame? record.thread
  ({ r with
    events := r.events.push { record with start }
    ends_recorded := r.ends_recorded_push _ }, r.nextId)

theorem nextId_lt_push (r : Recorder) (record : Record) :
    r.nextId.index < (r.push record).1.events.size := by
  simp [nextId, push]

/-- The first instruction of a method. -/
def firstInstruction? (r : Recorder) (method : MethodId) : Option InstructionId :=
  (r.program.method? method).bind (·.instructions[0]?)

/-- Records the start of an invocation, which belongs to itself. -/
def enter (r : Recorder) (thread : ThreadId) (method : MethodId)
    (arguments : List (Option ObjectId)) (control : Option EventId) :
    Except Fault (Recorder × EventId) :=
  match r.firstInstruction? method with
  | none => .error (.emptyMethod method)
  | some instruction =>
    let id := r.nextId
    let record : Record :=
      { kind := .startMethod, instruction, thread, control, start := some id, arguments }
    .ok ({ r with
      events := r.events.push record
      frames := r.frames.insert thread (id :: r.frames.getD thread [])
      ends_recorded := r.ends_recorded_push record }, id)

/-- Records the event that leaves the innermost open invocation of its thread. -/
def exit (r : Recorder) (record : Record) : Except Fault (Recorder × EventId) :=
  match r.frames.getD record.thread [] with
  | [] => .error (.noOpenInvocation record.thread)
  | frame :: outer =>
    let pushed := (r.push record).1
    .ok ({ pushed with
      ends := pushed.ends.insert frame r.nextId
      frames := pushed.frames.insert record.thread outer
      ends_recorded := pushed.ends_recorded.insert frame (r.nextId_lt_push record) }, r.nextId)

/-- One step of a recording. -/
inductive Step where
  | push (record : Record)
  | enter (thread : ThreadId) (method : MethodId) (arguments : List (Option ObjectId))
      (control : Option EventId)
  | exit (record : Record)
deriving DecidableEq

/-- The recording after a step, and the event that the step recorded. -/
def apply (r : Recorder) : Step → Except Fault (Recorder × EventId)
  | .push record => .ok (r.push record)
  | .enter thread method arguments control => r.enter thread method arguments control
  | .exit record => r.exit record

/-- The recording of a program after a sequence of steps. -/
def run (program : Program) (steps : List Step) : Except Fault Recorder :=
  steps.foldlM (fun r step => Prod.fst <$> r.apply step) { program }

/-- The finished recording. -/
def trace (r : Recorder) : Trace where
  program := r.program
  events := r.events
  ends := r.ends
  ends_recorded := r.ends_recorded

end Recorder

end Inquest
