import Inquest.Proofs.Trace.Invocations
import Inquest.Proofs.Trace.Threads
import Inquest.Trace.Frame

/-!
# The next event of an invocation

Who follows an invocation goes along the links of its thread, passes over the events of other
invocations, and stops at the first event after the recorded end.  Recursion does no harm, since the
events of an inner invocation name another start; events outside any invocation name none, and are
followed in the same way.

The search gives the least later event of the invocation that does not come after its end.  It may
stop at the end since the links ascend: nothing beyond can come before the end again.  Where the
recorder assigns all the starts, no event of an invocation comes after its end in the first place.
An event that names its invocation by itself may well do so, and is passed over then.

## Main Definitions

* `Trace.SharesFrame` - an event belongs to the invocation of a record, on its thread
* `Trace.BeforeEnd` - an event is not after the end of the invocation of a record
* `Trace.frameEvents` - the events of an invocation up to its end
* `Trace.nextInFrame?` - the first of those that come after an event

## Main Statements

* `Trace.seekFrame_eq` - what the search finds along a list of events
* `Trace.nextInFrame_eq`, `Trace.visits_nextInFrame?` - the events that are met one after the other
* `Recorder.beforeEnd_of_run` - ends of invocations in a recording that assigns all the starts
* `Recorder.nextInFrame_nearest` - the next event of an invocation, in any recording
-/

namespace Inquest

namespace Trace

variable {t : Trace} {e e' : EventId} {r s : Record}

/-- An event belongs to the invocation of a record, and is on its thread. -/
def SharesFrame (t : Trace) (r : Record) (e : EventId) : Prop :=
  ∃ s, t.record? e = some s ∧ s.thread = r.thread ∧ s.start = r.start

/-- An event does not come after the recorded end of the invocation of a record. -/
def BeforeEnd (t : Trace) (r : Record) (e : EventId) : Prop :=
  ∀ start, r.start = some start → ∀ finish ∈ t.endOf? start, e ≤ finish

/-! ### The search -/

/-- Whether an event belongs to an invocation and is not after its end. -/
def inFrame (t : Trace) (frame finish : Option EventId) (e : EventId) : Bool :=
  (t.record? e).any (·.start = frame) && !finish.any (· < e)

/-- Along a list of events, the search finds the first one that belongs to the invocation and is not
after its end. -/
theorem seekFrame_eq {frame finish cursor : Option EventId} {events : List EventId} {n : Nat}
    (visits : Visits t.nextInThread? cursor events) (ascending : events.Pairwise (· < ·))
    (recorded : ∀ e ∈ events, ∃ r, t.record? e = some r) (enough : events.length ≤ n) :
    t.seekFrame frame finish n cursor = .ok (events.find? (t.inFrame frame finish)) := by
  induction visits generalizing n with
  | stop => cases n <;> rfl
  | @step e rest _ ih =>
    obtain ⟨above, ascending⟩ := List.pairwise_cons.1 ascending
    obtain ⟨⟨r, read⟩, recorded⟩ := List.forall_mem_cons.1 recorded
    cases n with
    | zero => cases enough
    | succ n =>
      rw [seekFrame]
      by_cases past : finish.any (· < e) = true
      · -- all that is linked from here on is after the end too
        have beyond : ∀ e' ∈ e :: rest, finish.any (· < e') = true := by
          obtain ⟨last, ended, late⟩ := (Option.any_eq_true _ _).1 past
          have late : last < e := of_decide_eq_true late
          refine List.forall_mem_cons.2 ⟨past, fun e' listed => ?_⟩
          rw [ended]
          exact decide_eq_true (Nat.lt_trans late (above e' listed))
        rw [if_pos past]
        refine congrArg Except.ok (List.find?_eq_none.2 fun e' listed => ?_).symm
        simp [inFrame, beyond e' listed]
      · rw [if_neg past, read_of_record? read]
        by_cases here : r.start = frame
        · have found : t.inFrame frame finish e = true := by simp [inFrame, read, here, past]
          rw [List.find?_cons_of_pos found]
          exact if_pos here
        · have other : ¬ t.inFrame frame finish e = true := by simp [inFrame, read, here]
          rw [List.find?_cons_of_neg other]
          exact (if_neg here).trans (ih ascending recorded (Nat.le_of_succ_le_succ enough))

/-- The events of the invocation of a record, up to its end. -/
def frameEvents (t : Trace) (r : Record) : List EventId :=
  (t.threadEvents r.thread).filter (t.inFrame r.start (r.start.bind t.endOf?))

theorem mem_frameEvents : e ∈ t.frameEvents r ↔ t.SharesFrame r e ∧ t.BeforeEnd r e := by
  have unended : (r.start.bind t.endOf?).any (· < e) = false ↔ t.BeforeEnd r e := by
    unfold BeforeEnd
    cases r.start with
    | none => simp
    | some start =>
      rw [Option.bind_some]
      cases ended : t.endOf? start <;> simp [ended, Ident.lt_def, Ident.le_def]
  rw [frameEvents, List.mem_filter, mem_threadEvents, inFrame, Bool.and_eq_true, Bool.not_eq_true',
    unended, ← and_assoc]
  refine and_congr_left fun _ => ⟨?_, ?_⟩
  · rintro ⟨⟨s, recorded, thread⟩, start⟩
    rw [recorded, Option.any_some, decide_eq_true_eq] at start
    exact ⟨s, recorded, thread, start⟩
  · rintro ⟨s, recorded, thread, start⟩
    rw [recorded, Option.any_some, decide_eq_true_eq]
    exact ⟨⟨s, recorded, thread⟩, start⟩

theorem pairwise_frameEvents (t : Trace) (r : Record) : (t.frameEvents r).Pairwise (· < ·) :=
  (t.pairwise_threadEvents r.thread).filter _

theorem length_frameEvents_le (t : Trace) (r : Record) : (t.frameEvents r).length ≤ t.size :=
  Nat.le_trans (List.length_filter_le _ _) (t.length_eventsWhere_le _)

/-- Events of one invocation agree on what belongs to it. -/
theorem frameEvents_congr (thread : s.thread = r.thread) (start : s.start = r.start) :
    t.frameEvents s = t.frameEvents r := by
  rw [frameEvents, thread, start, ← frameEvents]

/-- The first of the later events of the invocation of an event. -/
def nextInFrame? (t : Trace) (e : EventId) : Option EventId :=
  (t.record? e).bind fun r => ((t.frameEvents r).filter (e < ·)).head?

theorem nextInFrame?_eq (recorded : t.record? e = some r) :
    t.nextInFrame? e = ((t.frameEvents r).filter (e < ·)).head? := by
  rw [nextInFrame?, recorded, Option.bind_some]

/-- The next event of an invocation is the first of its later events. -/
theorem nextInFrame_eq (recorded : t.record? e = some r) :
    t.nextInFrame e = .ok (t.nextInFrame? e) := by
  have few : ((t.threadEvents r.thread).filter (e < ·)).length ≤ t.size :=
    Nat.le_trans (List.length_filter_le _ _) (t.length_eventsWhere_le _)
  have known : ∀ e' ∈ (t.threadEvents r.thread).filter (e < ·), ∃ s, t.record? e' = some s := by
    intro e' listed
    obtain ⟨-, s, recorded', -⟩ := mem_later.1 listed
    exact ⟨s, recorded'⟩
  rw [nextInFrame, read_of_record? recorded, nextInFrame?_eq recorded, frameEvents,
    List.filter_comm, List.head?_filter]
  exact seekFrame_eq (visits_nextInThread? recorded)
    ((t.pairwise_threadEvents r.thread).filter _) known few

/-- An event of an invocation leads to the first of the later ones. -/
theorem nextInFrame?_eq_of_mem (listed : e ∈ t.frameEvents r) :
    t.nextInFrame? e = ((t.frameEvents r).filter (e < ·)).head? := by
  obtain ⟨⟨s, recorded, thread, start⟩, -⟩ := mem_frameEvents.1 listed
  rw [nextInFrame?_eq recorded, frameEvents_congr thread start]

/-- Going on from an event leads through the later events of its invocation. -/
theorem visits_nextInFrame? (recorded : t.record? e = some r) :
    Visits t.nextInFrame? (t.nextInFrame? e) ((t.frameEvents r).filter (e < ·)) :=
  visits_after (t.pairwise_frameEvents r) (fun _ => nextInFrame?_eq_of_mem)
    (nextInFrame?_eq recorded)

theorem mem_laterInFrame : e' ∈ (t.frameEvents r).filter (e < ·) ↔
    e < e' ∧ t.SharesFrame r e' ∧ t.BeforeEnd r e' := by
  rw [List.mem_filter, mem_frameEvents, decide_eq_true_eq, and_comm]

theorem nextInFrame?_eq_some_iff (recorded : t.record? e = some r) :
    t.nextInFrame? e = some e' ↔
      IsLeast { e' | e < e' ∧ t.SharesFrame r e' ∧ t.BeforeEnd r e' } e' := by
  rw [nextInFrame?_eq recorded, Ident.head?_eq_some_iff ((t.pairwise_frameEvents r).filter _)]
  simp only [mem_laterInFrame]
  rfl

theorem nextInFrame?_eq_none_iff (recorded : t.record? e = some r) :
    t.nextInFrame? e = none ↔ ∀ e', e < e' → t.SharesFrame r e' → ¬ t.BeforeEnd r e' := by
  rw [nextInFrame?_eq recorded, List.head?_eq_none_iff, List.eq_nil_iff_forall_not_mem]
  simp only [mem_laterInFrame, not_and]

end Trace

/-! ### Recordings -/

namespace Recorder

/-- If no event names an invocation by itself, no event of an invocation comes after its end. -/
theorem beforeEnd_of_run {program : Program} {steps : List Step} {r : Recorder}
    (unmarked : ∀ step ∈ steps, step.start? = none) (recorded : run program steps = .ok r)
    {record : Record} {e : EventId} (shares : r.trace.SharesFrame record e) :
    r.trace.BeforeEnd record e := by
  intro start isStart finish ended
  obtain ⟨record', found, -, same⟩ := shares
  have innermost := ((start_spec unmarked recorded found).1 start).1 (same.trans isStart)
  exact innermost.1.2.2 finish ended

/-- The next event of an invocation is the least later event of its thread that belongs to the same
invocation and does not come after the end of the invocation, if an end was recorded.  There is none
only if there is no such event.  Where no event names its invocation by itself, the end rules out
nothing. -/
theorem nextInFrame_nearest (program : Program) (steps : List Step) (r : Recorder)
    (recorded : run program steps = .ok r) :
    (∀ e record, r.trace.record? e = some record →
      ∃ next, r.trace.nextInFrame e = .ok next ∧
        (∀ e', next = some e' ↔ IsLeast { e' | e < e' ∧ r.trace.SharesFrame record e' ∧
          r.trace.BeforeEnd record e' } e') ∧
        (next = none ↔ ∀ e', e < e' → r.trace.SharesFrame record e' →
          ¬ r.trace.BeforeEnd record e')) ∧
    ((∀ step ∈ steps, step.start? = none) → ∀ e record e', r.trace.record? e = some record →
      r.trace.SharesFrame record e' → r.trace.BeforeEnd record e') := by
  refine ⟨fun e record found => ⟨r.trace.nextInFrame? e, ?_, ?_, ?_⟩, ?_⟩
  · exact Trace.nextInFrame_eq found
  · intro e'
    exact Trace.nextInFrame?_eq_some_iff found
  · exact Trace.nextInFrame?_eq_none_iff found
  · intro unmarked e record e' _ shares
    exact beforeEnd_of_run unmarked recorded shares

/-- A method that calls itself once, and an event after both have ended that claims to belong to the
outer invocation. -/
def afterthoughtSteps : List Step := [
  .enter ⟨0⟩ ⟨0⟩ [] none,
  .push { kind := .value, instruction := ⟨0⟩ },
  .enter ⟨0⟩ ⟨0⟩ [] none,
  .push { kind := .value, instruction := ⟨0⟩ },
  .exit { kind := .returned, instruction := ⟨0⟩ },
  .exit { kind := .returned, instruction := ⟨0⟩ },
  .push { kind := .value, instruction := ⟨0⟩, start := some ⟨0⟩ }]

/-- What is recorded of it. -/
def afterthoughtRecorder : Recorder where
  program := relayProgram
  events := #[
    { kind := .startMethod, instruction := ⟨0⟩, start := some ⟨0⟩ },
    { kind := .value, instruction := ⟨0⟩, start := some ⟨0⟩ },
    { kind := .startMethod, instruction := ⟨0⟩, start := some ⟨2⟩ },
    { kind := .value, instruction := ⟨0⟩, start := some ⟨2⟩ },
    { kind := .returned, instruction := ⟨0⟩, start := some ⟨2⟩ },
    { kind := .returned, instruction := ⟨0⟩, start := some ⟨0⟩ },
    { kind := .value, instruction := ⟨0⟩, start := some ⟨0⟩ }]
  frames := Std.TreeMap.insert ∅ ⟨0⟩ []
  ends := (Std.TreeMap.insert ∅ ⟨2⟩ ⟨4⟩).insert ⟨0⟩ ⟨5⟩
  ends_recorded := ((EndsRecorded.empty _).insert ⟨2⟩ (by decide)).insert ⟨0⟩ (by decide)

theorem run_afterthoughtSteps : run relayProgram afterthoughtSteps = .ok afterthoughtRecorder := rfl

/-- The inner invocation is passed over, and nothing comes next at the end of the outer one,
although an event follows that claims to belong to it.  In the recording of the relay no event can
be left out in this way. -/
theorem nextInFrame_nearest_afterthought :
    run relayProgram afterthoughtSteps = .ok afterthoughtRecorder ∧
      IsLeast { e' | ⟨1⟩ < e' ∧
        afterthoughtRecorder.trace.SharesFrame
          { kind := .value, instruction := ⟨0⟩, start := some ⟨0⟩ } e' ∧
        afterthoughtRecorder.trace.BeforeEnd
          { kind := .value, instruction := ⟨0⟩, start := some ⟨0⟩ } e' } ⟨5⟩ ∧
      ¬ afterthoughtRecorder.trace.BeforeEnd
        { kind := .returned, instruction := ⟨0⟩, start := some ⟨0⟩ } ⟨6⟩ ∧
      run relayProgram relaySteps = .ok relayRecorder ∧
      relayRecorder.trace.BeforeEnd
        { kind := .startMethod, instruction := ⟨0⟩, start := some ⟨0⟩ } ⟨5⟩ := by
  obtain ⟨nearest, -⟩ := nextInFrame_nearest relayProgram afterthoughtSteps afterthoughtRecorder
    run_afterthoughtSteps
  obtain ⟨-, unended⟩ := nextInFrame_nearest relayProgram relaySteps relayRecorder run_relaySteps
  refine ⟨run_afterthoughtSteps, ?_, ?_, run_relaySteps, ?_⟩
  · obtain ⟨next, found, least, -⟩ := nearest ⟨1⟩ _ rfl
    have isNext : afterthoughtRecorder.trace.nextInFrame ⟨1⟩ = .ok (some ⟨5⟩) := by rfl
    cases isNext.symm.trans found
    exact (least ⟨5⟩).1 rfl
  · obtain ⟨next, found, -, nothing⟩ := nearest ⟨5⟩ _ rfl
    have isNext : afterthoughtRecorder.trace.nextInFrame ⟨5⟩ = .ok none := by rfl
    cases isNext.symm.trans found
    exact nothing.1 rfl ⟨6⟩ (by decide) ⟨_, rfl, rfl, rfl⟩
  · exact unended (by decide) ⟨0⟩ _ ⟨5⟩ rfl ⟨_, rfl, rfl, rfl⟩

end Recorder

end Inquest
