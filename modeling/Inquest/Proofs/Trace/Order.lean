import Inquest.Explanation.Placement
import Inquest.Proofs.Trace.Index
import Inquest.Proofs.Trace.Window

/-!
# Recordings in order

An execution can only depend on what it has recorded, and what controls an event comes before it.
A recording in which this holds is *well ordered*.  Explanations are about such recordings: the
place of an event is found by going back, from an event to what controls it and from there to the
start of the loop, and on a well-ordered recording each of these steps leads to an earlier event
of the recording.

## Main Definitions

* `Trace.WellOrdered` - references stay within the recording, and controls come first
* `EventKind.canControl` - the kinds of events that open a block of their own
* `Trace.controlOf?`, `Trace.loopOf?` - the control and the loop of an event
* `Trace.needs?` - the event that an event waits for

## Main Statements

* `Trace.firstInThread?_of_record?` - every recorded thread has a first event
* `Trace.WellOrdered.loopHead_eq_ok` - the loop of an event can always be found
* `Trace.WellOrdered.loopOf?_spec` - it is known by an earlier event of the same thread
-/

namespace Inquest

/-- Whether an event of this kind opens a block of its own. -/
def EventKind.canControl : EventKind → Bool
  | .invocation | .branch | .exceptionThrown | .startMethod => true
  | _ => false

theorem NodeKind.isBlock_ofEvent (kind : EventKind) (calleeRecorded : Bool) :
    (NodeKind.ofEvent kind calleeRecorded).isBlock = kind.canControl := by
  cases kind <;> rfl

/-! ### The first event of a thread -/

namespace Index

/-- What the index knows about the first events of threads after some of the records. -/
structure KnowsFirst (events : Array Record) (count : Nat) (ix : Index) : Prop where
  size : ix.size = count
  /-- A first event is an event of its thread. -/
  sound : ∀ {thread : ThreadId} {first : EventId}, ix.firstInThread[thread]? = some first →
    first.index < count ∧ ∃ r, events[first.index]? = some r ∧ r.thread = thread
  /-- No event of a thread comes before the first one. -/
  least : ∀ {index : Nat} {r : Record}, index < count → events[index]? = some r →
    ∃ first, ix.firstInThread[r.thread]? = some first ∧ first.index ≤ index

theorem firstInThread_push (p : Program) (ix : Index) (r : Record) :
    (ix.push p r).firstInThread = ix.firstInThread.insertIfNew r.thread ⟨ix.size⟩ := by
  unfold push
  cases r.startedMethod? p <;> cases r.instantiated? p <;> rfl

variable {events : Array Record} {count : Nat} {ix : Index} {r : Record}

theorem knowsFirst_empty : KnowsFirst events 0 {} := by
  refine ⟨rfl, fun found => ?_, fun before => absurd before (Nat.not_lt_zero _)⟩
  rw [Std.TreeMap.getElem?_emptyc] at found
  cases found

/-- One more record is taken in. -/
theorem KnowsFirst.push (knows : KnowsFirst events count ix) (next : events[count]? = some r)
    (p : Program) : KnowsFirst events (count + 1) (ix.push p r) := by
  have lookup : ∀ thread, (ix.push p r).firstInThread[thread]? =
      if compare r.thread thread = .eq ∧ ¬ r.thread ∈ ix.firstInThread then some ⟨count⟩
      else ix.firstInThread[thread]? := by
    intro thread
    rw [firstInThread_push, Std.TreeMap.getElem?_insertIfNew, knows.size]
  refine ⟨by rw [size_push, knows.size], fun {thread first} found => ?_,
    fun {index s} before read => ?_⟩
  · rw [lookup] at found
    split at found
    · next new =>
      cases found
      exact ⟨Nat.lt_succ_self count, r, next, Ident.compare_eq_iff.1 new.1⟩
    · obtain ⟨inside, recorded⟩ := knows.sound found
      exact ⟨Nat.lt_succ_of_lt inside, recorded⟩
  · rw [lookup]
    rcases Nat.lt_succ_iff_lt_or_eq.1 before with earlier | rfl
    · obtain ⟨first, known, below⟩ := knows.least earlier read
      have old : ¬ (compare r.thread s.thread = .eq ∧ ¬ r.thread ∈ ix.firstInThread) := by
        rintro ⟨same, unknown⟩
        rw [← Ident.compare_eq_iff.1 same] at known
        exact unknown (Std.TreeMap.mem_iff_isSome_getElem?.2 (by rw [known]; rfl))
      rw [if_neg old]
      exact ⟨first, known, below⟩
    · rw [next, Option.some.injEq] at read
      subst read
      cases known : ix.firstInThread[r.thread]? with
      | none =>
        have new : ¬ r.thread ∈ ix.firstInThread := fun member => by
          rw [Std.TreeMap.mem_iff_isSome_getElem?, known] at member
          cases member
        rw [if_pos ⟨Ident.compare_eq_iff.2 rfl, new⟩]
        exact ⟨_, rfl, Nat.le_refl _⟩
      | some first =>
        have old : r.thread ∈ ix.firstInThread :=
          Std.TreeMap.mem_iff_isSome_getElem?.2 (by rw [known]; rfl)
        rw [if_neg fun new => new.2 old]
        exact ⟨first, rfl, Nat.le_of_lt (knows.sound known).1⟩

theorem knowsFirst_ofEvents (p : Program) (events : Array Record) :
    KnowsFirst events events.size (ofEvents p events) := by
  unfold ofEvents
  refine Array.foldl_induction (fun count ix => KnowsFirst events count ix) knowsFirst_empty ?_
  intro index ix knows
  exact knows.push (by simp) p

end Index

namespace Trace

variable {t : Trace} {c : Config} {e f k : EventId} {r : Record}

/-- Every recorded thread has a first event, and no event of the thread comes before it. -/
theorem firstInThread?_of_record? (recorded : t.record? e = some r) :
    ∃ first, t.firstInThread? r.thread = some first ∧ first ≤ e := by
  have inside : e.index < t.events.size := (Array.getElem?_eq_some_iff.1 recorded).1
  unfold firstInThread?
  rw [t.index_eq]
  exact (Index.knowsFirst_ofEvents t.program t.events).least inside recorded

/-- The first event of a thread is an event of that thread. -/
theorem record?_of_firstInThread? {thread : ThreadId} (first : t.firstInThread? thread = some f) :
    ∃ r, t.record? f = some r ∧ r.thread = thread := by
  unfold firstInThread? at first
  rw [t.index_eq] at first
  exact ((Index.knowsFirst_ofEvents t.program t.events).sound first).2

/-! ### Well-ordered recordings -/

/-- Whether the references of the record of an event name earlier and recorded events. -/
def inOrder (size : Nat) (e : EventId) (r : Record) : Bool :=
  r.control.all (· < e) && r.operands.all (·.index < size) && r.heap.all (·.index < size) &&
    r.opaqueArguments.all (·.index < size)

/-- Every reference of a record names a recorded event, and controls come first. -/
structure WellOrdered (t : Trace) : Prop where
  control : ∀ {e r k}, t.record? e = some r → r.control = some k → k < e
  operand : ∀ {e r o}, t.record? e = some r → o ∈ r.operands → o.index < t.size
  heap : ∀ {e r o}, t.record? e = some r → r.heap = some o → o.index < t.size
  opaqueArgument : ∀ {e r o}, t.record? e = some r → o ∈ r.opaqueArguments → o.index < t.size

theorem wellOrdered_iff :
    t.WellOrdered ↔ ∀ index < t.size, (t.record? ⟨index⟩).all (inOrder t.size ⟨index⟩) = true := by
  simp only [Option.all_eq_true, inOrder, Bool.and_eq_true, List.all_eq_true, decide_eq_true_eq]
  constructor
  · intro ordered index _ r recorded
    exact ⟨⟨⟨fun k controlled => ordered.control recorded controlled,
      fun o listed => ordered.operand recorded listed⟩,
      fun o written => ordered.heap recorded written⟩,
      fun o listed => ordered.opaqueArgument recorded listed⟩
  · intro ordered
    have inOrder : ∀ {e r}, t.record? e = some r → _ := fun {e r} recorded =>
      ordered e.index (Array.getElem?_eq_some_iff.1 recorded).1 r recorded
    exact ⟨fun recorded controlled => (inOrder recorded).1.1.1 _ controlled,
      fun recorded listed => (inOrder recorded).1.1.2 _ listed,
      fun recorded written => (inOrder recorded).1.2 _ written,
      fun recorded listed => (inOrder recorded).2 _ listed⟩

instance (t : Trace) : Decidable t.WellOrdered := decidable_of_iff' _ wellOrdered_iff

theorem record?_of_lt (inside : e.index < t.size) : ∃ r, t.record? e = some r :=
  ⟨_, Array.getElem?_eq_getElem inside⟩

theorem lt_size_of_record? (recorded : t.record? e = some r) : e.index < t.size :=
  (Array.getElem?_eq_some_iff.1 recorded).1

theorem read_eq_ok_iff : t.read e = .ok r ↔ t.record? e = some r := by
  unfold read
  cases t.record? e <;> simp

theorem read_of_record? (recorded : t.record? e = some r) : t.read e = .ok r :=
  read_eq_ok_iff.2 recorded

/-- Every field of a record can be read. -/
theorem map_read_of_record? {α : Type} (recorded : t.record? e = some r) (field : Record → α) :
    field <$> t.read e = .ok (field r) := by
  rw [read_of_record? recorded]
  rfl

/-- The event that decided that an event happens. -/
def controlOf? (t : Trace) (e : EventId) : Option EventId := (t.record? e).bind Record.control

/-- The event by which the loop is known that an event iterates. -/
def loopOf? (t : Trace) (c : Config) (e : EventId) : Option EventId :=
  (t.controlOf? e).bind fun k =>
    match t.loopHead c e k with
    | .ok first => first
    | .error _ => none

/-- The event that an event waits for, before it can be put into its block: the start of its loop,
or else its control. -/
def needs? (t : Trace) (c : Config) (e : EventId) : Option EventId :=
  (t.loopOf? c e).or (t.controlOf? e)

theorem controlOf?_of_record? (recorded : t.record? e = some r) (controlled : r.control = some k) :
    t.controlOf? e = some k := by
  rw [controlOf?, recorded]
  exact controlled

theorem needs?_of_loopOf? {f : EventId} (loop : t.loopOf? c e = some f) :
    t.needs? c e = some f := by
  rw [needs?, loop, Option.some_or]

theorem needs?_of_controlOf? (noLoop : t.loopOf? c e = none) (control : t.controlOf? e = some k) :
    t.needs? c e = some k := by
  rw [needs?, noLoop, Option.none_or, control]

theorem WellOrdered.record?_control (ordered : t.WellOrdered) (recorded : t.record? e = some r)
    (controlled : r.control = some k) : ∃ s, t.record? k = some s :=
  record?_of_lt (Nat.lt_trans (ordered.control recorded controlled) (lt_size_of_record? recorded))

theorem firstExecution_found {instruction : InstructionId} {thread : ThreadId}
    (found : t.firstExecution instruction thread k = some f) :
    f ≤ k ∧ ∃ s, t.record? f = some s ∧ s.thread = thread := by
  obtain ⟨first, -, found⟩ := Option.bind_eq_some_iff.1 found
  obtain ⟨s, recorded, meets, -, below⟩ := findBetween_found found
  simp only [Bool.and_eq_true, decide_eq_true_eq] at meets
  exact ⟨below, s, recorded, meets.1⟩

/-- The loop of an event, if it iterates one, is known by an event of its thread that is not after
its control. -/
theorem loopHead_cases {s : Record} (recorded : t.record? e = some r)
    (deciding : t.record? k = some s) :
    t.loopHead c e k = .ok none ∨
      ∃ f, t.loopHead c e k = .ok (some f) ∧ f ≤ k ∧
        ∃ u, t.record? f = some u ∧ u.thread = r.thread := by
  unfold loopHead
  rw [read_of_record? recorded, read_of_record? deciding]
  by_cases collapse : c.collapseLoops = true
  · by_cases branch : s.kind.isBranch = true
    · by_cases same : s.thread = r.thread
      · simp only [collapse, if_true, bind, Except.bind, branch, same]
        split
        · next branch target _ _ =>
          split
          · refine .inr ⟨_, rfl, ?_⟩
            cases found : t.firstExecution branch.id r.thread k with
            | none => exact ⟨Nat.le_refl _, s, deciding, same⟩
            | some f => exact firstExecution_found found
          · exact .inl rfl
        · exact .inl rfl
      · simp [collapse, bind, Except.bind, branch, same]
    · simp [collapse, bind, Except.bind, branch]
  · simp [collapse]

namespace WellOrdered

variable (ordered : t.WellOrdered)

include ordered

/-- The loop of an event can be found. -/
theorem loopHead_eq_ok (c : Config) (recorded : t.record? e = some r)
    (controlled : r.control = some k) : t.loopHead c e k = .ok (t.loopOf? c e) := by
  obtain ⟨s, deciding⟩ := ordered.record?_control recorded controlled
  have control := controlOf?_of_record? recorded controlled
  rw [loopOf?, control, Option.bind_some]
  rcases loopHead_cases (c := c) recorded deciding with none | ⟨f, some, -⟩
  · rw [none]
  · rw [some]

/-- The loop of an event is known by an event of the same thread that comes before it. -/
theorem loopOf?_spec (recorded : t.record? e = some r) (loop : t.loopOf? c e = some f) :
    f < e ∧ ∃ s, t.record? f = some s ∧ s.thread = r.thread := by
  cases controlled : r.control with
  | none => simp [loopOf?, controlOf?, recorded, controlled] at loop
  | some k =>
    obtain ⟨s, deciding⟩ := ordered.record?_control recorded controlled
    have head := ordered.loopHead_eq_ok c recorded controlled
    rw [loop] at head
    rcases loopHead_cases (c := c) recorded deciding with none | ⟨f', some, below, first⟩
    · rw [none] at head
      cases head
    · rw [some] at head
      cases head
      exact ⟨Nat.lt_of_le_of_lt below (ordered.control recorded controlled), first⟩

/-- Events wait for earlier events only. -/
theorem needs?_lt (recorded : t.record? e = some r) (needed : t.needs? c e = some k) : k < e := by
  rcases Option.or_eq_some_iff.1 needed with loop | ⟨-, control⟩
  · exact (ordered.loopOf?_spec recorded loop).1
  · rw [controlOf?, recorded] at control
    exact ordered.control recorded control

end WellOrdered

end Trace

end Inquest
