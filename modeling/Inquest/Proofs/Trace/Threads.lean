import Mathlib.Order.Bounds.Defs
import Inquest.Proofs.Trace.Order
import Inquest.Proofs.Trace.Recording

/-!
# Look-ups in the index of a recording

One pass over the records fills several tables at once.  The events of a thread are linked by what
was last on the thread when the next record came in, the invocations of a method are collected in a
list, and the class of an object is overwritten whenever the object is made again.  Other threads
record in between, and instructions that the program does not have are passed over.

Each table is what a plain look at the records gives.  For the links this takes an invariant about
two tables: what is last on a thread is its latest event so far, and so it is the only event of the
thread that has no later one yet.

## Main Definitions

* `Visits` - following a function leads through the listed events and comes to an end
* `Trace.OnThread`, `Trace.threadEvents` - the events of a thread
* `Record.Starts`, `Record.Instantiates` - what makes an event the start of an invocation of a
  method, or the instantiation of a class
* `Trace.allocations` - the events at which an object was made

## Main Statements

* `visits_after` - how an ascending list is visited
* `Index.knowsNext_ofEvents`, `Index.knowsClasses_ofEvents` - the invariants of the pass
* `Trace.nextInThread?_eq`, `Trace.firstInThread?_eq` - the links of a thread
* `Recorder.lookups_eq_scan` - the look-ups in a recording
-/

namespace Inquest

/-! ### Following a function -/

/-- Following `next` leads through the listed events, one after the other, and comes to an end after
the last one. -/
inductive Visits (next : EventId → Option EventId) : Option EventId → List EventId → Prop
  | stop : Visits next none []
  | step {e : EventId} {rest : List EventId} :
      Visits next (next e) rest → Visits next (some e) (e :: rest)

section Visits

variable {next : EventId → Option EventId} {l : List EventId} {e : EventId}

/-- In an ascending list, what comes after the first element are the other ones. -/
theorem filter_lt_head {rest : List EventId} (ascending : (e :: rest).Pairwise (· < ·)) :
    (e :: rest).filter (e < ·) = rest := by
  obtain ⟨above, -⟩ := List.pairwise_cons.1 ascending
  rw [List.filter_cons_of_neg (by simp [Ident.lt_def]), List.filter_eq_self]
  intro e' listed
  exact decide_eq_true (above e' listed)

/-- An ascending list is visited if each of its events leads to the first of the later ones. -/
theorem visits_ascending (ascending : l.Pairwise (· < ·))
    (leads : ∀ e ∈ l, next e = (l.filter (e < ·)).head?) : Visits next l.head? l := by
  induction l with
  | nil => exact .stop
  | cons e rest ih =>
    obtain ⟨above, ascending'⟩ := List.pairwise_cons.1 ascending
    apply Visits.step
    rw [leads e List.mem_cons_self, filter_lt_head ascending]
    apply ih ascending'
    intro e' listed
    -- the first event is not later than the ones behind it
    have early : ¬ e' < e := Nat.lt_asymm (above e' listed)
    rw [leads e' (List.mem_cons_of_mem e listed), List.filter_cons_of_neg (by simp [early])]

/-- From any event that leads to the first of the later ones, these are visited. -/
theorem visits_after (ascending : l.Pairwise (· < ·))
    (leads : ∀ e ∈ l, next e = (l.filter (e < ·)).head?)
    (here : next e = (l.filter (e < ·)).head?) : Visits next (next e) (l.filter (e < ·)) := by
  rw [here]
  apply visits_ascending (ascending.filter _)
  intro e' listed
  obtain ⟨listed, later⟩ := List.mem_filter.1 listed
  rw [leads e' listed, List.filter_filter]
  refine congrArg List.head? (List.filter_congr fun x _ => ?_)
  have later : e < e' := of_decide_eq_true later
  have both : e' < x → e < x := Nat.lt_trans later
  simpa using both

end Visits

/-! ### The links of a thread -/

namespace Index

variable {p : Program} {events : Array Record} {count : Nat} {ix : Index} {r : Record}

theorem lastInThread_push (p : Program) (ix : Index) (r : Record) :
    (ix.push p r).lastInThread = ix.lastInThread.insert r.thread ⟨ix.size⟩ := by
  unfold push
  cases r.startedMethod? p <;> cases r.instantiated? p <;> rfl

/-- One more record is linked to what was last on its thread. -/
theorem nextInThread_push (p : Program) (ix : Index) (r : Record) (e : EventId) :
    (ix.push p r).nextInThread[e]? =
      if ix.lastInThread[r.thread]? = some e then some ⟨ix.size⟩ else ix.nextInThread[e]? := by
  have linked : (ix.push p r).nextInThread =
      (ix.pushThread ⟨ix.size⟩ r.thread).nextInThread := by
    unfold push
    cases r.startedMethod? p <;> cases r.instantiated? p <;> rfl
  rw [linked, pushThread]
  cases ix.lastInThread[r.thread]? with
  | none => simp
  | some previous => simp [Std.TreeMap.getElem?_insert]

/-- What the index knows about the links of threads after some of the records. -/
structure KnowsNext (events : Array Record) (count : Nat) (ix : Index) : Prop where
  size : ix.size = count
  /-- What is last on a thread is an event of the thread. -/
  lastSound : ∀ {thread : ThreadId} {last : EventId}, ix.lastInThread[thread]? = some last →
    last.index < count ∧ ∃ r, events[last.index]? = some r ∧ r.thread = thread
  /-- No event of a thread comes after the last one. -/
  greatest : ∀ {index : Nat} {r : Record}, index < count → events[index]? = some r →
    ∃ last, ix.lastInThread[r.thread]? = some last ∧ index ≤ last.index
  /-- A link leads to a later event of the same thread. -/
  nextSound : ∀ {e e' : EventId}, ix.nextInThread[e]? = some e' → e < e' ∧ e'.index < count ∧
    ∃ r r', events[e.index]? = some r ∧ events[e'.index]? = some r' ∧ r'.thread = r.thread
  /-- A link does not lead past an event of the thread. -/
  least : ∀ {e e' : EventId} {r r' : Record}, e < e' → e'.index < count →
    events[e.index]? = some r → events[e'.index]? = some r' → r'.thread = r.thread →
    ∃ next, ix.nextInThread[e]? = some next ∧ next ≤ e'

theorem knowsNext_empty : KnowsNext events 0 {} := by
  refine ⟨rfl, fun found => ?_, fun before => absurd before (Nat.not_lt_zero _), fun found => ?_,
    fun _ before => absurd before (Nat.not_lt_zero _)⟩
  · rw [Std.TreeMap.getElem?_emptyc] at found
    cases found
  · rw [Std.TreeMap.getElem?_emptyc] at found
    cases found

namespace KnowsNext

variable (knows : KnowsNext events count ix) (next : events[count]? = some r)

include knows

/-- The last events of the threads after one more record. -/
theorem lastInThread_push_eq (p : Program) (r : Record) (thread : ThreadId) :
    (ix.push p r).lastInThread[thread]? =
      if r.thread = thread then some ⟨count⟩ else ix.lastInThread[thread]? := by
  rw [lastInThread_push, Std.TreeMap.getElem?_insert, knows.size]
  simp only [Ident.compare_eq_iff]

include next

theorem push_greatest (p : Program) {index : Nat} {s : Record} (before : index < count + 1)
    (read : events[index]? = some s) :
    ∃ last, (ix.push p r).lastInThread[s.thread]? = some last ∧ index ≤ last.index := by
  rw [knows.lastInThread_push_eq p r]
  split
  · exact ⟨_, rfl, Nat.le_of_lt_succ before⟩
  · next other =>
    apply knows.greatest _ read
    refine Nat.lt_of_le_of_ne (Nat.le_of_lt_succ before) fun same => other ?_
    rw [same, next, Option.some.injEq] at read
    rw [read]

theorem push_least (p : Program) {e e' : EventId} {s s' : Record} (later : e < e')
    (before : e'.index < count + 1) (read : events[e.index]? = some s)
    (read' : events[e'.index]? = some s') (same : s'.thread = s.thread) :
    ∃ link, (ix.push p r).nextInThread[e]? = some link ∧ link ≤ e' := by
  have later := Ident.lt_def.1 later
  rw [nextInThread_push, knows.size]
  rcases Nat.lt_succ_iff_lt_or_eq.1 before with earlier | latest
  · -- an event with a later one on its thread is not the last one there
    have notLast : ix.lastInThread[r.thread]? ≠ some e := by
      intro last
      obtain ⟨-, s₀, read₀, thread⟩ := knows.lastSound last
      obtain rfl := Option.some.inj (read.symm.trans read₀)
      obtain ⟨last', known, above⟩ := knows.greatest earlier read'
      rw [same, thread, last, Option.some.injEq] at known
      rw [← known] at above
      omega
    rw [if_neg notLast]
    exact knows.least later earlier read read' same
  · obtain rfl : s' = r := by
      rw [latest, next, Option.some.injEq] at read'
      exact read'.symm
    obtain ⟨last, known, above⟩ := knows.greatest (by omega) read
    rw [same, known]
    by_cases isLast : last = e
    · rw [if_pos (congrArg some isLast)]
      exact ⟨_, rfl, Nat.le_of_eq latest.symm⟩
    · -- what is linked already leads no further than to the last event so far
      obtain ⟨inside, s₀, read₀, thread⟩ := knows.lastSound known
      have unequal : e.index ≠ last.index := fun equal => isLast (Ident.ext equal.symm)
      obtain ⟨link, linked, below⟩ := knows.least (Ident.lt_def.2 (by omega)) inside read read₀
        thread
      have below := Ident.le_def.1 below
      rw [if_neg fun last' => isLast (Option.some.inj last')]
      exact ⟨link, linked, Ident.le_def.2 (by omega)⟩

/-- One more record is taken in. -/
theorem push (p : Program) : KnowsNext events (count + 1) (ix.push p r) := by
  refine ⟨by rw [size_push, knows.size], fun {thread last} found => ?_,
    fun before read => knows.push_greatest next p before read, fun {e e'} found => ?_,
    fun later before read read' same => knows.push_least next p later before read read' same⟩
  · rw [knows.lastInThread_push_eq p r] at found
    split at found
    · next same =>
      cases found
      exact ⟨Nat.lt_succ_self count, r, next, same⟩
    · obtain ⟨inside, recorded⟩ := knows.lastSound found
      exact ⟨Nat.lt_succ_of_lt inside, recorded⟩
  · rw [nextInThread_push, knows.size] at found
    split at found
    · next last =>
      cases found
      obtain ⟨inside, s, read, thread⟩ := knows.lastSound last
      exact ⟨inside, Nat.lt_succ_self count, s, r, read, next, thread.symm⟩
    · obtain ⟨later, inside, linked⟩ := knows.nextSound found
      exact ⟨later, Nat.lt_succ_of_lt inside, linked⟩

end KnowsNext

theorem knowsNext_ofEvents (p : Program) (events : Array Record) :
    KnowsNext events events.size (ofEvents p events) := by
  unfold ofEvents
  refine Array.foldl_induction (fun count ix => KnowsNext events count ix) knowsNext_empty ?_
  intro index ix knows
  exact knows.push (by simp) p

end Index

namespace Trace

variable {t : Trace} {thread : ThreadId} {e e' : EventId} {r r' : Record}

/-- An event happened on a thread. -/
def OnThread (t : Trace) (thread : ThreadId) (e : EventId) : Prop :=
  ∃ r, t.record? e = some r ∧ r.thread = thread

/-- The events of a thread, in ascending order. -/
def threadEvents (t : Trace) (thread : ThreadId) : List EventId :=
  t.eventsWhere (·.thread = thread)

theorem mem_threadEvents : e ∈ t.threadEvents thread ↔ t.OnThread thread e := by
  simp only [threadEvents, mem_eventsWhere, decide_eq_true_eq, OnThread]

theorem pairwise_threadEvents (t : Trace) (thread : ThreadId) :
    (t.threadEvents thread).Pairwise (· < ·) :=
  t.pairwise_eventsWhere _

theorem mem_later :
    e' ∈ (t.threadEvents thread).filter (e < ·) ↔ e < e' ∧ t.OnThread thread e' := by
  rw [List.mem_filter, mem_threadEvents, decide_eq_true_eq, and_comm]

/-- A link leads to a later event of the same thread. -/
theorem nextInThread?_sound (recorded : t.record? e = some r)
    (linked : t.nextInThread? e = some e') : e < e' ∧ t.OnThread r.thread e' := by
  unfold nextInThread? at linked
  rw [t.index_eq] at linked
  obtain ⟨later, -, s, s', read, read', same⟩ :=
    (Index.knowsNext_ofEvents t.program t.events).nextSound linked
  obtain rfl := Option.some.inj (recorded.symm.trans read)
  exact ⟨later, s', read', same⟩

/-- A link does not lead past an event of the thread. -/
theorem exists_nextInThread?_le (recorded : t.record? e = some r) (later : e < e')
    (there : t.OnThread r.thread e') : ∃ next, t.nextInThread? e = some next ∧ next ≤ e' := by
  obtain ⟨r', recorded', same⟩ := there
  unfold nextInThread?
  rw [t.index_eq]
  exact (Index.knowsNext_ofEvents t.program t.events).least later (lt_size_of_record? recorded')
    recorded recorded' same

/-- The link of an event is the least later event of its thread. -/
theorem nextInThread?_eq_some_iff (recorded : t.record? e = some r) :
    t.nextInThread? e = some e' ↔ IsLeast { e' | e < e' ∧ t.OnThread r.thread e' } e' := by
  constructor
  · intro linked
    refine ⟨nextInThread?_sound recorded linked, fun f candidate => ?_⟩
    obtain ⟨next, linked', below⟩ := exists_nextInThread?_le recorded candidate.1 candidate.2
    exact Option.some.inj (linked.symm.trans linked') ▸ below
  · rintro ⟨⟨later, there⟩, least⟩
    obtain ⟨next, linked, below⟩ := exists_nextInThread?_le recorded later there
    have above := least (nextInThread?_sound recorded linked)
    rw [linked, Ident.ext (Nat.le_antisymm below above)]

/-- An event without a link is the last one of its thread. -/
theorem nextInThread?_eq_none_iff (recorded : t.record? e = some r) :
    t.nextInThread? e = none ↔ ∀ e', e < e' → ¬ t.OnThread r.thread e' := by
  constructor
  · intro unlinked e' later there
    obtain ⟨next, linked, -⟩ := exists_nextInThread?_le recorded later there
    cases unlinked.symm.trans linked
  · intro nothing
    refine Option.eq_none_iff_forall_ne_some.2 fun e' linked => ?_
    obtain ⟨later, there⟩ := nextInThread?_sound recorded linked
    exact nothing e' later there

theorem nextInThread?_eq (recorded : t.record? e = some r) :
    t.nextInThread? e = ((t.threadEvents r.thread).filter (e < ·)).head? := by
  ext e'
  rw [nextInThread?_eq_some_iff recorded,
    Ident.head?_eq_some_iff ((t.pairwise_threadEvents r.thread).filter _)]
  simp only [mem_later]
  rfl

theorem firstInThread?_eq (t : Trace) (thread : ThreadId) :
    t.firstInThread? thread = (t.threadEvents thread).head? := by
  ext first
  rw [Ident.head?_eq_some_iff (t.pairwise_threadEvents thread)]
  simp only [mem_threadEvents]
  constructor
  · intro isFirst
    refine ⟨record?_of_firstInThread? isFirst, fun e there => ?_⟩
    obtain ⟨r, recorded, same⟩ := there
    obtain ⟨first', isFirst', below⟩ := firstInThread?_of_record? recorded
    rw [same, isFirst, Option.some.injEq] at isFirst'
    exact isFirst' ▸ below
  · rintro ⟨⟨r, recorded, rfl⟩, least⟩
    obtain ⟨first', isFirst, below⟩ := firstInThread?_of_record? recorded
    have above := least first' (record?_of_firstInThread? isFirst)
    rw [isFirst, Ident.ext (Nat.le_antisymm below above)]

/-- Every event of a thread leads to the first of the later ones. -/
theorem nextInThread?_eq_of_mem (listed : e ∈ t.threadEvents thread) :
    t.nextInThread? e = ((t.threadEvents thread).filter (e < ·)).head? := by
  obtain ⟨r, recorded, rfl⟩ := mem_threadEvents.1 listed
  exact nextInThread?_eq recorded

/-- The links from the first event of a thread on lead through all its events. -/
theorem visits_threadEvents (t : Trace) (thread : ThreadId) :
    Visits t.nextInThread? (t.firstInThread? thread) (t.threadEvents thread) := by
  rw [firstInThread?_eq]
  exact visits_ascending (t.pairwise_threadEvents thread) fun e => nextInThread?_eq_of_mem

/-- The links from any event on lead through the later events of its thread. -/
theorem visits_nextInThread? (recorded : t.record? e = some r) :
    Visits t.nextInThread? (t.nextInThread? e) ((t.threadEvents r.thread).filter (e < ·)) :=
  visits_after (t.pairwise_threadEvents r.thread) (fun _ => nextInThread?_eq_of_mem)
    (nextInThread?_eq recorded)

end Trace

/-! ### Invocations and instances -/

namespace Record

variable {p : Program} {r : Record} {method : MethodId} {c : ClassId}

/-- An event with this record starts an invocation of a method. -/
def Starts (p : Program) (r : Record) (method : MethodId) : Prop :=
  r.kind = .startMethod ∧ ∃ i, p.instruction? r.instruction = some i ∧ i.method = method

/-- An event with this record makes an instance of a class. -/
def Instantiates (p : Program) (r : Record) (c : ClassId) : Prop :=
  r.kind = .instantiation ∧ ∃ i, p.instruction? r.instruction = some i ∧ i.kind = .instantiate c

theorem startedMethod?_eq_some_iff : r.startedMethod? p = some method ↔ r.Starts p method := by
  unfold startedMethod? Starts
  cases r.kind <;> simp

theorem instantiated?_eq_some_iff : r.instantiated? p = some c ↔ r.Instantiates p c := by
  unfold instantiated? Instantiates
  cases p.instruction? r.instruction with
  | none => cases r.kind <;> simp
  | some i => cases kind : i.kind <;> cases r.kind <;> simp [kind]

/-- Whether an event with this record makes an object. -/
def allocates (p : Program) (o : ObjectId) (r : Record) : Bool :=
  (r.instantiated? p).isSome && r.object = some o

end Record

namespace Index

variable {p : Program} {events : Array Record} {count : Nat} {ix : Index} {r : Record}

theorem objectClass_push (p : Program) (ix : Index) (r : Record) (o : ObjectId) :
    (ix.push p r).objectClass[o]? =
      if r.allocates p o then r.instantiated? p else ix.objectClass[o]? := by
  unfold push Record.allocates
  cases r.instantiated? p with
  | none => cases r.startedMethod? p <;> simp [pushThread, pushInvocation]
  | some c =>
    cases r.object with
    | none => cases r.startedMethod? p <;> simp [pushThread, pushInvocation, pushInstance]
    | some o' =>
      cases r.startedMethod? p <;>
        simp [pushThread, pushInvocation, pushInstance, Std.TreeMap.getElem?_insert]

theorem mem_instantiated_push (p : Program) (ix : Index) (r : Record) (c : ClassId) :
    c ∈ (ix.push p r).instantiated ↔ r.instantiated? p = some c ∨ c ∈ ix.instantiated := by
  unfold push
  cases r.instantiated? p with
  | none => cases r.startedMethod? p <;> simp [pushThread, pushInvocation]
  | some c' =>
    cases r.startedMethod? p <;> simp [pushThread, pushInvocation, pushInstance, eq_comm]

/-- What the index knows about objects and their classes after some of the records. -/
structure KnowsClasses (p : Program) (events : Array Record) (count : Nat) (ix : Index) :
    Prop where
  /-- The class of an object is that of the last event that made it. -/
  objectClass : ∀ o, ix.objectClass[o]? =
    ((((List.range count).map Ident.mk).filter fun e : EventId =>
      events[e.index]?.any (Record.allocates p o)).getLast?).bind fun e =>
        events[e.index]?.bind (·.instantiated? p)
  instantiated : ∀ c, c ∈ ix.instantiated ↔
    ∃ index < count, ∃ r, events[index]? = some r ∧ r.instantiated? p = some c

theorem knowsClasses_empty : KnowsClasses p events 0 {} := by
  refine ⟨fun o => ?_, fun c => ?_⟩
  · rw [Std.TreeMap.getElem?_emptyc]
    rfl
  · simp only [Nat.not_lt_zero, false_and, exists_false, iff_false]
    exact IdentSet.not_mem_empty

/-- One more record is taken in. -/
theorem KnowsClasses.push (knows : KnowsClasses p events count ix)
    (next : events[count]? = some r) : KnowsClasses p events (count + 1) (ix.push p r) := by
  refine ⟨fun o => ?_, fun c => ?_⟩
  · rw [objectClass_push, List.range_succ, List.map_append, List.filter_append]
    split
    · next made => simp [next, made]
    · next other => simp [next, other, knows.objectClass]
  · rw [mem_instantiated_push, knows.instantiated]
    constructor
    · rintro (made | ⟨index, before, recorded⟩)
      · exact ⟨count, Nat.lt_succ_self count, r, next, made⟩
      · exact ⟨index, Nat.lt_succ_of_lt before, recorded⟩
    · rintro ⟨index, before, s, read, made⟩
      rcases Nat.lt_succ_iff_lt_or_eq.1 before with earlier | rfl
      · exact .inr ⟨index, earlier, s, read, made⟩
      · rw [next, Option.some.injEq] at read
        exact .inl (read ▸ made)

theorem knowsClasses_ofEvents (p : Program) (events : Array Record) :
    KnowsClasses p events events.size (ofEvents p events) := by
  unfold ofEvents
  refine Array.foldl_induction (fun count ix => KnowsClasses p events count ix)
    knowsClasses_empty ?_
  intro index ix knows
  exact knows.push (by simp)

end Index

namespace Trace

variable {t : Trace} {e before : EventId} {method : MethodId} {o : ObjectId} {c : ClassId}

theorem mem_invocationsOf : e ∈ t.invocationsOf method before ↔
    e < before ∧ ∃ r, t.record? e = some r ∧ r.Starts t.program method := by
  rw [invocationsOf_eq_filter, List.mem_filter, mem_eventsWhere]
  simp only [decide_eq_true_eq, Record.startedMethod?_eq_some_iff]
  exact and_comm

/-- The events at which an object was made. -/
def allocations (t : Trace) (o : ObjectId) : Set EventId :=
  { e | ∃ r c, t.record? e = some r ∧ r.Instantiates t.program c ∧ r.object = some o }

theorem mem_eventsWhere_allocates :
    e ∈ t.eventsWhere (Record.allocates t.program o) ↔ e ∈ t.allocations o := by
  rw [mem_eventsWhere]
  simp only [Record.allocates, Bool.and_eq_true, decide_eq_true_eq, Option.isSome_iff_exists,
    Record.instantiated?_eq_some_iff]
  constructor
  · rintro ⟨r, recorded, ⟨c, made⟩, object⟩
    exact ⟨r, c, recorded, made, object⟩
  · rintro ⟨r, c, recorded, made, object⟩
    exact ⟨r, recorded, ⟨c, made⟩, object⟩

theorem classOf?_eq (t : Trace) (o : ObjectId) :
    t.classOf? o = ((t.eventsWhere (Record.allocates t.program o)).getLast?).bind fun e =>
      (t.record? e).bind (·.instantiated? t.program) := by
  unfold classOf?
  rw [t.index_eq, (Index.knowsClasses_ofEvents t.program t.events).objectClass o]
  rfl

/-- The class of an object is the one that was instantiated when the object was made last. -/
theorem classOf?_eq_some_iff : t.classOf? o = some c ↔ ∃ e r,
    IsGreatest (t.allocations o) e ∧ t.record? e = some r ∧ r.Instantiates t.program c := by
  have last : ∀ {e}, (t.eventsWhere (Record.allocates t.program o)).getLast? = some e ↔
      IsGreatest (t.allocations o) e := by
    intro e
    rw [Ident.getLast?_eq_some_iff (t.pairwise_eventsWhere _)]
    simp only [mem_eventsWhere_allocates]
    rfl
  simp only [classOf?_eq, Option.bind_eq_some_iff, last, Record.instantiated?_eq_some_iff]
  constructor
  · rintro ⟨e, greatest, r, recorded, made⟩
    exact ⟨e, r, greatest, recorded, made⟩
  · rintro ⟨e, r, greatest, recorded, made⟩
    exact ⟨e, greatest, r, recorded, made⟩

/-- An object of no class was never made. -/
theorem classOf?_eq_none_iff : t.classOf? o = none ↔ ∀ e, e ∉ t.allocations o := by
  constructor
  · intro unknown e made
    obtain ⟨last, isLast⟩ : ∃ last,
        (t.eventsWhere (Record.allocates t.program o)).getLast? = some last :=
      Option.isSome_iff_exists.1
        (List.getLast?_isSome.2 (List.ne_nil_of_mem (mem_eventsWhere_allocates.2 made)))
    obtain ⟨r, c, recorded, made, -⟩ := mem_eventsWhere_allocates.1 (List.mem_of_getLast? isLast)
    rw [classOf?_eq, isLast, Option.bind_some, recorded, Option.bind_some,
      Record.instantiated?_eq_some_iff.2 made] at unknown
    cases unknown
  · intro nothing
    refine Option.eq_none_iff_forall_ne_some.2 fun c known => ?_
    obtain ⟨e, r, greatest, -⟩ := classOf?_eq_some_iff.1 known
    exact nothing e greatest.1

theorem isInstantiated_iff :
    t.isInstantiated c = true ↔ ∃ e r, t.record? e = some r ∧ r.Instantiates t.program c := by
  rw [isInstantiated, decide_eq_true_eq, t.index_eq,
    (Index.knowsClasses_ofEvents t.program t.events).instantiated c]
  simp only [Record.instantiated?_eq_some_iff]
  constructor
  · rintro ⟨index, -, r, recorded, made⟩
    exact ⟨⟨index⟩, r, recorded, made⟩
  · rintro ⟨e, r, recorded, made⟩
    exact ⟨e.index, lt_size_of_record? recorded, r, recorded, made⟩

end Trace

/-! ### Recordings -/

namespace Recorder

/-- The look-ups in a recording give what a plain look at its records gives.  The next event of a
thread is the least later one, and following the links from the first event of a thread on leads
through all its events in ascending order.  The invocations of a method before an event are listed
in ascending order, and these are all the earlier events that start the method.  The class of an
object is that of the last instantiation that made it, and a class has instances exactly if an event
instantiates it. -/
theorem lookups_eq_scan (program : Program) (steps : List Step) (r : Recorder)
    (recorded : run program steps = .ok r) :
    (∀ e record, r.trace.record? e = some record →
      (∀ e', r.trace.nextInThread? e = some e' ↔
        IsLeast { e' | e < e' ∧ r.trace.OnThread record.thread e' } e') ∧
      (r.trace.nextInThread? e = none ↔
        ∀ e', e < e' → ¬ r.trace.OnThread record.thread e')) ∧
    (∀ thread, ∃ events : List EventId, events.Pairwise (· < ·) ∧
      (∀ e, e ∈ events ↔ r.trace.OnThread thread e) ∧
      Visits r.trace.nextInThread? (r.trace.firstInThread? thread) events) ∧
    (∀ method before, (r.trace.invocationsOf method before).Pairwise (· < ·) ∧
      ∀ e, e ∈ r.trace.invocationsOf method before ↔
        e < before ∧ ∃ record, r.trace.record? e = some record ∧ record.Starts program method) ∧
    (∀ o, (∀ c, r.trace.classOf? o = some c ↔ ∃ e record, IsGreatest (r.trace.allocations o) e ∧
        r.trace.record? e = some record ∧ record.Instantiates program c) ∧
      (r.trace.classOf? o = none ↔ ∀ e, e ∉ r.trace.allocations o)) ∧
    ∀ c, r.trace.isInstantiated c = true ↔
      ∃ e record, r.trace.record? e = some record ∧ record.Instantiates program c := by
  obtain rfl : r.trace.program = program := (report?_of_run recorded).1
  refine ⟨fun e record found => ?_, fun thread => ?_, fun method before => ?_, fun o => ?_,
    fun c => ?_⟩
  · exact ⟨fun e' => Trace.nextInThread?_eq_some_iff found, Trace.nextInThread?_eq_none_iff found⟩
  · exact ⟨_, r.trace.pairwise_threadEvents thread, fun e => Trace.mem_threadEvents,
      r.trace.visits_threadEvents thread⟩
  · exact ⟨r.trace.pairwise_invocationsOf method before, fun e => Trace.mem_invocationsOf⟩
  · exact ⟨fun c => Trace.classOf?_eq_some_iff, Trace.classOf?_eq_none_iff⟩
  · exact Trace.isInstantiated_iff

/-- A program with a method that makes a tool or a saw, and another one. -/
def workshopProgram : Program where
  classes := #[
    { id := ⟨0⟩, name := "Tool", superclass := none },
    { id := ⟨1⟩, name := "Saw", superclass := some ⟨0⟩ }]
  methods := #[
    { id := ⟨0⟩, declaringClass := ⟨0⟩, name := "make", isStatic := true,
      instructions := #[⟨0⟩, ⟨1⟩] },
    { id := ⟨1⟩, declaringClass := ⟨1⟩, name := "cut", isStatic := false, instructions := #[⟨2⟩] }]
  instructions := #[
    { id := ⟨0⟩, method := ⟨0⟩, position := 0, kind := .instantiate ⟨0⟩ },
    { id := ⟨1⟩, method := ⟨0⟩, position := 1, kind := .instantiate ⟨1⟩ },
    { id := ⟨2⟩, method := ⟨1⟩, position := 0, kind := .other }]

/-- Two threads make the same object, one of them a tool and later the other one a saw.  After that
the object is reported as made by an instruction that makes nothing, and by one that the program
does not have. -/
def workshopSteps : List Step := [
  .enter ⟨0⟩ ⟨0⟩ [] none,
  .push { kind := .instantiation, instruction := ⟨0⟩, object := some ⟨7⟩ },
  .enter ⟨1⟩ ⟨1⟩ [some ⟨7⟩] none,
  .push { kind := .instantiation, instruction := ⟨1⟩, thread := ⟨1⟩, object := some ⟨7⟩ },
  .push { kind := .instantiation, instruction := ⟨2⟩, object := some ⟨7⟩ },
  .enter ⟨0⟩ ⟨0⟩ [] none,
  .push { kind := .instantiation, instruction := ⟨9⟩, thread := ⟨1⟩, object := some ⟨7⟩ }]

/-- What is recorded of it. -/
def workshopRecorder : Recorder where
  program := workshopProgram
  events := #[
    { kind := .startMethod, instruction := ⟨0⟩, start := some ⟨0⟩ },
    { kind := .instantiation, instruction := ⟨0⟩, start := some ⟨0⟩, object := some ⟨7⟩ },
    { kind := .startMethod, instruction := ⟨2⟩, thread := ⟨1⟩, start := some ⟨2⟩,
      arguments := [some ⟨7⟩] },
    { kind := .instantiation, instruction := ⟨1⟩, thread := ⟨1⟩, start := some ⟨2⟩,
      object := some ⟨7⟩ },
    { kind := .instantiation, instruction := ⟨2⟩, start := some ⟨0⟩, object := some ⟨7⟩ },
    { kind := .startMethod, instruction := ⟨0⟩, start := some ⟨5⟩ },
    { kind := .instantiation, instruction := ⟨9⟩, thread := ⟨1⟩, start := some ⟨2⟩,
      object := some ⟨7⟩ }]
  frames := ((Std.TreeMap.insert ∅ ⟨0⟩ [⟨0⟩]).insert ⟨1⟩ [⟨2⟩]).insert ⟨0⟩ [⟨5⟩, ⟨0⟩]

theorem run_workshopSteps : run workshopProgram workshopSteps = .ok workshopRecorder := rfl

/-- The thread goes on after the other one has recorded two events, the method is entered twice, and
the object is a saw in the end. -/
theorem lookups_eq_scan_workshop :
    run workshopProgram workshopSteps = .ok workshopRecorder ∧
      IsLeast { e' | ⟨1⟩ < e' ∧ workshopRecorder.trace.OnThread ⟨0⟩ e' } ⟨4⟩ ∧
      (∃ events : List EventId, events.Pairwise (· < ·) ∧
        (∀ e, e ∈ events ↔ workshopRecorder.trace.OnThread ⟨0⟩ e) ∧
        Visits workshopRecorder.trace.nextInThread? (some ⟨0⟩) events) ∧
      (∀ e ∈ [(⟨0⟩ : EventId), ⟨5⟩], ∃ record, workshopRecorder.trace.record? e = some record ∧
        record.Starts workshopProgram ⟨0⟩) ∧
      (∃ e record, IsGreatest (workshopRecorder.trace.allocations ⟨7⟩) e ∧
        workshopRecorder.trace.record? e = some record ∧
        record.Instantiates workshopProgram ⟨1⟩) ∧
      ∃ e record, workshopRecorder.trace.record? e = some record ∧
        record.Instantiates workshopProgram ⟨0⟩ := by
  obtain ⟨next, threads, invocations, classes, instances⟩ :=
    lookups_eq_scan workshopProgram workshopSteps workshopRecorder run_workshopSteps
  have listed : workshopRecorder.trace.invocationsOf ⟨0⟩ ⟨6⟩ = [⟨0⟩, ⟨5⟩] := by decide +kernel
  refine ⟨run_workshopSteps, ?_, threads ⟨0⟩, fun e member => ?_, ?_, ?_⟩
  · exact ((next ⟨1⟩ _ rfl).1 ⟨4⟩).1 (by decide +kernel)
  · exact (((invocations ⟨0⟩ ⟨6⟩).2 e).1 (listed ▸ member)).2
  · exact ((classes ⟨7⟩).1 ⟨1⟩).1 (by decide +kernel)
  · exact (instances ⟨0⟩).1 (by decide +kernel)

end Recorder

end Inquest
