import Mathlib.Data.List.Induction
import Inquest.Proofs.Trace.Continuation

/-!
# Invocations are nested

Every event belongs to the innermost invocation of its thread that is under way.  The recorder knows
this invocation from its stack; here it is said without one, by the steps that enter invocations and
the ends that are recorded in the end.  At the moment at which an event is recorded, the invocations
on the stack are those of its thread that have been entered and have not ended, the latest on top.
What is recorded later ends an invocation no earlier than at that event, so it does not change which
ones enclose it.

That invocations of one thread do not overlap follows: an end belongs to the invocation that it
ends, so at that moment no invocation is under way that was entered later.

## Main Definitions

* `Recorder.Entered` - an event that enters an invocation on a thread
* `Recorder.Stacked` - the stack of each thread holds what was entered on it and has not ended
* `Recorder.underWay` - the invocations under way at the event of a step, the innermost first
* `Recorder.Encloses` - an invocation that is under way at an event
* `Recorder.IsInnermost` - the latest of those

## Main Statements

* `Recorder.exists_moment` - a recording at the moment of one of its events
* `Recorder.stacked_of_run` - the stacks are right at every moment
* `Recorder.mem_underWay_iff` - what was under way then encloses the event in the whole recording
* `Recorder.start_spec` - an event belongs to the innermost invocation that encloses it
* `Recorder.ends_inside` - an invocation that is entered inside another one ends inside it
* `Recorder.invocations_nest` - how the invocations of a recording lie in each other
-/

namespace Inquest.Recorder

variable {program : Program} {r r₀ r₁ : Recorder} {step : Step} {steps past : List Step}
variable {thread thread' : ThreadId} {e s : EventId} {record : Record}

/-! ### Steps and events -/

/-- An event enters an invocation on a thread. -/
def Entered (steps : List Step) (thread : ThreadId) (s : EventId) : Prop :=
  steps[s.index]?.bind Step.enters? = some thread

instance (steps : List Step) (thread : ThreadId) (s : EventId) :
    Decidable (Entered steps thread s) :=
  inferInstanceAs (Decidable (_ = _))

theorem Entered.thread_eq (entered : Entered steps thread s) (entered' : Entered steps thread' s) :
    thread = thread' :=
  Option.some.inj (entered.symm.trans entered')

theorem Entered.lt_length (entered : Entered steps thread s) : s.index < steps.length := by
  obtain ⟨step, found, -⟩ := Option.bind_eq_some_iff.1 entered
  exact (List.getElem?_eq_some_iff.1 found).1

/-- What is entered with one more step was entered before, or is entered by that step. -/
theorem entered_concat : Entered (steps ++ [step]) thread s ↔
    Entered steps thread s ∨ s.index = steps.length ∧ step.enters? = some thread := by
  unfold Entered
  rw [List.getElem?_append]
  split
  · next before => simp [Nat.ne_of_lt before]
  · next beyond =>
    rw [List.getElem?_eq_none (Nat.le_of_not_lt beyond), List.getElem?_singleton]
    split
    · next last => simp [show s.index = steps.length by omega]
    · next past => simp [show s.index ≠ steps.length by omega]

/-- What is entered by the first steps is what is entered by all of them, up to there. -/
theorem entered_iff_of_append {future : List Step} :
    Entered steps thread s ↔ Entered (steps ++ future) thread s ∧ s.index < steps.length := by
  constructor
  · intro entered
    have inside := entered.lt_length
    rw [Entered, List.getElem?_append_left inside]
    exact ⟨entered, inside⟩
  · rintro ⟨entered, inside⟩
    rwa [Entered, List.getElem?_append_left inside] at entered

theorem run_concat (recorded : run program (steps ++ [step]) = .ok r) :
    ∃ r₀ id, run program steps = .ok r₀ ∧ r₀.apply step = .ok (r, id) := by
  unfold run at recorded ⊢
  rw [List.foldlM_append] at recorded
  obtain ⟨r₀, first, last⟩ := bind_eq_ok_iff.1 recorded
  rw [List.foldlM_cons] at last
  obtain ⟨r₁, applied, rest⟩ := bind_eq_ok_iff.1 last
  cases rest
  obtain ⟨⟨r₂, id⟩, result, rfl⟩ := map_eq_ok_iff.1 applied
  exact ⟨r₀, id, first, result⟩

/-- Every step records one event. -/
theorem size_of_run (recorded : run program steps = .ok r) : r.events.size = steps.length := by
  have lengths := congrArg List.length (report?_of_run recorded).2
  simpa using lengths

/-- A recording at the moment of one of its events: what was recorded before, and the step that
recorded the event. -/
theorem exists_moment (recorded : run program steps = .ok r) (inside : e.index < steps.length) :
    ∃ past step future r₀ r₁, steps = past ++ [step] ++ future ∧ run program past = .ok r₀ ∧
      r₀.apply step = .ok (r₁, e) ∧ r₁.Continues r := by
  have split : steps = steps.take e.index ++ [steps[e.index]] ++ steps.drop (e.index + 1) := by
    simp
  have whole := recorded
  rw [split, run, List.foldlM_append] at whole
  obtain ⟨r₁, first, -⟩ := bind_eq_ok_iff.1 whole
  obtain ⟨r₀, id, recorded₀, applied⟩ := run_concat first
  obtain ⟨record, -, -, -, rfl, -⟩ := apply_cases applied
  have here : r₀.nextId = e := by
    rw [nextId, size_of_run recorded₀, List.length_take, Nat.min_eq_left inside.le]
  refine ⟨_, _, _, r₀, r₁, split, recorded₀, here ▸ applied, ?_⟩
  exact continues_of_run first (split ▸ recorded)

/-! ### The stack -/

/-- The stack of a thread holds the invocations that were entered there and have not ended, the
latest on top. -/
structure Stacked (steps : List Step) (r : Recorder) : Prop where
  mem_iff : ∀ {thread s}, s ∈ r.frames.getD thread [] ↔
    Entered steps thread s ∧ r.ends[s]? = none
  descending : ∀ thread, (r.frames.getD thread []).Pairwise (· > ·)

/-- The invocations that are under way at the event of a step, the innermost first.  One that the
step enters is among them, and so is one that it leaves. -/
def underWay (r : Recorder) (step : Step) : List EventId :=
  match step.enters? with
  | some _ => r.nextId :: r.frames.getD step.thread []
  | none => r.frames.getD step.thread []

theorem Step.enters?_cases (step : Step) :
    step.enters? = none ∨ step.enters? = some step.thread := by
  cases step with
  | push record => exact .inl rfl
  | enter thread method arguments control => exact .inr rfl
  | exit record => exact .inl rfl

namespace Stacked

variable {id : EventId} (stacked : Stacked steps r)

include stacked

theorem mem_underWay (recorded : run program steps = .ok r) :
    s ∈ r.underWay step ↔ Entered (steps ++ [step]) step.thread s ∧ r.ends[s]? = none := by
  have next : s = r.nextId ↔ s.index = steps.length := by
    rw [Ident.ext_iff, nextId, size_of_run recorded]
  unfold underWay
  rw [entered_concat, ← next]
  rcases step.enters?_cases with leaves | enters
  · simp [leaves, stacked.mem_iff]
  · rw [enters]
    show s ∈ r.nextId :: _ ↔ _
    rw [List.mem_cons, stacked.mem_iff]
    constructor
    · rintro (rfl | ⟨entered, opened⟩)
      · refine ⟨.inr ⟨rfl, rfl⟩, Option.eq_none_iff_forall_ne_some.2 fun finish ended => ?_⟩
        exact Nat.lt_irrefl _ ((nested_of_run recorded).ended ended)
      · exact ⟨.inl entered, opened⟩
    · rintro ⟨entered | ⟨here, -⟩, opened⟩
      · exact .inr ⟨entered, opened⟩
      · exact .inl here

theorem pairwise_underWay (recorded : run program steps = .ok r) :
    (r.underWay step).Pairwise (· > ·) := by
  unfold underWay
  split
  · refine List.pairwise_cons.2 ⟨fun s opened => ?_, stacked.descending step.thread⟩
    exact (nested_of_run recorded).opened opened
  · exact stacked.descending step.thread

/-- Opening an invocation that the next event starts. -/
theorem enter (recorded : run program steps = .ok r) (enters : step.enters? = some step.thread)
    (frames : r₁.frames =
      r.frames.insert step.thread (r.nextId :: r.frames.getD step.thread []))
    (ends : r₁.ends = r.ends) : Stacked (steps ++ [step]) r₁ := by
  have stack : ∀ thread, r₁.frames.getD thread [] =
      if step.thread = thread then r.underWay step else r.frames.getD thread [] := by
    intro thread
    simp only [frames, underWay, enters, Std.TreeMap.getD_insert, Ident.compare_eq_iff]
  refine ⟨fun {thread s} => ?_, fun thread => ?_⟩
  · rw [stack, ends]
    split
    · next same => rw [stacked.mem_underWay recorded, same]
    · next other =>
      rw [stacked.mem_iff, entered_concat, enters]
      simp [other]
  · rw [stack]
    split
    · exact stacked.pairwise_underWay recorded
    · exact stacked.descending thread

/-- Ending the innermost open invocation of a thread. -/
theorem exit {frame : EventId} {outer : List EventId} (leaves : step.enters? = none)
    (top : r.frames.getD thread [] = frame :: outer)
    (frames : r₁.frames = r.frames.insert thread outer) (ends : r₁.ends = r.ends.insert frame id) :
    Stacked (steps ++ [step]) r₁ := by
  have above := stacked.descending thread
  rw [top, List.pairwise_cons] at above
  have stack : ∀ thread', r₁.frames.getD thread' [] =
      if thread = thread' then outer else r.frames.getD thread' [] := by
    intro thread'
    simp only [frames, Std.TreeMap.getD_insert, Ident.compare_eq_iff]
  -- what is left is what was there, without the invocation that has ended
  have left : ∀ {thread' s}, s ∈ r₁.frames.getD thread' [] ↔
      s ∈ r.frames.getD thread' [] ∧ s ≠ frame := by
    intro thread' s
    rw [stack]
    split
    · next same =>
      rw [← same, top, List.mem_cons]
      constructor
      · intro opened
        refine ⟨.inr opened, fun same => ?_⟩
        have later := above.1 s opened
        rw [same] at later
        exact Nat.lt_irrefl _ later
      · rintro ⟨opened, other⟩
        exact opened.resolve_left other
    · next other =>
      refine ⟨fun opened => ⟨opened, fun same => other ?_⟩, And.left⟩
      have here : frame ∈ r.frames.getD thread [] := top ▸ List.mem_cons_self
      exact (stacked.mem_iff.1 here).1.thread_eq (stacked.mem_iff.1 (same ▸ opened)).1
  refine ⟨fun {thread' s} => ?_, fun thread' => ?_⟩
  · rw [left, entered_concat, leaves, ends, stacked.mem_iff, Std.TreeMap.getElem?_insert]
    simp only [Ident.compare_eq_iff, reduceCtorEq, and_false, or_false]
    split
    · next same => simp [same]
    · next other => simp [Ne.symm other]
  · rw [stack]
    split
    · exact above.2
    · exact stacked.descending thread'

theorem apply (recorded : run program steps = .ok r) (applied : r.apply step = .ok (r₁, id)) :
    Stacked (steps ++ [step]) r₁ := by
  obtain ⟨record, -, thread, -, rfl, cases⟩ := apply_cases applied
  rw [thread] at cases
  rcases cases with ⟨leaves, frames, ends, -⟩ | ⟨enters, frames, ends, -, -⟩ |
    ⟨frame, outer, leaves, top, frames, ends, -⟩
  · refine ⟨fun {thread s} => ?_, fun thread => ?_⟩
    · rw [frames, ends, entered_concat, leaves, stacked.mem_iff]
      simp
    · rw [frames]
      exact stacked.descending thread
  · exact stacked.enter recorded enters frames ends
  · exact stacked.exit leaves top frames ends

end Stacked

theorem stacked_of_run (recorded : run program steps = .ok r) : Stacked steps r := by
  induction steps using List.reverseRecOn generalizing r with
  | nil =>
    cases recorded
    refine ⟨fun {thread s} => ?_, fun thread => ?_⟩
    · rw [Std.TreeMap.getD_emptyc]
      simp [Entered]
    · rw [Std.TreeMap.getD_emptyc]
      exact .nil
  | append_singleton steps step ih =>
    obtain ⟨r₀, id, recorded, applied⟩ := run_concat recorded
    exact (ih recorded).apply recorded applied

/-! ### Invocations around an event -/

/-- A step that names no invocation by itself records an event of the innermost one under way. -/
theorem apply_start {id : EventId} (applied : r.apply step = .ok (r₁, id))
    (unmarked : step.start? = none) :
    ∃ record, r₁.events = r.events.push record ∧ record.thread = step.thread ∧
      record.start = (r.underWay step).head? := by
  obtain ⟨record, -, thread, events, rfl, cases⟩ := apply_cases applied
  refine ⟨record, events, thread, ?_⟩
  unfold underWay
  rcases cases with ⟨leaves, -, -, belongs⟩ | ⟨enters, -, -, -, belongs⟩ |
    ⟨frame, outer, leaves, top, -, -, belongs⟩
  · rw [leaves, belongs unmarked, thread]
    rfl
  · rw [enters, belongs]
    rfl
  · rw [leaves, belongs unmarked, ← thread, top]
    rfl

/-- An invocation is under way on a thread at an event: it has been entered by then, and has not
ended before. -/
def Encloses (steps : List Step) (t : Trace) (thread : ThreadId) (s e : EventId) : Prop :=
  Entered steps thread s ∧ s ≤ e ∧ ∀ finish ∈ t.endOf? s, e ≤ finish

instance (steps : List Step) (t : Trace) (thread : ThreadId) (s e : EventId) :
    Decidable (Encloses steps t thread s e) :=
  inferInstanceAs (Decidable (_ ∧ _ ∧ _))

/-- What has not ended before the next event does not end before it later on. -/
theorem unended_iff (unmarked : ∀ step ∈ past, step.start? = none)
    (recorded : run program past = .ok r₀) (continues : r₀.Continues r) :
    r₀.ends[s]? = none ↔ ∀ finish ∈ r.trace.endOf? s, r₀.nextId ≤ finish := by
  constructor
  · intro opened finish ended
    refine Nat.le_of_not_lt fun before => ?_
    have ended₀ := (continues.ends s finish before).1 ended
    rw [opened] at ended₀
    cases ended₀
  · intro late
    refine Option.eq_none_iff_forall_ne_some.2 fun finish ended₀ => ?_
    obtain ⟨record, found, -⟩ :=
      Option.bind_eq_some_iff.1 (endOf?_spec unmarked recorded ended₀).2
    have before : finish.index < r₀.events.size := (Array.getElem?_eq_some_iff.1 found).1
    exact absurd (late finish ((continues.ends s finish before).2 ended₀)) (Nat.not_le.2 before)

/-- What encloses an event in the whole recording is what was under way when it was recorded. -/
theorem mem_underWay_iff {future : List Step}
    (unmarked : ∀ other ∈ past ++ [step] ++ future, other.start? = none)
    (recorded : run program (past ++ [step] ++ future) = .ok r)
    (recorded₀ : run program past = .ok r₀) :
    s ∈ r₀.underWay step ↔
      Encloses (past ++ [step] ++ future) r.trace step.thread s r₀.nextId := by
  have unmarked₀ : ∀ other ∈ past, other.start? = none := fun other member =>
    unmarked other (List.mem_append_left _ (List.mem_append_left _ member))
  have continues : r₀.Continues r := by
    rw [List.append_assoc] at recorded
    exact continues_of_run recorded₀ recorded
  have upTo : s.index < (past ++ [step]).length ↔ s ≤ r₀.nextId := by
    rw [Ident.le_def, nextId, size_of_run recorded₀, List.length_append, List.length_singleton,
      Nat.lt_succ_iff]
  rw [(stacked_of_run recorded₀).mem_underWay recorded₀, entered_iff_of_append, upTo,
    unended_iff unmarked₀ recorded₀ continues, Encloses, and_assoc]

/-- An invocation is the largest one, hence the innermost, of those that enclose an event. -/
def IsInnermost (steps : List Step) (t : Trace) (thread : ThreadId) (s e : EventId) : Prop :=
  Encloses steps t thread s e ∧ ∀ s', Encloses steps t thread s' e → s' ≤ s

section Run

variable (unmarked : ∀ step ∈ steps, step.start? = none) (recorded : run program steps = .ok r)

include unmarked recorded

/-- The invocations that enclose an event can be listed from the inside out, and the event belongs
to the first of them. -/
theorem exists_around (found : r.trace.record? e = some record) :
    ∃ around : List EventId, around.Pairwise (· > ·) ∧ record.start = around.head? ∧
      ∀ s, s ∈ around ↔ Encloses steps r.trace record.thread s e := by
  have inside : e.index < steps.length := by
    rw [← size_of_run recorded]
    exact (Array.getElem?_eq_some_iff.1 found).1
  obtain ⟨past, step, future, r₀, r₁, rfl, recorded₀, applied, continues⟩ :=
    exists_moment recorded inside
  obtain ⟨record', events, thread, start⟩ := apply_start applied (unmarked step (by simp))
  obtain ⟨-, -, -, -, rfl, -⟩ := apply_cases applied
  -- the record is the one that the step appended
  obtain rfl : record' = record := by
    have last : r₁.events[r₀.events.size]? = some record' := by
      rw [events]
      exact Array.getElem?_push_size
    rw [← continues.events _ (Array.getElem?_eq_some_iff.1 last).1] at last
    exact Option.some.inj (last.symm.trans found)
  refine ⟨r₀.underWay step, (stacked_of_run recorded₀).pairwise_underWay recorded₀, start, ?_⟩
  intro s
  rw [thread]
  exact mem_underWay_iff unmarked recorded recorded₀

/-- An event belongs to the innermost invocation that encloses it, if there is one. -/
theorem start_spec (found : r.trace.record? e = some record) :
    (∀ s, record.start = some s ↔ IsInnermost steps r.trace record.thread s e) ∧
      (record.start = none ↔ ∀ s, ¬ Encloses steps r.trace record.thread s e) := by
  obtain ⟨around, descending, start, encloses⟩ := exists_around unmarked recorded found
  rw [start]
  simp only [IsInnermost, ← encloses]
  cases around with
  | nil => simp
  | cons top outer =>
    obtain ⟨above, -⟩ := List.pairwise_cons.1 descending
    have largest : ∀ s ∈ top :: outer, s ≤ top := by
      intro s member
      rcases List.mem_cons.1 member with rfl | member
      · exact Nat.le_refl _
      · exact Nat.le_of_lt (above s member)
    refine ⟨fun s => ⟨fun isTop => ?_, fun innermost => ?_⟩, fun missing => ?_, fun missing => ?_⟩
    · cases isTop
      exact ⟨List.mem_cons_self, largest⟩
    · have upper := innermost.2 top List.mem_cons_self
      exact congrArg some (Ident.ext (Nat.le_antisymm upper (largest s innermost.1)))
    · cases missing
    · exact absurd List.mem_cons_self (missing top)

/-- An invocation that is entered while another one of its thread is under way ends before it. -/
theorem ends_inside {s₁ s₂ x₁ : EventId} (entered₁ : Entered steps thread s₁)
    (entered₂ : Entered steps thread s₂) (order : s₁ < s₂) (ended : r.trace.endOf? s₁ = some x₁)
    (within : s₂ ≤ x₁) : ∃ x₂, r.trace.endOf? s₂ = some x₂ ∧ x₂ < x₁ := by
  by_contra none
  obtain ⟨record, found, start⟩ :=
    Option.bind_eq_some_iff.1 (endOf?_spec unmarked recorded ended).2
  have innermost := ((start_spec unmarked recorded found).1 s₁).1 start
  -- otherwise the end would lie in the invocation that was entered later
  have encloses : Encloses steps r.trace record.thread s₂ x₁ := by
    rw [innermost.1.1.thread_eq entered₁]
    refine ⟨entered₂, within, fun x₂ ended₂ => Nat.le_of_not_lt fun before => ?_⟩
    exact none ⟨x₂, ended₂, before⟩
  exact absurd order (Nat.not_lt.2 (innermost.2 s₂ encloses))

end Run

/-- In a recording whose events name no invocation by themselves, two invocations of one thread do
not overlap: the earlier one has ended when the later one is entered, or the later one ends first.
Every event belongs to the largest invocation of its thread that has been entered by then and has
not ended before, and to none if there is none. -/
theorem invocations_nest (program : Program) (steps : List Step) (r : Recorder)
    (unmarked : ∀ step ∈ steps, step.start? = none) (recorded : run program steps = .ok r) :
    (∀ thread s₁ s₂ x₁, Entered steps thread s₁ → Entered steps thread s₂ → s₁ < s₂ →
      r.trace.endOf? s₁ = some x₁ →
      x₁ < s₂ ∨ ∃ x₂, r.trace.endOf? s₂ = some x₂ ∧ x₂ < x₁) ∧
    ∀ e record, r.trace.record? e = some record →
      (∀ s, record.start = some s ↔ IsInnermost steps r.trace record.thread s e) ∧
      (record.start = none ↔ ∀ s, ¬ Encloses steps r.trace record.thread s e) := by
  refine ⟨fun thread s₁ s₂ x₁ entered₁ entered₂ order ended => ?_, fun e record found => ?_⟩
  · by_cases before : x₁ < s₂
    · exact .inl before
    · exact .inr (ends_inside unmarked recorded entered₁ entered₂ order ended
        (Nat.le_of_not_lt before))
  · exact start_spec unmarked recorded found

/-- A program with one method. -/
def relayProgram : Program where
  classes := #[{ id := ⟨0⟩, name := "Relay", superclass := none }]
  methods := #[
    { id := ⟨0⟩, declaringClass := ⟨0⟩, name := "run", isStatic := true, instructions := #[⟨0⟩] }]
  instructions := #[{ id := ⟨0⟩, method := ⟨0⟩, position := 0, kind := .other }]

/-- The method runs on one thread and calls itself there; meanwhile it starts on another thread,
where it does not come to an end. -/
def relaySteps : List Step := [
  .enter ⟨0⟩ ⟨0⟩ [] none,
  .enter ⟨1⟩ ⟨0⟩ [] none,
  .enter ⟨0⟩ ⟨0⟩ [] none,
  .push { kind := .value, instruction := ⟨0⟩, thread := ⟨1⟩ },
  .exit { kind := .returned, instruction := ⟨0⟩ },
  .exit { kind := .returned, instruction := ⟨0⟩ },
  .push { kind := .value, instruction := ⟨0⟩ }]

/-- What is recorded of it. -/
def relayRecorder : Recorder where
  program := relayProgram
  events := #[
    { kind := .startMethod, instruction := ⟨0⟩, start := some ⟨0⟩ },
    { kind := .startMethod, instruction := ⟨0⟩, thread := ⟨1⟩, start := some ⟨1⟩ },
    { kind := .startMethod, instruction := ⟨0⟩, start := some ⟨2⟩ },
    { kind := .value, instruction := ⟨0⟩, thread := ⟨1⟩, start := some ⟨1⟩ },
    { kind := .returned, instruction := ⟨0⟩, start := some ⟨2⟩ },
    { kind := .returned, instruction := ⟨0⟩, start := some ⟨0⟩ },
    { kind := .value, instruction := ⟨0⟩ }]
  frames := (Std.TreeMap.insert ∅ ⟨0⟩ []).insert ⟨1⟩ [⟨1⟩]
  ends := (Std.TreeMap.insert ∅ ⟨2⟩ ⟨4⟩).insert ⟨0⟩ ⟨5⟩
  ends_recorded := ((EndsRecorded.empty _).insert ⟨2⟩ (by decide)).insert ⟨0⟩ (by decide)

theorem run_relaySteps : run relayProgram relaySteps = .ok relayRecorder := rfl

/-- The call ends within the invocation that it was made in, and its end still belongs to it.  The
event after both of them belongs to none, although the other thread is still at work. -/
theorem invocations_nest_relay :
    run relayProgram relaySteps = .ok relayRecorder ∧
      (∃ x₂, relayRecorder.trace.endOf? ⟨2⟩ = some x₂ ∧ x₂ < ⟨5⟩) ∧
      IsInnermost relaySteps relayRecorder.trace ⟨0⟩ ⟨2⟩ ⟨4⟩ ∧
      IsInnermost relaySteps relayRecorder.trace ⟨1⟩ ⟨1⟩ ⟨3⟩ ∧
      ∀ s, ¬ Encloses relaySteps relayRecorder.trace ⟨0⟩ s ⟨6⟩ := by
  have unmarked : ∀ step ∈ relaySteps, step.start? = none := by decide
  obtain ⟨nest, belong⟩ :=
    invocations_nest relayProgram relaySteps relayRecorder unmarked run_relaySteps
  refine ⟨run_relaySteps, ?_, ?_, ?_, ?_⟩
  · refine (nest ⟨0⟩ ⟨0⟩ ⟨2⟩ ⟨5⟩ rfl rfl (by decide) rfl).resolve_left (by decide)
  · exact ((belong ⟨4⟩ _ rfl).1 ⟨2⟩).1 rfl
  · exact ((belong ⟨3⟩ _ rfl).1 ⟨1⟩).1 rfl
  · exact (belong ⟨6⟩ _ rfl).2.1 rfl

end Inquest.Recorder
