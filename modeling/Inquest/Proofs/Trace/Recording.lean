import Inquest.Proofs.Walk
import Inquest.Trace.Recorder

/-!
# What is recorded of invocations

While a recording is under way, the open invocations of each thread lie on a stack.  An event that
is recorded without naming an invocation belongs to the one on top, and the event that leaves an
invocation is recorded before the invocation is taken off the stack.  So the recorded end of an
invocation is an event of that very invocation, and does not come before its start.

## Main Definitions

* `Recorder.Step.start?` - the invocation that a step names by itself
* `Recorder.Step.thread`, `Recorder.Step.enters?` - the thread of a step, and whether it enters an
  invocation there
* `Recorder.Step.report?` - the kind and the instruction that the event of a step reports
* `Recorder.Nested` - every invocation is open once, or ended
* `Recorder.Framed` - a recorded end is an event of its invocation

## Main Statements

* `Recorder.apply_cases` - everything that a step can do to a recording
* `Recorder.run_induction` - what every step preserves holds of the whole recording
* `Recorder.report?_of_run` - the events report what the steps say
* `Recorder.nested_of_run` - what holds of the open and the ended invocations
* `Recorder.endOf?_spec` - the recorded end of an invocation belongs to it
-/

namespace Inquest

/-- The start of the invocation that an event belongs to. -/
def Trace.startOf? (t : Trace) (e : EventId) : Option EventId := (t.record? e).bind Record.start

namespace Recorder

variable {program : Program} {r r' : Recorder} {step : Step} {steps : List Step} {id : EventId}

/-- The invocation that a step names by itself. -/
def Step.start? : Step → Option EventId
  | .push record => record.start
  | .enter _ _ _ _ => none
  | .exit record => record.start

/-- The thread on which the event of a step happens. -/
def Step.thread : Step → ThreadId
  | .push record => record.thread
  | .enter thread _ _ _ => thread
  | .exit record => record.thread

/-- The thread on which a step enters an invocation. -/
def Step.enters? : Step → Option ThreadId
  | .push _ => none
  | .enter thread _ _ _ => some thread
  | .exit _ => none

/-- A step appends one record.  It leaves the open invocations alone, opens one that the record
starts, or closes the innermost one of the thread of the record, which the record then ends. -/
theorem apply_cases (applied : r.apply step = .ok (r', id)) :
    ∃ record, r'.program = r.program ∧ record.thread = step.thread ∧
      r'.events = r.events.push record ∧ id = r.nextId ∧
      ((step.enters? = none ∧ r'.frames = r.frames ∧ r'.ends = r.ends ∧
          (step.start? = none → record.start = r.currentFrame? record.thread)) ∨
        (step.enters? = some record.thread ∧
          r'.frames = r.frames.insert record.thread (id :: r.frames.getD record.thread []) ∧
          r'.ends = r.ends ∧ record.kind = .startMethod ∧ record.start = some id) ∨
        ∃ frame outer, step.enters? = none ∧ r.frames.getD record.thread [] = frame :: outer ∧
          r'.frames = r.frames.insert record.thread outer ∧ r'.ends = r.ends.insert frame id ∧
          (step.start? = none → record.start = some frame)) := by
  cases step with
  | push record =>
    cases applied
    refine ⟨{ record with start := record.start <|> r.currentFrame? record.thread }, rfl, rfl, rfl,
      rfl, .inl ⟨rfl, rfl, rfl, fun unmarked => ?_⟩⟩
    have unmarked : record.start = none := unmarked
    simp [unmarked]
  | enter thread method arguments control =>
    simp only [apply, enter] at applied
    split at applied
    · cases applied
    · cases applied
      exact ⟨_, rfl, rfl, rfl, rfl, .inr (.inl ⟨rfl, rfl, rfl, rfl, rfl⟩)⟩
  | exit record =>
    simp only [apply, exit] at applied
    split at applied
    · cases applied
    · next frame outer opened =>
      cases applied
      refine ⟨{ record with start := record.start <|> r.currentFrame? record.thread }, rfl, rfl,
        rfl, rfl, .inr (.inr ⟨frame, outer, rfl, opened, rfl, rfl, fun unmarked => ?_⟩)⟩
      have unmarked : record.start = none := unmarked
      simp [unmarked, currentFrame?, opened]

/-- What holds at first and is preserved by every step holds of the whole recording. -/
theorem run_induction {P : Recorder → Prop} (start : P { program })
    (preserved : ∀ {r r' id step}, step ∈ steps → P r → r.apply step = .ok (r', id) → P r')
    (recorded : run program steps = .ok r) : P r := by
  refine foldlM_induction start (fun member holds applied => ?_) recorded
  obtain ⟨next, result, rfl⟩ := map_eq_ok_iff.1 applied
  exact preserved member holds result

/-! ### What events report -/

/-- The kind and the instruction that the event of a step reports.  The start of an invocation
reports the first instruction of the method. -/
def Step.report? (program : Program) : Step → Option (EventKind × InstructionId)
  | .push record => some (record.kind, record.instruction)
  | .enter _ method _ _ =>
    ((program.method? method).bind (·.instructions[0]?)).map (.startMethod, ·)
  | .exit record => some (record.kind, record.instruction)

theorem apply_report (applied : r.apply step = .ok (r', id)) :
    ∃ record, r'.program = r.program ∧ r'.events = r.events.push record ∧
      step.report? r.program = some (record.kind, record.instruction) := by
  cases step with
  | push record =>
    cases applied
    exact ⟨_, rfl, rfl, rfl⟩
  | enter thread method arguments control =>
    simp only [apply, enter] at applied
    split at applied
    · cases applied
    · next instruction isFirst =>
      cases applied
      refine ⟨_, rfl, rfl, ?_⟩
      rw [firstInstruction?] at isFirst
      rw [Step.report?, isFirst, Option.map_some]
  | exit record =>
    simp only [apply, exit] at applied
    split at applied
    · cases applied
    · cases applied
      exact ⟨_, rfl, rfl, rfl⟩

/-- Every step records one event, which reports what the step says. -/
theorem report?_of_run (recorded : run program steps = .ok r) :
    r.program = program ∧
      r.events.toList.map (fun record => some (record.kind, record.instruction)) =
        steps.map (Step.report? program) := by
  suffices general : ∀ r₀ : Recorder, r₀.program = program →
      steps.foldlM (fun r step => Prod.fst <$> r.apply step) r₀ = .ok r → r.program = program ∧
        r.events.toList.map (fun record => some (record.kind, record.instruction)) =
          r₀.events.toList.map (fun record => some (record.kind, record.instruction)) ++
            steps.map (Step.report? program) from general { program } rfl recorded
  clear recorded
  induction steps with
  | nil =>
    intro r₀ same recorded
    cases recorded
    exact ⟨same, (List.append_nil _).symm⟩
  | cons step rest ih =>
    intro r₀ same recorded
    rw [List.foldlM_cons] at recorded
    obtain ⟨r₁, applied, recorded⟩ := bind_eq_ok_iff.1 recorded
    obtain ⟨⟨r₂, id⟩, result, rfl⟩ := map_eq_ok_iff.1 applied
    obtain ⟨record, same₂, events, report⟩ := apply_report result
    obtain ⟨same', reports⟩ := ih r₂ (same₂.trans same) recorded
    refine ⟨same', ?_⟩
    rw [reports, events, Array.toList_push, List.map_append, List.map_cons, List.map_cons, ← report,
      same, List.append_assoc]
    rfl

/-- Every recorded event is that of a step, and reports what the step says. -/
theorem exists_step (recorded : run program steps = .ok r) {e : EventId} {record : Record}
    (found : r.trace.record? e = some record) :
    ∃ step, steps[e.index]? = some step ∧
      step.report? program = some (record.kind, record.instruction) := by
  have found : r.events[e.index]? = some record := found
  have same := congrArg (·[e.index]?) (report?_of_run recorded).2
  simp only [List.getElem?_map, Array.getElem?_toList, found, Option.map_some] at same
  exact Option.map_eq_some_iff.1 same.symm

/-! ### Open and ended invocations -/

/-- Invocations have started, each of them is open in one place only, and none that has ended is
open. -/
structure Nested (r : Recorder) : Prop where
  opened : ∀ {thread start}, start ∈ r.frames.getD thread [] → start.index < r.events.size
  ended : ∀ {start finish : EventId}, r.ends[start]? = some finish → start.index < r.events.size
  nodup : ∀ thread, (r.frames.getD thread []).Nodup
  apart : ∀ {thread thread' start}, start ∈ r.frames.getD thread [] →
    start ∈ r.frames.getD thread' [] → thread = thread'
  unended : ∀ {thread start}, start ∈ r.frames.getD thread [] → r.ends[start]? = none

theorem nested_empty (program : Program) : Nested { program } := by
  have nothing : ∀ {thread start},
      ¬ start ∈ Std.TreeMap.getD (Recorder.frames { program }) thread [] := by
    intro thread start opened
    rw [Std.TreeMap.getD_emptyc] at opened
    cases opened
  refine ⟨fun opened => absurd opened nothing, fun {start finish} ended => ?_, fun thread => ?_,
    fun opened => absurd opened nothing, fun opened => absurd opened nothing⟩
  · rw [Std.TreeMap.getElem?_emptyc] at ended
    cases ended
  · rw [Std.TreeMap.getD_emptyc]
    exact List.nodup_nil

namespace Nested

variable (nested : r.Nested)

include nested

/-- The event that comes next is not known as an invocation. -/
theorem not_mem_nextId (thread : ThreadId) : r.nextId ∉ r.frames.getD thread [] :=
  fun opened => absurd (nested.opened opened) (Nat.lt_irrefl _)

/-- Opening an invocation that the next event starts. -/
theorem enter {record : Record} (events : r'.events = r.events.push record)
    (frames : r'.frames = r.frames.insert record.thread
      (r.nextId :: r.frames.getD record.thread [])) (ends : r'.ends = r.ends) : r'.Nested := by
  have size : r'.events.size = r.events.size + 1 := by rw [events, Array.size_push]
  have stack : ∀ thread, r'.frames.getD thread [] =
      if record.thread = thread then r.nextId :: r.frames.getD thread []
      else r.frames.getD thread [] := by
    intro thread
    simp only [frames, Std.TreeMap.getD_insert, Ident.compare_eq_iff]
    split
    · next same => rw [same]
    · rfl
  have origin : ∀ {thread start}, start ∈ r'.frames.getD thread [] →
      start ∈ r.frames.getD thread [] ∨ start = r.nextId ∧ thread = record.thread := by
    intro thread start opened
    rw [stack] at opened
    split at opened
    · next same => exact (List.mem_cons.1 opened).symm.imp_right fun new => ⟨new, same.symm⟩
    · exact .inl opened
  refine ⟨fun opened => ?_, fun ended => ?_, fun thread => ?_, fun opened opened' => ?_,
    fun {thread start} opened => ?_⟩
  · rw [size]
    rcases origin opened with old | ⟨rfl, -⟩
    · exact Nat.lt_succ_of_lt (nested.opened old)
    · exact Nat.lt_succ_self _
  · rw [size]
    exact Nat.lt_succ_of_lt (nested.ended (ends ▸ ended))
  · rw [stack]
    split
    · exact List.nodup_cons.2 ⟨nested.not_mem_nextId thread, nested.nodup thread⟩
    · exact nested.nodup thread
  · rcases origin opened with old | ⟨rfl, here⟩
    · rcases origin opened' with old' | ⟨rfl, -⟩
      · exact nested.apart old old'
      · exact absurd old (nested.not_mem_nextId _)
    · rcases origin opened' with old' | ⟨-, here'⟩
      · exact absurd old' (nested.not_mem_nextId _)
      · exact here.trans here'.symm
  · rw [ends]
    rcases origin opened with old | ⟨rfl, -⟩
    · exact nested.unended old
    · cases known : r.ends[r.nextId]? with
      | none => rfl
      | some finish => exact absurd (nested.ended known) (Nat.lt_irrefl _)

/-- Ending the innermost open invocation of a thread. -/
theorem exit {record : Record} {frame : EventId} {outer : List EventId}
    (events : r'.events = r.events.push record)
    (top : r.frames.getD record.thread [] = frame :: outer)
    (frames : r'.frames = r.frames.insert record.thread outer)
    (ends : r'.ends = r.ends.insert frame id) : r'.Nested := by
  have size : r'.events.size = r.events.size + 1 := by rw [events, Array.size_push]
  have distinct := nested.nodup record.thread
  rw [top, List.nodup_cons] at distinct
  have stack : ∀ thread, r'.frames.getD thread [] =
      if record.thread = thread then outer else r.frames.getD thread [] := by
    intro thread
    simp only [frames, Std.TreeMap.getD_insert, Ident.compare_eq_iff]
  -- what is still open was open before, and is not the invocation that has ended
  have origin : ∀ {thread start}, start ∈ r'.frames.getD thread [] →
      start ∈ r.frames.getD thread [] ∧ start ≠ frame := by
    intro thread start opened
    rw [stack] at opened
    split at opened
    · next same =>
      subst same
      rw [top]
      exact ⟨List.mem_cons_of_mem frame opened, fun same => distinct.1 (same ▸ opened)⟩
    · next other =>
      refine ⟨opened, fun same => other (nested.apart ?_ opened)⟩
      rw [top, same]
      exact List.mem_cons_self
  refine ⟨fun opened => ?_, fun {start finish} ended => ?_, fun thread => ?_,
    fun opened opened' => nested.apart (origin opened).1 (origin opened').1,
    fun {thread start} opened => ?_⟩
  · rw [size]
    exact Nat.lt_succ_of_lt (nested.opened (origin opened).1)
  · rw [size]
    simp only [ends, Std.TreeMap.getElem?_insert, Ident.compare_eq_iff] at ended
    split at ended
    · next same =>
      subst same
      exact Nat.lt_succ_of_lt (nested.opened (top ▸ List.mem_cons_self))
    · exact Nat.lt_succ_of_lt (nested.ended ended)
  · rw [stack]
    split
    · exact distinct.2
    · exact nested.nodup thread
  · obtain ⟨old, other⟩ := origin opened
    simp only [ends, Std.TreeMap.getElem?_insert, Ident.compare_eq_iff, if_neg other.symm]
    exact nested.unended old

theorem apply (applied : r.apply step = .ok (r', id)) : r'.Nested := by
  obtain ⟨record, -, -, events, rfl, cases⟩ := apply_cases applied
  rcases cases with ⟨-, frames, ends, -⟩ | ⟨-, frames, ends, -, -⟩ |
    ⟨frame, outer, -, top, frames, ends, -⟩
  · have size : r.events.size ≤ r'.events.size := by simp [events]
    refine ⟨fun opened => ?_, fun ended => ?_, ?_, ?_, ?_⟩
    · exact Nat.lt_of_lt_of_le (nested.opened (frames ▸ opened)) size
    · exact Nat.lt_of_lt_of_le (nested.ended (ends ▸ ended)) size
    · exact frames ▸ nested.nodup
    · exact frames ▸ nested.apart
    · exact frames ▸ ends ▸ nested.unended
  · exact nested.enter events frames ends
  · exact nested.exit events top frames ends

end Nested

theorem nested_of_run (recorded : run program steps = .ok r) : r.Nested :=
  run_induction (nested_empty program) (fun _ nested applied => nested.apply applied) recorded

/-! ### The end of an invocation -/

/-- A recorded end is an event of its invocation. -/
def Framed (r : Recorder) : Prop :=
  ∀ start finish : EventId, r.ends[start]? = some finish →
    start ≤ finish ∧ ∃ record, r.events[finish.index]? = some record ∧ record.start = some start

theorem framed_empty (program : Program) : Framed { program } := by
  intro start finish ended
  rw [Std.TreeMap.getElem?_emptyc] at ended
  cases ended

/-- A step that does not name an invocation by itself keeps what is known about their ends. -/
theorem Framed.apply (framed : r.Framed) (nested : r.Nested) (unmarked : step.start? = none)
    (applied : r.apply step = .ok (r', id)) : r'.Framed := by
  obtain ⟨record, -, -, events, rfl, cases⟩ := apply_cases applied
  have kept : ∀ start finish : EventId, r.ends[start]? = some finish → start ≤ finish ∧
      ∃ record, r'.events[finish.index]? = some record ∧ record.start = some start := by
    intro start finish known
    obtain ⟨order, record', found, belongs⟩ := framed start finish known
    refine ⟨order, record', ?_, belongs⟩
    have inside := (Array.getElem?_eq_some_iff.1 found).1
    rw [events, Array.getElem?_push, if_neg (Nat.ne_of_lt inside), found]
  intro start finish known
  rcases cases with ⟨-, -, ends, -⟩ | ⟨-, -, ends, -, -⟩ |
    ⟨frame, outer, -, top, -, ends, belongs⟩
  · exact kept start finish (ends ▸ known)
  · exact kept start finish (ends ▸ known)
  · rw [ends, Std.TreeMap.getElem?_insert] at known
    split at known
    · next same =>
      obtain rfl := Ident.compare_eq_iff.1 same
      cases known
      refine ⟨Nat.le_of_lt (nested.opened (top ▸ List.mem_cons_self)), record, ?_,
        belongs unmarked⟩
      rw [events]
      exact Array.getElem?_push_size
    · exact kept start finish known

/-- The recorded end of an invocation is an event of it, and does not come before its start. -/
theorem endOf?_spec (unmarked : ∀ step ∈ steps, step.start? = none)
    (recorded : run program steps = .ok r) {start finish : EventId}
    (ended : r.trace.endOf? start = some finish) :
    start ≤ finish ∧ r.trace.startOf? finish = some start := by
  have both : r.Nested ∧ r.Framed := by
    refine @run_induction program r steps (fun r => r.Nested ∧ r.Framed)
      ⟨nested_empty program, framed_empty program⟩ ?_ recorded
    rintro r r' id step member ⟨nested, framed⟩ applied
    exact ⟨nested.apply applied, framed.apply nested (unmarked step member) applied⟩
  obtain ⟨order, record, found, belongs⟩ := both.2 start finish ended
  exact ⟨order, Option.bind_eq_some_iff.2 ⟨record, found, belongs⟩⟩

end Recorder

end Inquest
