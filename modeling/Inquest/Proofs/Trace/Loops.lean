import Inquest.Proofs.Program.Numbering
import Inquest.Proofs.Trace.Order

/-!
# Where a loop starts

An event iterates a loop if it is decided by a branch of its thread that stands behind it in its
method.  The loop is known by the first event of the thread that reports the instruction of that
branch.  Events of every kind report an instruction, so the event by which a loop is known need not
be a decision of the branch.

## Main Definitions

* `Trace.IsFirst` - the first event whose record meets a condition
* `Record.reports` - the events of a thread that report an instruction
* `Trace.LoopsBack` - a branch decides an event that stands before it
* `Trace.executions` - the events of a thread that report an instruction, in order

## Main Statements

* `Trace.isFirst_of_firstExecution` - what the search for the first execution gives
* `Trace.loopOf?_eq_some_iff` - when an event iterates a loop, and by which event it is known
* `Trace.loopOf?_key` - the event by which a loop is known
-/

namespace Inquest

/-- Whether a record is one of a thread and reports an instruction. -/
def Record.reports (thread : ThreadId) (instruction : InstructionId) (r : Record) : Bool :=
  r.thread = thread && r.instruction = instruction

theorem Record.reports_iff {thread : ThreadId} {instruction : InstructionId} {r : Record} :
    r.reports thread instruction = true ↔ r.thread = thread ∧ r.instruction = instruction := by
  rw [reports, Bool.and_eq_true, decide_eq_true_eq, decide_eq_true_eq]

namespace Trace

variable {t : Trace} {c : Config} {e e' f k : EventId} {r s : Record} {p : Record → Bool}
variable {thread : ThreadId} {instruction : InstructionId}

/-! ### The first of some events -/

/-- An event is the first one whose record meets a condition. -/
structure IsFirst (t : Trace) (p : Record → Bool) (e : EventId) : Prop where
  meets : ∃ r, t.record? e = some r ∧ p r = true
  least : ∀ {e' r}, t.record? e' = some r → p r = true → e ≤ e'

theorem IsFirst.unique (first : t.IsFirst p e) (first' : t.IsFirst p e') : e = e' := by
  obtain ⟨r, recorded, meets⟩ := first.meets
  obtain ⟨r', recorded', meets'⟩ := first'.meets
  exact Ident.ext (Nat.le_antisymm (first.least recorded' meets') (first'.least recorded meets))

/-- If some event meets a condition, there is a first one. -/
theorem exists_isFirst (recorded : t.record? e = some r) (meets : p r = true) :
    ∃ first, t.IsFirst p first ∧ first ≤ e := by
  have low : ∀ e : EventId, (⟨0⟩ : EventId) ≤ e := fun e => Nat.zero_le e.index
  obtain ⟨first, found, below⟩ :=
    exists_findBetween_le (low e) (Nat.le_refl e.index) recorded meets
  obtain ⟨r', recorded', meets', -⟩ := findBetween_found found
  refine ⟨first, ⟨⟨r', recorded', meets'⟩, fun {e' s} recorded meets => ?_⟩, below⟩
  by_cases later : e.index ≤ e'.index
  · exact Nat.le_trans below later
  · obtain ⟨first', found', below'⟩ :=
      exists_findBetween_le (low e') (Nat.le_of_not_le later) recorded meets
    exact Option.some.inj (found.symm.trans found') ▸ below'

/-- The search for the first execution of an instruction on a thread gives the first event of the
thread that reports the instruction. -/
theorem isFirst_of_firstExecution (found : t.firstExecution instruction thread k = some f) :
    t.IsFirst (Record.reports thread instruction) f := by
  obtain ⟨start, isStart, found⟩ := Option.bind_eq_some_iff.1 found
  obtain ⟨r, recorded, reports, -, below⟩ := findBetween_found found
  refine ⟨⟨r, recorded, reports⟩, fun {e s} recorded' reports' => ?_⟩
  by_cases inside : e ≤ k
  · obtain ⟨start', isStart', low⟩ := firstInThread?_of_record? recorded'
    rw [(Record.reports_iff.1 reports').1, isStart, Option.some.injEq] at isStart'
    obtain ⟨f', found', below'⟩ := exists_findBetween_le (isStart' ▸ low) inside recorded' reports'
    exact Option.some.inj (found.symm.trans found') ▸ below'
  · exact Nat.le_trans below (Nat.le_of_not_le inside)

/-- The search succeeds if it is not over before an event of the thread that reports the
instruction. -/
theorem exists_firstExecution (recorded : t.record? e = some r)
    (reports : r.reports thread instruction = true) (inside : e ≤ k) :
    ∃ f, t.firstExecution instruction thread k = some f := by
  obtain ⟨start, isStart, low⟩ := firstInThread?_of_record? recorded
  obtain ⟨f, found, -⟩ := exists_findBetween_le low inside recorded reports
  rw [(Record.reports_iff.1 reports).1] at isStart
  exact ⟨f, Option.bind_eq_some_iff.2 ⟨start, isStart, found⟩⟩

/-! ### Loops -/

/-- A branch decides an event of its thread, and stands behind it in its method. -/
structure LoopsBack (t : Trace) (r : Record) (k : EventId) (branch : Instruction) : Prop where
  controlled : r.control = some k
  deciding : ∃ s, t.record? k = some s ∧ s.kind = .branch ∧ s.thread = r.thread ∧
    t.program.instruction? s.instruction = some branch
  behind : ∃ target, t.program.instruction? r.instruction = some target ∧
    branch.loopsTo target = true

/-- An event iterates a loop exactly if a branch decides it that stands behind it. -/
theorem loopOf?_eq_some_iff (recorded : t.record? e = some r) :
    t.loopOf? c e = some f ↔ c.collapseLoops = true ∧ ∃ k branch, t.LoopsBack r k branch ∧
      f = (t.firstExecution branch.id r.thread k).getD k := by
  constructor
  · intro loop
    obtain ⟨k, control, head⟩ := Option.bind_eq_some_iff.1 loop
    rw [controlOf?, recorded, Option.bind_some] at control
    have collapse : c.collapseLoops = true :=
      Decidable.byContradiction fun off => by simp [loopHead, off] at head
    rw [loopHead, if_pos collapse] at head
    cases deciding : t.record? k with
    | none => simp [read, deciding, bind, Except.bind] at head
    | some s =>
      rw [read_of_record? deciding, read_of_record? recorded] at head
      simp only [bind, Except.bind] at head
      have isBranch : s.kind.isBranch = true :=
        Decidable.byContradiction fun other => by simp [other] at head
      have same : s.thread = r.thread :=
        Decidable.byContradiction fun other => by simp [isBranch, other] at head
      rw [if_pos isBranch, if_pos same] at head
      cases found : t.program.instruction? s.instruction with
      | none => simp [found] at head
      | some branch =>
        cases found' : t.program.instruction? r.instruction with
        | none => simp [found'] at head
        | some target =>
          simp only [found, found'] at head
          have loops : branch.loopsTo target = true :=
            Decidable.byContradiction fun other => by simp [other] at head
          rw [if_pos loops] at head
          exact ⟨collapse, k, branch, ⟨control, ⟨s, deciding, of_decide_eq_true isBranch, same,
            found⟩, target, found', loops⟩, (Option.some.inj head).symm⟩
  · rintro ⟨collapse, k, branch, ⟨controlled, ⟨s, deciding, kind, same, found⟩, target, found',
      loops⟩, rfl⟩
    have isBranch : s.kind.isBranch = true := decide_eq_true kind
    have control := controlOf?_of_record? recorded controlled
    rw [loopOf?, control, Option.bind_some, loopHead, if_pos collapse, read_of_record? deciding,
      read_of_record? recorded]
    simp only [bind, Except.bind, if_pos isBranch, if_pos same, found, found', if_pos loops]

/-- A loop is known by the first event of the thread that reports the instruction of its branch,
unless the branch does not go by its own number. -/
theorem loopOf?_key (recorded : t.record? e = some r) (loop : t.loopOf? c e = some f) :
    ∃ k branch, t.LoopsBack r k branch ∧ (t.IsFirst (Record.reports r.thread branch.id) f ∨
      f = k ∧ ∀ s, t.record? k = some s → s.instruction ≠ branch.id) := by
  obtain ⟨-, k, branch, back, rfl⟩ := (loopOf?_eq_some_iff recorded).1 loop
  refine ⟨k, branch, back, ?_⟩
  cases found : t.firstExecution branch.id r.thread k with
  | some f => exact .inl (isFirst_of_firstExecution found)
  | none =>
    refine .inr ⟨rfl, fun s deciding number => ?_⟩
    obtain ⟨s', deciding', -, same, -⟩ := back.deciding
    obtain rfl := Option.some.inj (deciding.symm.trans deciding')
    obtain ⟨f, found'⟩ := exists_firstExecution deciding (Record.reports_iff.2 ⟨same, number⟩)
      (Nat.le_refl k.index)
    cases found.symm.trans found'

/-- In a program that numbers its instructions, a loop is known by the first event of the thread
that reports the instruction of the deciding branch. -/
theorem loopOf?_key_of_numbered (numbered : t.program.Numbered) (recorded : t.record? e = some r)
    (loop : t.loopOf? c e = some f) :
    ∃ k s, r.control = some k ∧ t.record? k = some s ∧ s.kind = .branch ∧ s.thread = r.thread ∧
      t.IsFirst (Record.reports r.thread s.instruction) f := by
  obtain ⟨k, branch, ⟨controlled, ⟨s, deciding, kind, same, found⟩, -⟩, key⟩ :=
    loopOf?_key recorded loop
  have number := numbered s.instruction branch found
  refine ⟨k, s, controlled, deciding, kind, same, ?_⟩
  rcases key with first | ⟨-, other⟩
  · exact number ▸ first
  · exact absurd number.symm (other s deciding)

/-! ### All executions -/

/-- The events of a thread that report an instruction, in order. -/
def executions (t : Trace) (thread : ThreadId) (instruction : InstructionId) : List EventId :=
  ((List.range t.size).map Ident.mk).filter fun e =>
    (t.record? e).any (Record.reports thread instruction)

theorem mem_executions : e ∈ t.executions thread instruction ↔
    ∃ r, t.record? e = some r ∧ r.reports thread instruction = true :=
  mem_eventsWhere

theorem pairwise_executions (t : Trace) (thread : ThreadId) (instruction : InstructionId) :
    (t.executions thread instruction).Pairwise (· < ·) :=
  t.pairwise_eventsWhere _

end Trace

end Inquest
