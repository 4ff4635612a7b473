import Mathlib.Data.Set.Basic
import Mathlib.Logic.Relation
import Inquest.Explanation.Cause
import Inquest.Proofs.Trace.Order

/-!
# What an event needs

There are two ways in which one event needs another.  To be explained, it needs the events that it
depends on, and these have to be explained too.  To have a node at all, it needs the event that it
waits for; if that is its control, and not the start of a loop, the control has to be explained.
Two sets of events are *closed* if they have all that their events need, to have a node and to be
explained.

## Main Definitions

* `Record.DependsOn` - the events that an event depends on, as they were recorded
* `Trace.Requires` - the events that need a node before an event can have one
* `Trace.Closed` - sets of events that have all that they need

## Main Statements

* `unseen_eq` - the events that have not been seen, in terms of first occurrences
* `Record.mem_dependencies_iff` - the dependencies found are the ones that were recorded
* `Trace.Closed.requirements_subset` - closed sets have what their events require
-/

namespace Inquest

/-! ### Dependencies -/

/-- The events that have not been seen are the first occurrences of the others. -/
theorem unseen_eq (seen events : List EventId) :
    unseen seen events = (events.filter (· ∉ seen)).eraseDups := by
  induction events generalizing seen with
  | nil => rfl
  | cons e rest ih =>
    unfold unseen
    by_cases old : e ∈ seen
    · rw [if_pos old, ih, List.filter_cons_of_neg (by simp [old])]
    · rw [if_neg old, ih, List.filter_cons_of_pos (by simp [old]), List.eraseDups_cons,
        List.filter_filter]
      congr 3
      funext e'
      simp [beq_eq_decide]

theorem mem_unseen {seen events : List EventId} {e : EventId} :
    e ∈ unseen seen events ↔ e ∈ events ∧ e ∉ seen := by
  rw [unseen_eq, List.mem_eraseDups, List.mem_filter, decide_eq_true_eq]

theorem nodup_unseen (seen events : List EventId) : (unseen seen events).Nodup := by
  induction events generalizing seen with
  | nil => exact List.nodup_nil
  | cons e rest ih =>
    unfold unseen
    split
    · exact ih seen
    · exact List.nodup_cons.2 ⟨fun again => (mem_unseen.1 again).2 List.mem_cons_self, ih _⟩

namespace Record

variable {r : Record} {c : Config} {e o : EventId}

/-- An event with this record depends on another event: on a producer of an operand, on the write
that it read, or, where arguments of calls into unrecorded code count, on the producer of one. -/
def DependsOn (r : Record) (c : Config) (e o : EventId) : Prop :=
  o ≠ e ∧ (o ∈ r.operands ∨ r.heap = some o ∨
    c.opaqueArguments = true ∧ r.kind.isInvocation = true ∧ o ∈ r.opaqueArguments)

theorem mem_operandDependencies :
    o ∈ (r.operandDependencies e).map Dependency.event ↔ o ≠ e ∧ o ∈ r.operands := by
  simp only [operandDependencies, List.mem_map, List.mem_filterMap]
  constructor
  · rintro ⟨d, ⟨⟨o', position⟩, listed, found⟩, rfl⟩
    have found : (if o' = e then none else some ⟨o', .operand position⟩) = some d := found
    split at found
    · cases found
    · next other =>
      cases found
      exact ⟨other, List.fst_mem_of_mem_zipIdx listed⟩
  · rintro ⟨other, listed⟩
    obtain ⟨position, found⟩ := List.mem_iff_getElem?.1 listed
    have listed := List.mk_mem_zipIdx_iff_getElem?.2 found
    exact ⟨⟨o, .operand position⟩, ⟨(o, position), listed, if_neg other⟩, rfl⟩

theorem mem_heapDependencies :
    o ∈ (r.heapDependencies e).map Dependency.event ↔ o ≠ e ∧ r.heap = some o := by
  unfold heapDependencies
  cases r.heap with
  | none => simp
  | some written =>
    by_cases self : written = e
    · subst self
      simp [eq_comm]
    · simp only [if_neg self, List.map_cons, List.map_nil, List.mem_singleton, Option.some.injEq]
      constructor
      · rintro rfl
        exact ⟨self, rfl⟩
      · exact fun found => found.2.symm

/-- The dependencies found are the ones that were recorded. -/
theorem mem_dependencies_iff :
    o ∈ (r.dependencies c e).map Dependency.event ↔ r.DependsOn c e o := by
  have direct : o ∈ (r.operandDependencies e ++ r.heapDependencies e).map Dependency.event ↔
      o ≠ e ∧ (o ∈ r.operands ∨ r.heap = some o) := by
    rw [List.map_append, List.mem_append, mem_operandDependencies, mem_heapDependencies,
      ← and_or_left]
  unfold dependencies DependsOn
  dsimp only
  by_cases counts : (c.opaqueArguments && r.kind.isInvocation) = true
  · rw [if_pos counts, List.map_append, List.mem_append, direct, List.map_map,
      show (Dependency.event ∘ fun e => ⟨e, .opaqueArgument⟩) = id from rfl, List.map_id,
      mem_unseen, List.mem_cons, direct]
    rw [Bool.and_eq_true] at counts
    simp only [counts, true_and]
    grind
  · rw [if_neg counts, direct]
    rw [Bool.and_eq_true] at counts
    grind

end Record

namespace Trace

variable {t : Trace} {c : Config} {e k o : EventId} {r : Record} {wanted : List EventId}
variable {created explained : Set EventId}

/-- An event depends on another one, by its record. -/
def DependsOn (t : Trace) (c : Config) (e o : EventId) : Prop :=
  ∃ r, t.record? e = some r ∧ r.DependsOn c e o

/-- What an event depends on was recorded. -/
theorem WellOrdered.dependency_lt (ordered : t.WellOrdered) (recorded : t.record? e = some r)
    (depends : r.DependsOn c e o) : o.index < t.size := by
  obtain ⟨-, operand | written | ⟨-, -, argument⟩⟩ := depends
  · exact ordered.operand recorded operand
  · exact ordered.heap recorded written
  · exact ordered.opaqueArgument recorded argument

/-! ### Requirements -/

/-- An event requires itself, and what an event waits for that it requires. -/
def Requires (t : Trace) (c : Config) : EventId → EventId → Prop :=
  Relation.ReflTransGen fun e k => t.needs? c e = some k

/-- The events that are required by some of the given ones. -/
def requirements (t : Trace) (c : Config) (wanted : List EventId) : Set EventId :=
  { k | ∃ e ∈ wanted, t.Requires c e k }

theorem WellOrdered.lt_size_of_requires (ordered : t.WellOrdered) (inside : e.index < t.size)
    (requires : t.Requires c e k) : k.index < t.size := by
  induction requires with
  | refl => exact inside
  | tail _ needed earlier =>
    obtain ⟨r, recorded⟩ := record?_of_lt earlier
    exact Nat.lt_trans (ordered.needs?_lt recorded needed) earlier

theorem requirements_mono {more : List EventId} (subset : wanted ⊆ more) :
    t.requirements c wanted ⊆ t.requirements c more :=
  fun _ ⟨e, listed, requires⟩ => ⟨e, subset listed, requires⟩

/-- The first set has the events that have a node and the second one those that are explained, and
they have all that is needed for this. -/
structure Closed (t : Trace) (c : Config) (created explained : Set EventId) : Prop where
  subset : explained ⊆ created
  cause : ∀ {e o}, e ∈ explained → t.DependsOn c e o → o ∈ explained
  loop : ∀ {e f}, e ∈ created → t.loopOf? c e = some f → f ∈ created
  control : ∀ {e k}, e ∈ created → t.controlOf? e = some k → t.loopOf? c e = none → k ∈ explained

namespace Closed

variable (closed : t.Closed c created explained)

include closed

theorem needs (member : e ∈ created) (needed : t.needs? c e = some k) : k ∈ created := by
  rcases Option.or_eq_some_iff.1 needed with loop | ⟨noLoop, control⟩
  · exact closed.loop member loop
  · exact closed.subset (closed.control member control noLoop)

/-- Closed sets have what their events require. -/
theorem requirements_subset (subset : ∀ e ∈ wanted, e ∈ created) :
    t.requirements c wanted ⊆ created := by
  rintro k ⟨e, listed, requires⟩
  induction requires with
  | refl => exact subset e listed
  | tail _ needed member => exact closed.needs member needed

end Closed

end Trace

end Inquest
