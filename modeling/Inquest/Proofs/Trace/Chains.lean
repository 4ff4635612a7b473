import Inquest.Proofs.Trace.Dependence
import Inquest.Proofs.Walk

/-!
# Chains of causes

Who asks for the data behind an event follows its causes, and the causes of these.  A chain of
causes goes on through the values that were computed on the way, and ends at events of certain kinds
and at values that depend on nothing.  All this can be read off a recording.  In a well-ordered
recording no chain leaves the recording, so a walk finds all events that chains lead to, although
chains may go round in circles.

## Main Definitions

* `Trace.causesOf` - the events that an event depends on, in the order in which they become causes
* `Trace.EndsChain` - the events at which chains end
* `Trace.LeadsTo` - the events that chains from an event lead to without an end on the way
* `Trace.causesEnding` - the causes of an event at which chains end, or those at which they do not

## Main Statements

* `Trace.endsChain_iff` - it can be tested whether chains end at an event
* `Trace.mem_causesEnding_iff` - the causes found are the ones that were recorded
* `Trace.WellOrdered.exists_effects` - a walk visits exactly what chains lead to
-/

namespace Inquest.Trace

variable {t : Trace} {c : Config} {e o x : EventId} {r : Record}

/-! ### Causes -/

/-- The events that an event depends on, in the order in which they become causes. -/
def causesOf (t : Trace) (c : Config) (e : EventId) : List EventId :=
  match t.record? e with
  | some r => (r.dependencies c e).map Dependency.event
  | none => []

theorem causesOf_of_record? (recorded : t.record? e = some r) :
    t.causesOf c e = (r.dependencies c e).map Dependency.event := by
  simp only [causesOf, recorded]

theorem mem_causesOf_iff : o ∈ t.causesOf c e ↔ t.DependsOn c e o := by
  unfold causesOf DependsOn
  cases t.record? e with
  | none => simp
  | some r =>
    simp only [Option.some.injEq, exists_eq_left']
    exact Record.mem_dependencies_iff

/-! ### Ends of chains -/

/-- Chains of causes end at an event: because of its kind, or since it is a value that depends on
nothing. -/
def EndsChain (t : Trace) (c : Config) (e : EventId) : Prop :=
  ∃ r, t.record? e = some r ∧
    (r.kind.isTerminal = true ∨ r.kind.isValueProduced = true ∧ ∀ o, ¬ t.DependsOn c e o)

/-- Whether chains of causes end at an event. -/
def endsChain (t : Trace) (c : Config) (e : EventId) : Bool :=
  match t.record? e with
  | some r => if r.kind.isValueProduced then (t.causesOf c e).isEmpty else r.kind.isTerminal
  | none => false

theorem endsChain_of_record? (recorded : t.record? e = some r) :
    t.endsChain c e =
      if r.kind.isValueProduced then (t.causesOf c e).isEmpty else r.kind.isTerminal := by
  simp only [endsChain, recorded]

theorem endsChain_iff : t.endsChain c e = true ↔ t.EndsChain c e := by
  cases recorded : t.record? e with
  | none => simp [endsChain, EndsChain, recorded]
  | some r =>
    have uncaused : (t.causesOf c e).isEmpty = true ↔ ∀ o, ¬ t.DependsOn c e o := by
      simp only [List.isEmpty_iff, List.eq_nil_iff_forall_not_mem, mem_causesOf_iff]
    rw [endsChain_of_record? recorded]
    simp only [EndsChain, recorded, Option.some.injEq, exists_eq_left']
    cases computed : r.kind.isValueProduced with
    | false => simp
    | true =>
      -- computed values are of no kind at which chains end
      have other : r.kind.isTerminal = false := by
        rw [of_decide_eq_true computed]
        rfl
      simpa [other] using uncaused

instance (t : Trace) (c : Config) (e : EventId) : Decidable (t.EndsChain c e) :=
  decidable_of_iff _ endsChain_iff

/-- The causes of an event at which chains end, or those at which they do not. -/
def causesEnding (t : Trace) (c : Config) (ending : Bool) (e : EventId) : List EventId :=
  (t.causesOf c e).filter (t.endsChain c · == ending)

theorem mem_causesEnding_iff {ending : Bool} :
    o ∈ t.causesEnding c ending e ↔ t.DependsOn c e o ∧ (t.EndsChain c o ↔ ending = true) := by
  rw [causesEnding, List.mem_filter, mem_causesOf_iff, beq_iff_eq, ← endsChain_iff,
    ← Bool.eq_iff_iff]

/-! ### Where chains lead -/

/-- A chain of causes leads from one event to another, and does not end before it or there. -/
def LeadsTo (t : Trace) (c : Config) : EventId → EventId → Prop :=
  Relation.ReflTransGen fun e o => t.DependsOn c e o ∧ ¬ t.EndsChain c o

namespace WellOrdered

variable (ordered : t.WellOrdered)

include ordered

theorem lt_size_of_leadsTo (inside : e.index < t.size) (leads : t.LeadsTo c e x) :
    x.index < t.size := by
  cases Relation.ReflTransGen.cases_tail leads with
  | inl same => exact same ▸ inside
  | inr step =>
    obtain ⟨y, -, ⟨r, recorded, depends⟩, -⟩ := step
    exact ordered.dependency_lt recorded depends

/-- A walk over the recording comes to an end and visits exactly what chains lead to. -/
theorem exists_effects (c : Config) (inside : e.index < t.size) :
    ∃ effects, walk (fun x => .ok (t.causesEnding c false x)) t.size [e] [] = .ok effects ∧
      ∀ x, x ∈ effects ↔ t.LeadsTo c e x := by
  refine walk_reaches (fun events nodup met => ?_) (fun x _ => ?_) (Nat.le_refl t.size)
  · exact Ident.length_le_of_nodup nodup fun x member =>
      ordered.lt_size_of_leadsTo inside (met x member)
  · refine ⟨_, rfl, fun o => ?_⟩
    simp only [mem_causesEnding_iff, Bool.false_eq_true, iff_false]

end WellOrdered

end Inquest.Trace
