import Mathlib.Data.List.Basic
import Inquest.Trace.Basic

/-!
# What the index of a recording lists

The index is gathered record by record.  What it lists is what a plain look at the records gives.

## Main Definitions

* `Trace.eventsWhere` - a plain look at the records
* `Trace.starts` - whether an event starts an invocation of a method

## Main Statements

* `Ident.head?_eq_some_iff`, `Ident.getLast?_eq_some_iff` - the ends of an ascending list
* `Index.lists_ofEvents` - what the whole recording lists, from what one more record adds
* `Trace.invocationsOf_eq_filter` - the invocations of a method before any event
* `Trace.invocationsOf_eq` - the invocations of a method before an event of the recording
* `Trace.pairwise_invocationsOf` - they are listed in ascending order, before any event
-/

namespace Inquest

/-! ### Ascending lists -/

namespace Ident

variable {kind : IdentKind} {l : List (Ident kind)} {a : Ident kind}

/-- The first element of an ascending list is the least. -/
theorem head?_eq_some_iff (ascending : l.Pairwise (· < ·)) :
    l.head? = some a ↔ a ∈ l ∧ ∀ b ∈ l, a ≤ b := by
  cases l with
  | nil => simp
  | cons first rest =>
    obtain ⟨above, -⟩ := List.pairwise_cons.1 ascending
    have least : ∀ b ∈ first :: rest, first ≤ b := by
      intro b listed
      rcases List.mem_cons.1 listed with rfl | later
      · exact Nat.le_refl _
      · exact Nat.le_of_lt (above b later)
    rw [List.head?_cons, Option.some.injEq]
    constructor
    · rintro rfl
      exact ⟨List.mem_cons_self, least⟩
    · rintro ⟨listed, below⟩
      exact Ident.ext (Nat.le_antisymm (least a listed) (below first List.mem_cons_self))

/-- The last element of an ascending list is the greatest. -/
theorem getLast?_eq_some_iff (ascending : l.Pairwise (· < ·)) :
    l.getLast? = some a ↔ a ∈ l ∧ ∀ b ∈ l, b ≤ a := by
  have greatest : ∀ {a}, l.getLast? = some a → ∀ b ∈ l, b ≤ a := by
    intro a last b listed
    obtain ⟨front, rfl⟩ := List.getLast?_eq_some_iff.1 last
    rcases List.mem_append.1 listed with early | late
    · exact Nat.le_of_lt ((List.pairwise_append.1 ascending).2.2 b early a (by simp))
    · exact List.mem_singleton.1 late ▸ Nat.le_refl _
  constructor
  · intro last
    exact ⟨List.mem_of_getLast? last, greatest last⟩
  · rintro ⟨listed, above⟩
    obtain ⟨b, last⟩ : ∃ b, l.getLast? = some b :=
      Option.isSome_iff_exists.1 (List.getLast?_isSome.2 (List.ne_nil_of_mem listed))
    have same : a.index = b.index :=
      Nat.le_antisymm (greatest last a listed) (above b (List.mem_of_getLast? last))
    rw [last, Ident.ext same]

end Ident

namespace Index

/-! ### One more record -/

theorem size_push (p : Program) (ix : Index) (r : Record) : (ix.push p r).size = ix.size + 1 := by
  unfold push
  cases r.startedMethod? p <;> cases r.instantiated? p <;> rfl

theorem invocations_push (p : Program) (ix : Index) (r : Record) (method : MethodId) :
    ((ix.push p r).invocations.getD method #[]).toList =
      (ix.invocations.getD method #[]).toList ++
        if r.startedMethod? p = some method then [⟨ix.size⟩] else [] := by
  unfold push
  cases started : r.startedMethod? p with
  | none => cases r.instantiated? p <;> simp [pushThread, pushInstance]
  | some method' =>
    have lookup : ∀ ix : Index, ∀ event,
        ((ix.pushInvocation event method').invocations.getD method #[]).toList =
          (ix.invocations.getD method #[]).toList ++ if method' = method then [event] else [] := by
      intro ix event
      simp only [pushInvocation, Std.TreeMap.getD_insert, Ident.compare_eq_iff]
      split
      · next same => simp [same]
      · simp
    cases r.instantiated? p <;> simp [pushThread, pushInstance, lookup]

/-- What the index lists as invocations after some of the records. -/
structure Lists (p : Program) (events : Array Record) (count : Nat) (ix : Index) : Prop where
  size : ix.size = count
  invocations : ∀ method, (ix.invocations.getD method #[]).toList =
    ((List.range count).map Ident.mk).filter fun e =>
      events[e.index]?.any (·.startedMethod? p = some method)

variable {p : Program} {events : Array Record} {count : Nat} {ix : Index} {r : Record}

/-- One more record is taken in. -/
theorem Lists.push (lists : Lists p events count ix) (next : events[count]? = some r) :
    Lists p events (count + 1) (ix.push p r) := by
  refine ⟨by rw [size_push, lists.size], fun method => ?_⟩
  rw [invocations_push, lists.invocations, lists.size, List.range_succ, List.map_append,
    List.filter_append]
  simp [next, List.filter_cons]

/-- The index of a recording lists the invocations of each method. -/
theorem lists_ofEvents (p : Program) (events : Array Record) :
    Lists p events events.size (ofEvents p events) := by
  unfold ofEvents
  refine Array.foldl_induction (fun count ix => Lists p events count ix) ⟨rfl, ?_⟩ ?_
  · intro method
    simp
  · intro index ix lists
    exact lists.push (by simp)

end Index

namespace Trace

variable {t : Trace} {method : MethodId} {before e : EventId} {p : Record → Bool}

/-! ### A plain look at the records -/

/-- The events whose records meet a condition, in ascending order. -/
def eventsWhere (t : Trace) (p : Record → Bool) : List EventId :=
  ((List.range t.size).map Ident.mk).filter fun e => (t.record? e).any p

theorem mem_eventsWhere : e ∈ t.eventsWhere p ↔ ∃ r, t.record? e = some r ∧ p r = true := by
  rw [eventsWhere, List.mem_filter, Option.any_eq_true]
  refine ⟨fun both => both.2, fun meets => ⟨?_, meets⟩⟩
  obtain ⟨r, recorded, -⟩ := meets
  have inside : e.index < t.size := (Array.getElem?_eq_some_iff.1 recorded).1
  exact List.mem_map.2 ⟨e.index, List.mem_range.2 inside, rfl⟩

theorem pairwise_eventsWhere (t : Trace) (p : Record → Bool) :
    (t.eventsWhere p).Pairwise (· < ·) := by
  have ascending : ((List.range t.size).map Ident.mk : List EventId).Pairwise (· < ·) :=
    List.pairwise_map.2 List.pairwise_lt_range
  exact ascending.filter _

theorem length_eventsWhere_le (t : Trace) (p : Record → Bool) :
    (t.eventsWhere p).length ≤ t.size := by
  refine Nat.le_trans (List.length_filter_le _ _) (Nat.le_of_eq ?_)
  rw [List.length_map, List.length_range]

/-! ### Invocations -/

/-- The invocations of a method before an event are the earlier events that start one. -/
theorem invocationsOf_eq_filter (t : Trace) (method : MethodId) (before : EventId) :
    t.invocationsOf method before =
      (t.eventsWhere (·.startedMethod? t.program = some method)).filter (· < before) := by
  have lists := (Index.lists_ofEvents t.program t.events).invocations method
  rw [← t.index_eq] at lists
  rw [invocationsOf, lists]
  rfl

/-- Whether an event starts an invocation of a method. -/
def starts (t : Trace) (method : MethodId) (e : EventId) : Bool :=
  (t.record? e).any (·.startedMethod? t.program = some method)

/-- The invocations of a method before an event of the recording are all the earlier events that
start one, in ascending order. -/
theorem invocationsOf_eq (inside : before.index ≤ t.size) :
    t.invocationsOf method before =
      ((List.range before.index).map Ident.mk).filter (t.starts method) := by
  obtain ⟨rest, size⟩ := Nat.exists_eq_add_of_le inside
  have cut : (((List.range t.size).map Ident.mk).filter fun e : EventId => e < before) =
      (List.range before.index).map Ident.mk := by
    have low : ∀ e ∈ (List.range before.index).map Ident.mk, decide (e < before) = true := by
      intro e listed
      obtain ⟨index, member, rfl⟩ := List.mem_map.1 listed
      exact decide_eq_true (List.mem_range.1 member)
    have high : ∀ e ∈ ((List.range rest).map (before.index + ·)).map Ident.mk,
        ¬ decide (e < before) = true := by
      intro e listed
      obtain ⟨index, shifted, rfl⟩ := List.mem_map.1 listed
      obtain ⟨offset, -, rfl⟩ := List.mem_map.1 shifted
      rw [decide_eq_true_eq, Ident.lt_def]
      exact Nat.not_lt.2 (Nat.le_add_right _ _)
    rw [size, List.range_add, List.map_append, List.filter_append, List.filter_eq_self.2 low,
      List.filter_eq_nil_iff.2 high, List.append_nil]
  rw [invocationsOf_eq_filter, eventsWhere, List.filter_comm]
  exact congrArg (List.filter (t.starts method)) cut

/-- Invocations are listed in ascending order. -/
theorem pairwise_invocationsOf (t : Trace) (method : MethodId) (before : EventId) :
    (t.invocationsOf method before).Pairwise (· < ·) := by
  rw [invocationsOf_eq_filter]
  exact (t.pairwise_eventsWhere _).filter _

end Trace

end Inquest
