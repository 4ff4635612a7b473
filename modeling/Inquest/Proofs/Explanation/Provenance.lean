import Inquest.Proofs.Explanation.Sessions

/-!
# Causes are the recorded dependencies

The causes of an explained event are found one after the other, and for each of them the graph grows
by what its node needs.  The causes do not show anything of this.  Their list can be read off the
record of the event: first the operands, each with the position that it has among all operands, then
the write that was read from the heap, and then, for a call into unrecorded code, the arguments that
are not there already.  The event itself is left out everywhere.

## Main Definitions

* `Trace.ExactCauses` - causes are what was recorded, part by part

## Main Statements

* `Record.dependencies_eq` - the three parts of the dependencies
* `Trace.exists_exactCauses` - causes that say what the dependencies are come in the same parts
* `Answer.causes_exact` - the causes of every explained event, whatever a reader has done
-/

namespace Inquest

/-! ### The parts -/

namespace Record

variable (r : Record) (c : Config) (e : EventId)

theorem operandDependencies_eq : r.operandDependencies e =
    (r.operands.zipIdx.filter fun d => d.1 ≠ e).map fun d => ⟨d.1, .operand d.2⟩ := by
  rw [operandDependencies, ← List.filterMap_eq_map, List.filterMap_filter]
  congr 1
  funext d
  obtain ⟨d, position⟩ := d
  by_cases self : d = e <;> simp [self]

theorem heapDependencies_eq :
    r.heapDependencies e = (r.heap.toList.filter (· ≠ e)).map fun d => ⟨d, .heap⟩ := by
  unfold heapDependencies
  cases r.heap with
  | none => rfl
  | some d => by_cases self : d = e <;> simp [self]

/-- The operands, the heap write and the arguments that are not there already. -/
theorem dependencies_eq : r.dependencies c e =
    r.operandDependencies e ++ r.heapDependencies e ++
      (if c.opaqueArguments = true ∧ r.kind.isInvocation = true then
        unseen (e :: (r.operandDependencies e ++ r.heapDependencies e).map Dependency.event)
          r.opaqueArguments
      else []).map fun d => ⟨d, .opaqueArgument⟩ := by
  unfold dependencies
  by_cases counts : c.opaqueArguments = true ∧ r.kind.isInvocation = true
  · rw [if_pos counts, if_pos (by simp [counts])]
  · rw [if_neg counts, if_neg (by simpa using counts), List.map_nil, List.append_nil]

end Record

namespace Trace

variable {t : Trace} {c : Config} {e : EventId} {r : Record} {causes : List Cause}

/-- The causes of an event, in three parts, are exactly what was recorded. -/
structure ExactCauses (t : Trace) (c : Config) (e : EventId) (r : Record)
    (operands heap arguments : List Cause) : Prop where
  /-- Each operand has the position that it has among all operands. -/
  produced : List.Forall₂ t.Renders operands
    ((r.operands.zipIdx.filter fun d => d.1 ≠ e).map fun d => ⟨d.1, .operand d.2⟩)
  written : List.Forall₂ t.Renders heap ((r.heap.toList.filter (· ≠ e)).map fun d => ⟨d, .heap⟩)
  /-- Arguments count for calls only, and only where they are wanted. -/
  passed : List.Forall₂ t.Renders arguments
    ((if c.opaqueArguments = true ∧ r.kind.isInvocation = true then
      (r.opaqueArguments.filter fun d =>
        d ≠ e ∧ d ∉ (operands ++ heap).map Cause.event).eraseDups
    else []).map fun d => ⟨d, .opaqueArgument⟩)
  /-- Nothing causes itself. -/
  other : ∀ cause ∈ operands ++ heap ++ arguments, cause.event ≠ e
  /-- No argument repeats a cause. -/
  once : ∀ cause ∈ arguments,
    ((operands ++ heap ++ arguments).map Cause.event).count cause.event = 1

/-- Causes that say what two lists of dependencies are come in two lists. -/
theorem exists_append_of_renders {first second : List Dependency}
    (renders : List.Forall₂ t.Renders causes (first ++ second)) :
    ∃ firsts seconds, causes = firsts ++ seconds ∧ List.Forall₂ t.Renders firsts first ∧
      List.Forall₂ t.Renders seconds second :=
  ⟨causes.take first.length, causes.drop first.length, (List.take_append_drop _ _).symm,
    List.forall₂_take_append _ _ _ renders, List.forall₂_drop_append _ _ _ renders⟩

/-- Causes that say what the dependencies of an event are come in the parts of its record. -/
theorem exists_exactCauses (renders : List.Forall₂ t.Renders causes (r.dependencies c e)) :
    ∃ operands heap arguments, causes = operands ++ heap ++ arguments ∧
      t.ExactCauses c e r operands heap arguments := by
  have events := map_event_of_renders renders
  rw [r.dependencies_eq c e] at renders
  obtain ⟨direct, arguments, rfl, renders, passed⟩ := exists_append_of_renders renders
  rw [← map_event_of_renders renders] at passed
  obtain ⟨operands, heap, rfl, produced, written⟩ := exists_append_of_renders renders
  rw [r.operandDependencies_eq] at produced
  rw [r.heapDependencies_eq] at written
  -- the arguments that count are distinct, and not among the causes found before
  have distinct : (arguments.map Cause.event).Nodup ∧
      ∀ d ∈ arguments.map Cause.event, d ∉ (operands ++ heap).map Cause.event := by
    rw [map_event_of_renders passed, List.map_map,
      show (Dependency.event ∘ fun d => ⟨d, .opaqueArgument⟩) = id from rfl, List.map_id]
    split
    · refine ⟨nodup_unseen _ _, fun d listed old => ?_⟩
      exact (mem_unseen.1 listed).2 (List.mem_cons_of_mem e old)
    · exact ⟨List.nodup_nil, fun d listed => absurd listed List.not_mem_nil⟩
  refine ⟨operands, heap, arguments, rfl, produced, written, ?_, ?_, ?_⟩
  · rw [unseen_eq] at passed
    simpa only [List.mem_cons, not_or] using passed
  · intro cause member
    have listed : cause.event ∈ (r.dependencies c e).map Dependency.event :=
      events ▸ List.mem_map_of_mem member
    exact (Record.mem_dependencies_iff.1 listed).1
  · intro cause member
    have listed := List.mem_map_of_mem (f := Cause.event) member
    rw [List.map_append, List.count_append, distinct.1.count, if_pos listed,
      List.count_eq_zero_of_not_mem (distinct.2 _ listed)]

end Trace

namespace Answer

/-- Whatever a reader has done with a fresh answer, the causes of every explained event are exactly
what was recorded, and the node of each cause is the one that stands for its event. -/
theorem causes_exact (t : Trace) (c : Config) (ordered : t.WellOrdered) (counter : AnswerCounter)
    (actions : List Action) (inside : ∀ action ∈ actions, action.Inside t) :
    ∃ a reports, (new t c counter).1.live actions = .ok (a, reports) ∧
      ∀ e id n, a.graph.nodeOf[e]? = some id → a.graph.node id = .ok n → n.status = .done →
        ∃ r operands heap arguments, t.record? e = some r ∧
          n.readCauses = .ok (operands ++ heap ++ arguments) ∧
          t.ExactCauses c e r operands heap arguments ∧
          ∀ cause ∈ operands ++ heap ++ arguments,
            a.graph.nodeOf[cause.event]? = some cause.node := by
  obtain ⟨a, reports, lived, rest, -⟩ := (atRest_new t c counter).live ordered inside
  refine ⟨a, reports, lived, fun e id n known found done => ?_⟩
  obtain ⟨r, recorded⟩ := rest.tidy.recorded_of_cached ⟨id, known⟩
  obtain ⟨causes, has, progress⟩ :=
    rest.accounted.exists_causes (Graph.node_eq_ok_iff.1 found) done
  have renders := rest.accounted.renders progress (rest.tidy.place?_of_event known) recorded
  obtain ⟨operands, heap, arguments, rfl, exact'⟩ := Trace.exists_exactCauses renders
  refine ⟨r, operands, heap, arguments, recorded, ?_, exact', fun cause member => ?_⟩
  · rw [Node.readCauses, has]
  · exact (rest.accounted.causes progress cause member).1

/-- Three values, and a call into unrecorded code that was handed itself, the first value twice and
the last value twice, and that saw the second value on the heap. -/
def opaqueCall : Trace where
  program :=
    { classes := #[{ id := ⟨0⟩, name := "Values", superclass := none }]
      methods := #[
        { id := ⟨0⟩, declaringClass := ⟨0⟩, name := "run", isStatic := true,
          instructions := #[⟨0⟩, ⟨1⟩, ⟨2⟩, ⟨3⟩] }]
      instructions := #[
        { id := ⟨0⟩, method := ⟨0⟩, position := 0, kind := .other },
        { id := ⟨1⟩, method := ⟨0⟩, position := 1, kind := .other },
        { id := ⟨2⟩, method := ⟨0⟩, position := 2, kind := .other },
        { id := ⟨3⟩, method := ⟨0⟩, position := 3, kind := .invoke ⟨0⟩ }] }
  events := #[
    { kind := .value, instruction := ⟨0⟩ },
    { kind := .value, instruction := ⟨1⟩ },
    { kind := .value, instruction := ⟨2⟩ },
    { kind := .invocation, instruction := ⟨3⟩, operands := [⟨3⟩, ⟨0⟩], heap := some ⟨1⟩,
      opaqueArguments := [⟨2⟩, ⟨0⟩, ⟨3⟩, ⟨2⟩] }]
  ends := ∅

/-- The causes of the call are the operand that is not the call itself, the heap write and one
argument.  The node of the last value was there before. -/
theorem causes_exact_opaqueCall :
    opaqueCall.WellOrdered ∧
      ∃ a reports r operands heap arguments,
        (new opaqueCall {} {}).1.live [.listen, .call (.request ⟨2⟩), .call (.explain ⟨3⟩)] =
          .ok (a, reports) ∧
        opaqueCall.record? ⟨3⟩ = some r ∧
        opaqueCall.ExactCauses {} ⟨3⟩ r operands heap arguments ∧
        operands ++ heap ++ arguments =
          [⟨⟨3⟩, ⟨0⟩, .operand 1 ⟨0⟩⟩, ⟨⟨4⟩, ⟨1⟩, .heap⟩, ⟨⟨0⟩, ⟨2⟩, .opaqueArgument⟩] := by
  have ordered : opaqueCall.WellOrdered := by decide +kernel
  have inside : ∀ action ∈ [Action.listen, .call (.request ⟨2⟩), .call (.explain ⟨3⟩)],
      action.Inside opaqueCall := by decide +kernel
  have explained : (((new opaqueCall {} {}).1.live
      [.listen, .call (.request ⟨2⟩), .call (.explain ⟨3⟩)]).toOption.bind fun outcome =>
        outcome.1.graph.nodeOf[(⟨3⟩ : EventId)]?.bind outcome.1.graph.progress?) =
      some (.done, some
        [⟨⟨3⟩, ⟨0⟩, .operand 1 ⟨0⟩⟩, ⟨⟨4⟩, ⟨1⟩, .heap⟩, ⟨⟨0⟩, ⟨2⟩, .opaqueArgument⟩]) := by
    decide +kernel
  obtain ⟨a, reports, lived, causes⟩ := causes_exact opaqueCall {} ordered {} _ inside
  rw [lived, Except.toOption, Option.bind_some] at explained
  obtain ⟨id, known, progress⟩ := Option.bind_eq_some_iff.1 explained
  obtain ⟨n, found, same⟩ := Option.map_eq_some_iff.1 progress
  obtain ⟨r, operands, heap, arguments, recorded, read, exact', -⟩ :=
    causes ⟨3⟩ id n known (Graph.node_eq_ok_iff.2 found) (congrArg Prod.fst same)
  refine ⟨ordered, a, reports, r, operands, heap, arguments, lived, recorded, exact', ?_⟩
  rw [Node.readCauses, show n.causes = some _ from congrArg Prod.snd same] at read
  exact (Except.ok.inj read).symm

end Answer

end Inquest
