import Mathlib.Order.Bounds.Basic
import Inquest.Proofs.Explanation.Answers

/-!
# What requests create and explain

A request leads to other events: to the start of a loop or the control of an event that is placed,
and to what an event depends on that is explained.  Nothing of this is left out, so the events that
have a node after some requests, and those that are explained, are closed.  Nothing is added to it
either, so there are no smaller closed sets that do justice to the requests.  Since least sets are
unique, it does not matter in which order the requests are made.

## Main Definitions

* `Graph.createdEvents`, `Graph.explainedEvents` - the events that have a node or an explanation
* `Answer.coverings` - the closed sets that do justice to some requests

## Main Statements

* `Graph.closed_of_drained` - when nothing is left to be explained, the two sets are closed
* `Answer.requests_least_closure` - requests create and explain the least sets that they have to
-/

namespace Inquest

namespace Graph

variable {g : Graph} {t : Trace} {c : Config} {e k : EventId}

/-- The events that have a node. -/
def createdEvents (g : Graph) : Set EventId := { e | g.Cached e }

/-- The events that are explained. -/
def explainedEvents (g : Graph) : Set EventId := { e | g.isExplained e = true }

theorem Accounted.mem_explainedEvents_iff {pending : List NodeId}
    (accounted : g.Accounted t c pending) :
    e ∈ g.explainedEvents ↔ ∃ id, g.nodeOf[e]? = some id ∧ g.Done id := by
  rw [explainedEvents, Set.mem_ofPred_eq, isExplained_iff]
  constructor
  · rintro ⟨id, causes, known, progress⟩
    rcases accounted.status progress with ⟨unvisited, -⟩ | ⟨causes', done⟩
    · cases unvisited
    · exact ⟨id, known, causes', done ▸ progress⟩
  · rintro ⟨id, known, causes, progress⟩
    exact ⟨id, some causes, known, progress⟩

/-- A block stands for the control of every event that has a node and iterates no loop. -/
theorem Tidy.exists_controlBlock {loose : Option EventId} (tidy : g.Tidy t c loose)
    (cached : g.Cached e) (notLoose : loose ≠ some e) (control : t.controlOf? e = some k)
    (noLoop : t.loopOf? c e = none) : ∃ b, g.controlBlocks[k]? = some b := by
  obtain ⟨r, recorded, controlled⟩ := Option.bind_eq_some_iff.1 control
  obtain ⟨b, target⟩ := tidy.housed cached notLoose
  rw [target?, recorded, Option.bind_some] at target
  simp only [controlled, noLoop] at target
  obtain ⟨block, stands, -⟩ := Option.bind_eq_some_iff.1 target
  exact ⟨block, stands⟩

/-- When nothing is left to be explained, nothing is missing. -/
theorem closed_of_drained (tidy : g.Tidy t c none) (accounted : g.Accounted t c [])
    (drained : g.unexplainedControls = []) :
    t.Closed c g.createdEvents g.explainedEvents := by
  constructor
  · intro e explained
    obtain ⟨id, known, -⟩ := accounted.mem_explainedEvents_iff.1 explained
    exact ⟨id, known⟩
  · rintro e o explained ⟨r, recorded, depends⟩
    obtain ⟨id, known, causes, progress⟩ := accounted.mem_explainedEvents_iff.1 explained
    -- what was recorded is among the causes, and these are explained
    have listed := Record.mem_dependencies_iff.2 depends
    rw [← accounted.depends progress (tidy.place?_of_event known) recorded] at listed
    obtain ⟨cause, member, rfl⟩ := List.mem_map.1 listed
    obtain ⟨known', done⟩ := accounted.causes progress cause member
    exact accounted.mem_explainedEvents_iff.2
      ⟨cause.node, known', done.resolve_right List.not_mem_nil⟩
  · intro e f cached loop
    obtain ⟨b, keyed⟩ := tidy.looped cached (Option.some_ne_none e).symm loop
    exact (tidy.keyed keyed).1
  · intro e k cached control noLoop
    obtain ⟨b, stands⟩ :=
      tidy.exists_controlBlock cached (Option.some_ne_none e).symm control noLoop
    obtain ⟨id, known, done⟩ := accounted.controls stands
    rw [drained] at done
    exact accounted.mem_explainedEvents_iff.2
      ⟨id, known, done.resolve_right fun waits => waits.elim List.not_mem_nil List.not_mem_nil⟩

/-- When nothing is left to be explained, no explanation is under way. -/
theorem Accounted.status_ne_inProgress {id : NodeId} {n : Node} (accounted : g.Accounted t c [])
    (found : g.node? id = some n) : n.status ≠ .inProgress := by
  intro underWay
  rcases accounted.status (progress?_of_node? found) with ⟨unvisited, -⟩ | ⟨causes, done⟩
  · cases underWay.symm.trans (congrArg Prod.fst unvisited)
  · cases underWay.symm.trans (congrArg Prod.fst done)

/-- When nothing is left to be explained, the causes of an explained node are explained.  If the
node stands for an event, they are what the event depends on. -/
theorem Accounted.causes_of_done {id : NodeId} {n : Node} (accounted : g.Accounted t c [])
    (tidy : g.Tidy t c none) (found : g.node? id = some n) (done : n.status = .done) :
    ∃ causes, n.causes = some causes ∧
      (∀ e, n.place = .event e → ∀ o, o ∈ causes.map Cause.event ↔ t.DependsOn c e o) ∧
      ∀ cause ∈ causes, ∃ m, g.node? cause.node = some m ∧ m.place = .event cause.event ∧
        m.status = .done := by
  obtain ⟨causes, has, progress⟩ := accounted.exists_causes found done
  refine ⟨causes, has, ?_, ?_⟩
  · intro e isEvent o
    have place : g.place? id = some (.event e) :=
      (place?_of_shape? (shape?_of_node? found)).trans (by rw [n.place_shape, isEvent])
    obtain ⟨r, recorded⟩ := tidy.recorded_of_cached ⟨id, tidy.registered.2 place⟩
    rw [accounted.depends progress place recorded, Record.mem_dependencies_iff, Trace.DependsOn]
    simp only [recorded, Option.some.injEq, exists_eq_left']
  · intro cause member
    obtain ⟨known, explained⟩ := accounted.causes progress cause member
    obtain ⟨causes', done'⟩ := explained.resolve_right List.not_mem_nil
    obtain ⟨m, found', progress'⟩ := Option.map_eq_some_iff.1 done'
    obtain ⟨s, shape, place⟩ := exists_shape?_of_place? (tidy.place?_of_event known)
    rw [shape?_of_node? found', Option.some.injEq] at shape
    refine ⟨m, found', ?_, congrArg Prod.fst progress'⟩
    rw [← m.place_shape, shape, place]

theorem within_empty (created explained : Set EventId) :
    ({} : Graph).Within created explained [] := by
  have unknown : ∀ (e : EventId) (id : NodeId), ({} : Graph).nodeOf[e]? ≠ some id := by
    intro e id known
    cases Std.TreeMap.getElem?_emptyc.symm.trans known
  refine ⟨fun {e} ⟨id, known⟩ => absurd known (unknown e id),
    fun {e id} known => absurd known (unknown e id), fun id waits => ?_⟩
  exact absurd (waits.elim (fun waits => waits) fun waits => waits) List.not_mem_nil

end Graph

namespace Answer

variable {t : Trace} {c : Config} {calls : List Call}

/-- The closed sets that have the events in them that some requests are about, and those that they
explain. -/
def coverings (t : Trace) (c : Config) (calls : List Call) : Set (Set EventId × Set EventId) :=
  { s | t.Closed c s.1 s.2 ∧ Covers calls s.1 s.2 }

theorem coverings_congr {calls' : List Call} (same : ∀ call, call ∈ calls' ↔ call ∈ calls) :
    coverings t c calls' = coverings t c calls := by
  ext s
  refine and_congr_right fun _ => ⟨fun covers => ?_, fun covers => ?_⟩
  · exact ⟨fun call member => covers.requested call ((same call).2 member),
      fun call member => covers.asked call ((same call).2 member)⟩
  · exact ⟨fun call member => covers.requested call ((same call).1 member),
      fun call member => covers.asked call ((same call).1 member)⟩

/-- What is reached from a fresh answer is the least that the requests ask for. -/
theorem Reached.isLeast {counter : AnswerCounter} {a : Answer}
    (reached : Reached t c (new t c counter).1 calls a) :
    IsLeast (coverings t c calls) (a.graph.createdEvents, a.graph.explainedEvents) := by
  have accounted := reached.accounted
  refine ⟨⟨Graph.closed_of_drained reached.tidy accounted reached.drained, ?_, ?_⟩, ?_⟩
  · intro call member
    exact reached.cached call.event (List.mem_map_of_mem member)
  · intro call member explains
    exact accounted.mem_explainedEvents_iff.2 (reached.done call member explains)
  · rintro ⟨created, explained⟩ ⟨closed, covers⟩
    have within := reached.within closed covers (Graph.within_empty created explained)
    refine ⟨fun e cached => within.cached cached, fun e isExplained => ?_⟩
    obtain ⟨id, known, done⟩ := accounted.mem_explainedEvents_iff.1 isExplained
    exact within.done known done

/-- After any requests about recorded events the events that have a node and those that are
explained are the least sets that do justice to the requests and are closed, so they do not depend
on the order of the requests.  No explanation is under way, and the causes of an explained event are
the events that it depends on and are explained themselves. -/
theorem requests_least_closure (t : Trace) (c : Config) (ordered : t.WellOrdered)
    (counter : AnswerCounter) (calls : List Call)
    (inside : ∀ call ∈ calls, call.event.index < t.size) :
    ∃ a, (new t c counter).1.run calls = .ok a ∧
      IsLeast (coverings t c calls) (a.graph.createdEvents, a.graph.explainedEvents) ∧
      (∀ counter' calls', (∀ call, call ∈ calls' ↔ call ∈ calls) →
        ∃ a', (new t c counter').1.run calls' = .ok a' ∧
          a'.graph.createdEvents = a.graph.createdEvents ∧
          a'.graph.explainedEvents = a.graph.explainedEvents) ∧
      (∀ id n, a.graph.node id = .ok n → n.status ≠ .inProgress) ∧
      ∀ id n, a.graph.node id = .ok n → n.status = .done → ∃ causes, n.causes = some causes ∧
        (∀ e, n.place = .event e → ∀ o, o ∈ causes.map Cause.event ↔ t.DependsOn c e o) ∧
        ∀ cause ∈ causes, ∃ m, a.graph.node cause.node = .ok m ∧ m.place = .event cause.event ∧
          m.status = .done := by
  obtain ⟨a, succeeds, reached⟩ := (orderly_new t c counter).run ordered inside
  have least := reached.isLeast
  refine ⟨a, succeeds, least, ?_, ?_, ?_⟩
  · intro counter' calls' same
    obtain ⟨a', succeeds', reached'⟩ := (orderly_new t c counter').run ordered fun call member =>
      inside call ((same call).1 member)
    have least' := reached'.isLeast
    rw [coverings_congr same] at least'
    have equal := least'.unique least
    exact ⟨a', succeeds', congrArg Prod.fst equal, congrArg Prod.snd equal⟩
  · intro id n found
    exact reached.accounted.status_ne_inProgress (Graph.node_eq_ok_iff.1 found)
  · intro id n found done
    simp only [Graph.node_eq_ok_iff] at found ⊢
    exact reached.accounted.causes_of_done reached.tidy found done

/-! ### A guarded value -/

/-- A branch that depends on a value, and a value that it decides about. -/
def guardedValue : Trace where
  program :=
    { classes := #[{ id := ⟨0⟩, name := "Guard", superclass := none }]
      methods := #[
        { id := ⟨0⟩, declaringClass := ⟨0⟩, name := "run", isStatic := true,
          instructions := #[⟨0⟩, ⟨1⟩, ⟨2⟩] }]
      instructions := #[
        { id := ⟨0⟩, method := ⟨0⟩, position := 0, kind := .other },
        { id := ⟨1⟩, method := ⟨0⟩, position := 1, kind := .branch },
        { id := ⟨2⟩, method := ⟨0⟩, position := 2, kind := .other }] }
  events := #[
    { kind := .value, instruction := ⟨0⟩ },
    { kind := .branch, instruction := ⟨1⟩, operands := [⟨0⟩] },
    { kind := .value, instruction := ⟨2⟩, operands := [⟨0⟩],
      control := some ⟨1⟩ }]
  ends := ∅

/-- Nothing needs the last value to be explained. -/
theorem closed_guardedValue : guardedValue.Closed {} Set.univ { e | e ≠ ⟨2⟩ } := by
  have unused : ∀ r ∈ guardedValue.events, ⟨2⟩ ∉ r.operands ∧ r.heap = none ∧
      r.opaqueArguments = [] ∧ r.control ≠ some ⟨2⟩ := by decide
  refine ⟨fun _ _ => trivial, ?_, fun _ _ => trivial, ?_⟩
  · rintro e o - ⟨r, recorded, -, listed⟩ rfl
    obtain ⟨operands, heap, arguments, -⟩ := unused r (Array.mem_of_getElem? recorded)
    simp [operands, heap, arguments] at listed
  · rintro e k - control - rfl
    obtain ⟨r, recorded, controlled⟩ := Option.bind_eq_some_iff.1 control
    exact (unused r (Array.mem_of_getElem? recorded)).2.2.2 controlled

/-- Who requests the last value gets the branch explained, and with it the value that the branch
depends on.  The last value itself is not explained. -/
theorem requests_least_closure_guardedValue :
    guardedValue.WellOrdered ∧
      ∃ a, (new guardedValue {} {}).1.run [.request ⟨2⟩] = .ok a ∧
        ⟨1⟩ ∈ a.graph.explainedEvents ∧ ⟨0⟩ ∈ a.graph.explainedEvents ∧
        ⟨2⟩ ∈ a.graph.createdEvents ∧ ⟨2⟩ ∉ a.graph.explainedEvents := by
  have ordered : guardedValue.WellOrdered := by decide +kernel
  have inside : ∀ call ∈ [Call.request ⟨2⟩], call.event.index < guardedValue.size := by
    decide +kernel
  obtain ⟨a, succeeds, ⟨⟨closed, covers⟩, least⟩, -⟩ :=
    requests_least_closure guardedValue {} ordered {} _ inside
  have created : ⟨2⟩ ∈ a.graph.createdEvents := covers.requested _ List.mem_cons_self
  have control : ⟨1⟩ ∈ a.graph.explainedEvents := closed.control created rfl rfl
  have value : ⟨0⟩ ∈ a.graph.explainedEvents :=
    closed.cause control ⟨_, rfl, by decide, .inl List.mem_cons_self⟩
  refine ⟨ordered, a, succeeds, control, value, created, fun explained => ?_⟩
  have covers' : Covers [.request ⟨2⟩] Set.univ { e | e ≠ ⟨2⟩ } :=
    ⟨fun _ _ => trivial, List.forall_mem_singleton.2 nofun⟩
  exact (least (a := (Set.univ, { e | e ≠ ⟨2⟩ })) ⟨closed_guardedValue, covers'⟩).2 explained rfl

end Answer

end Inquest
