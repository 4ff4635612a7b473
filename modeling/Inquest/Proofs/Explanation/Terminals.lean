import Inquest.Proofs.Explanation.Closure
import Inquest.Proofs.Explanation.Sessions
import Inquest.Proofs.Trace.Chains

/-!
# Terminal dependencies are those of the recording

The terminal dependencies of an event are found by a walk over the nodes of an explanation, whose
numbers tell in which order the events were met, in this request or in earlier ones.  The numbers do
not matter: explained nodes correspond one to one to events, and their causes to what the events
depend on, so the walk over the nodes is a walk over the recording under other names.  What it
visits and what it finds is determined by the recording.

Each event at the end of a chain is entered once for every visited event that it is a cause of, so
the last visited effect stays.

## Main Definitions

* `Graph.Explains` - an explained node and the event that it stands for
* `Trace.chainEnds` - the ends of the chains from some events, each with the last of its effects

## Main Statements

* `Graph.causesEnding_eq` - the causes of an explained node are those of its event
* `Graph.terminals_eq` - terminal dependencies are read off the recording
* `Trace.getElem?_chainEnds` - the effect that an end of a chain is shown with
* `Answer.terminals_exact` - the terminal dependencies of an event
-/

namespace Inquest

/-! ### The last effect of each end -/

namespace Trace

variable {t : Trace} {c : Config} {d x : EventId}

/-- The ends of the chains of causes from some events, each with the last of the events that it is a
cause of. -/
def chainEnds (t : Trace) (c : Config) (effects : List EventId) : Std.TreeMap EventId EventId :=
  effects.foldl
    (fun found x => (t.causesEnding c true x).foldl (fun found d => found.insert d x) found) ∅

theorem getElem?_foldl_insert (causes : List EventId) (found : Std.TreeMap EventId EventId)
    (d x : EventId) :
    (causes.foldl (fun found d => found.insert d x) found)[d]? =
      if d ∈ causes then some x else found[d]? := by
  induction causes generalizing found with
  | nil => simp
  | cons first rest ih =>
    rw [List.foldl_cons, ih, Ident.getElem?_insert]
    by_cases later : d ∈ rest
    · simp [later]
    · simp [later]

/-- An end of a chain is shown with the last effect that it is a cause of. -/
theorem getElem?_chainEnds (effects : List EventId) :
    (t.chainEnds c effects)[d]? = effects.reverse.find? (d ∈ t.causesEnding c true ·) := by
  induction effects using List.reverseRecOn with
  | nil => exact Std.TreeMap.getElem?_emptyc
  | append_singleton before x ih =>
    rw [chainEnds, List.foldl_append, List.foldl_cons, List.foldl_nil, getElem?_foldl_insert,
      List.reverse_append, List.reverse_singleton, List.singleton_append]
    by_cases here : d ∈ t.causesEnding c true x
    · rw [if_pos here, List.find?_cons_of_pos (by simpa using here)]
    · rw [if_neg here, List.find?_cons_of_neg (by simpa using here)]
      exact ih

theorem of_getElem?_chainEnds {effects : List EventId}
    (shown : (t.chainEnds c effects)[d]? = some x) :
    x ∈ effects ∧ t.DependsOn c x d ∧ t.EndsChain c d := by
  rw [getElem?_chainEnds] at shown
  have cause : d ∈ t.causesEnding c true x := by simpa using List.find?_some shown
  obtain ⟨depends, ends⟩ := mem_causesEnding_iff.1 cause
  exact ⟨List.mem_reverse.1 (List.mem_of_find?_eq_some shown), depends, ends.2 rfl⟩

theorem mem_chainEnds_iff {effects : List EventId} :
    d ∈ t.chainEnds c effects ↔ ∃ x ∈ effects, t.DependsOn c x d ∧ t.EndsChain c d := by
  rw [Std.TreeMap.mem_iff_isSome_getElem?, getElem?_chainEnds, List.find?_isSome]
  simp only [List.mem_reverse, decide_eq_true_eq, mem_causesEnding_iff, iff_true]

end Trace

/-! ### Nodes and events -/

namespace Graph

variable {g : Graph} {t : Trace} {c : Config} {id root : NodeId} {e : EventId}

/-- A node stands for an event and is explained. -/
def Explains (g : Graph) (id : NodeId) (e : EventId) : Prop := g.nodeOf[e]? = some id ∧ g.Done id

theorem Tidy.explains_oneToOne (tidy : g.Tidy t c none) {id id' : NodeId} {e e' : EventId}
    (explains : g.Explains id e) (explains' : g.Explains id' e') : id = id' ↔ e = e' := by
  constructor
  · rintro rfl
    exact tidy.event_unique explains.1 explains'.1
  · rintro rfl
    exact Option.some.inj (explains.1.symm.trans explains'.1)

section Accounted

variable (tidy : g.Tidy t c none) (accounted : g.Accounted t c [])

include tidy accounted

/-- The causes of an explained node are those of its event, and explained. -/
theorem readCauses_eq (explains : g.Explains id e) :
    ∃ n causes, g.node id = .ok n ∧ n.event = e ∧ n.readCauses = .ok causes ∧
      causes.map Cause.event = t.causesOf c e ∧
      ∀ cause ∈ causes, g.Explains cause.node cause.event := by
  obtain ⟨known, done⟩ := explains
  obtain ⟨n, causes, found, read, progress⟩ := done.readCauses
  obtain ⟨s, r, shape, -, anchor, recorded, -⟩ := tidy.shape?_of_event known
  have event : n.event = e := by
    rw [shape?_of_node? (node_eq_ok_iff.1 found), Option.some.injEq] at shape
    exact (congrArg Shape.anchor shape).trans anchor
  refine ⟨n, causes, found, event, read, ?_, fun cause member => ?_⟩
  · rw [accounted.depends progress (tidy.place?_of_event known) recorded,
      Trace.causesOf_of_record? recorded]
  · obtain ⟨known', done'⟩ := accounted.causes progress cause member
    exact ⟨known', done'.resolve_right List.not_mem_nil⟩

/-- Whether chains end at a cause is told by the recording. -/
theorem endsChain_eq {cause : Cause} (explains : g.Explains cause.node cause.event) :
    g.endsChain t cause = .ok (t.endsChain c cause.event) := by
  obtain ⟨n, causes, found, -, read, events, -⟩ := readCauses_eq tidy accounted explains
  obtain ⟨r, recorded⟩ := tidy.recorded_of_cached ⟨_, explains.1⟩
  have kind : t.kind cause.event = .ok r.kind := Trace.map_read_of_record? recorded Record.kind
  rw [Trace.endsChain_of_record? recorded, ← events, List.isEmpty_map]
  simp only [endsChain, kind, bind, Except.bind]
  cases r.kind.isValueProduced with
  | false => rfl
  | true =>
    simp only [found, read]
    rfl

/-- The causes of an explained node at which chains end, or do not, are those of its event. -/
theorem causesEnding_eq (ending : Bool) (explains : g.Explains id e) :
    ∃ causes, g.causesEnding t ending id = .ok causes ∧
      causes.map Cause.event = t.causesEnding c ending e ∧
      ∀ cause ∈ causes, g.Explains cause.node cause.event := by
  obtain ⟨n, causes, found, -, read, events, explained⟩ := readCauses_eq tidy accounted explains
  have filtered : causes.filterM (fun cause => (· == ending) <$> g.endsChain t cause) =
      .ok (causes.filter fun cause => t.endsChain c cause.event == ending) := by
    refine filterM_eq_ok fun cause member => ?_
    rw [endsChain_eq tidy accounted (explained cause member)]
    rfl
  refine ⟨causes.filter fun cause => t.endsChain c cause.event == ending, ?_, ?_, ?_⟩
  · simp only [causesEnding, found, read, bind, Except.bind]
    exact filtered
  · rw [Trace.causesEnding, ← events, List.filter_map]
    rfl
  · exact fun cause member => explained cause (List.mem_filter.1 member).1

/-- The terminal dependencies of an explained event are found on a walk over the recording. -/
theorem terminals_eq {effects : List EventId} (explains : g.Explains root e)
    (walked : walk (fun x => .ok (t.causesEnding c false x)) t.size [e] [] = .ok effects) :
    g.terminals t root = .ok (t.chainEnds c effects) := by
  obtain ⟨found, terminal⟩ := terminals_spec tidy accounted explains.2
  obtain ⟨ids, walked', -⟩ := bind_eq_ok_iff.1 terminal
  have corresponds : ∀ {id e}, g.Explains id e → ∃ successors successors',
      List.map Cause.node <$> g.causesEnding t false id = .ok successors ∧
      .ok (t.causesEnding c false e) = (.ok successors' : Except Fault (List EventId)) ∧
      List.Forall₂ g.Explains successors successors' := by
    intro id e explains
    obtain ⟨causes, ending, events, explained⟩ := causesEnding_eq tidy accounted false explains
    refine ⟨causes.map Cause.node, _, by rw [ending]; rfl, rfl, ?_⟩
    rw [← events, List.forall₂_map_left_iff, List.forall₂_map_right_iff, List.forall₂_same]
    exact explained
  -- the walk over the recording visits the events of the nodes
  obtain ⟨effects', walked'', related⟩ := walk_forall₂ tidy.explains_oneToOne corresponds
    (.cons explains .nil) .nil walked'
  obtain rfl := walk_unique walked'' walked
  unfold terminals
  rw [walked']
  refine foldlM_eq_foldl (fun {id x} found explains => ?_) related ∅
  obtain ⟨n, -, node, event, -⟩ := readCauses_eq tidy accounted explains
  obtain ⟨causes, ending, events, -⟩ := causesEnding_eq tidy accounted true explains
  simp only [node, ending, event, bind, Except.bind, ← events, List.foldl_map]
  rfl

end Accounted

end Graph

/-! ### Answers -/

namespace Answer

variable {t : Trace} {c : Config} {a : Answer} {e : EventId}

/-- What chains from an explained event lead to is explained, and so are its causes. -/
theorem Orderly.explained_of_leadsTo (orderly : Orderly t c a) {x : EventId}
    (explained : e ∈ a.graph.explainedEvents) (leads : t.LeadsTo c e x) :
    x ∈ a.graph.explainedEvents ∧ ∀ d, t.DependsOn c x d → d ∈ a.graph.explainedEvents := by
  have closed := Graph.closed_of_drained orderly.tidy orderly.accounted orderly.drained
  have reached : x ∈ a.graph.explainedEvents := by
    induction leads with
    | refl => exact explained
    | tail _ step ih => exact closed.cause ih step.1
  exact ⟨reached, fun d => closed.cause reached⟩

/-- A request for terminal dependencies succeeds, explains the event, and gives what is found on a
walk over the recording. -/
theorem Orderly.terminals_eq (orderly : Orderly t c a) (ordered : t.WellOrdered)
    (inside : e.index < t.size) {effects : List EventId}
    (walked : walk (fun x => .ok (t.causesEnding c false x)) t.size [e] [] = .ok effects) :
    ∃ outcome, a.terminals e = .ok outcome ∧ outcome.value = t.chainEnds c effects ∧
      Orderly t c outcome.answer ∧ e ∈ outcome.answer.graph.explainedEvents := by
  obtain ⟨outcome, explained, reached, known, done⟩ :=
    @Orderly.explain t c a orderly ordered (.terminals e) inside rfl
  have explained : a.explain e = .ok outcome := explained
  have explains : outcome.answer.graph.Explains outcome.value e := ⟨known, done⟩
  have found := Graph.terminals_eq reached.tidy reached.accounted explains walked
  refine ⟨{ outcome with value := t.chainEnds c effects }, ?_, rfl, reached.toOrderly, ?_⟩
  · simp only [terminals, explained, orderly.trace, found, bind, Except.bind]
    rfl
  · exact reached.accounted.mem_explainedEvents_iff.2 ⟨_, known, done⟩

/-- Whatever a reader has done with a fresh answer, a request for the terminal dependencies of an
event succeeds.  They are the causes at which chains end of the events that chains lead to, and each
of them is shown with one of these events.  All nodes that are read on the way are explained.  A
reader of another answer about the recording, who has done other things with it, gets the same. -/
theorem terminals_exact (t : Trace) (c : Config) (ordered : t.WellOrdered) (counter : AnswerCounter)
    (actions : List Action) (inside : ∀ action ∈ actions, action.Inside t) (e : EventId)
    (recorded : e.index < t.size) :
    ∃ a reports outcome, (new t c counter).1.live actions = .ok (a, reports) ∧
      a.terminals e = .ok outcome ∧
      (∀ d, d ∈ outcome.value ↔
        ∃ x, t.LeadsTo c e x ∧ t.DependsOn c x d ∧ t.EndsChain c d) ∧
      (∀ d x : EventId, outcome.value[d]? = some x → t.LeadsTo c e x ∧ t.DependsOn c x d) ∧
      (∀ x, t.LeadsTo c e x → x ∈ outcome.answer.graph.explainedEvents ∧
        ∀ d, t.DependsOn c x d → d ∈ outcome.answer.graph.explainedEvents) ∧
      ∀ counter' actions', (∀ action ∈ actions', action.Inside t) →
        ∃ a' reports' outcome', (new t c counter').1.live actions' = .ok (a', reports') ∧
          a'.terminals e = .ok outcome' ∧ outcome'.value = outcome.value := by
  obtain ⟨effects, walked, visited⟩ := ordered.exists_effects c recorded
  obtain ⟨a, reports, lived, rest, -⟩ := (atRest_new t c counter).live ordered inside
  obtain ⟨outcome, found, value, orderly, explained⟩ :=
    rest.toOrderly.terminals_eq ordered recorded walked
  refine ⟨a, reports, outcome, lived, found, fun d => ?_, fun d x shown => ?_,
    fun x leads => orderly.explained_of_leadsTo explained leads,
    fun counter' actions' inside' => ?_⟩
  · simp only [value, Trace.mem_chainEnds_iff, visited]
  · rw [value] at shown
    obtain ⟨member, depends, -⟩ := Trace.of_getElem?_chainEnds shown
    exact ⟨(visited x).1 member, depends⟩
  · obtain ⟨a', reports', lived', rest', -⟩ := (atRest_new t c counter').live ordered inside'
    obtain ⟨outcome', found', value', -, -⟩ :=
      rest'.toOrderly.terminals_eq ordered recorded walked
    exact ⟨a', reports', outcome', lived', found', value'.trans value.symm⟩

/-- A value, a variable that it is stored in, and two values that depend on these and on each
other. -/
def mutualValues : Trace where
  program :=
    { classes := #[{ id := ⟨0⟩, name := "Values", superclass := none }]
      methods := #[
        { id := ⟨0⟩, declaringClass := ⟨0⟩, name := "run", isStatic := true,
          instructions := #[⟨0⟩, ⟨1⟩, ⟨2⟩, ⟨3⟩] }]
      instructions := #[
        { id := ⟨0⟩, method := ⟨0⟩, position := 0, kind := .other },
        { id := ⟨1⟩, method := ⟨0⟩, position := 1, kind := .other },
        { id := ⟨2⟩, method := ⟨0⟩, position := 2, kind := .other },
        { id := ⟨3⟩, method := ⟨0⟩, position := 3, kind := .other }] }
  events := #[
    { kind := .value, instruction := ⟨0⟩ },
    { kind := .localDefinition, instruction := ⟨1⟩, operands := [⟨0⟩] },
    { kind := .value, instruction := ⟨2⟩, operands := [⟨0⟩, ⟨1⟩, ⟨3⟩] },
    { kind := .value, instruction := ⟨3⟩, operands := [⟨2⟩, ⟨1⟩] }]
  ends := ∅

/-- The chains from the last value go on through the other one, and end at the variable and at the
first value.  It makes no difference that the other one was explained before. -/
theorem terminals_exact_mutualValues :
    mutualValues.WellOrdered ∧
      ∃ a reports outcome,
        (new mutualValues {} {}).1.live [.listen, .call (.request ⟨1⟩), .call (.explain ⟨2⟩)] =
          .ok (a, reports) ∧
        a.terminals ⟨3⟩ = .ok outcome ∧
        ⟨0⟩ ∈ outcome.value ∧ ⟨1⟩ ∈ outcome.value ∧ ⟨2⟩ ∉ outcome.value ∧
        ∃ outcome', (new mutualValues {} {}).1.terminals ⟨3⟩ = .ok outcome' ∧
          outcome'.value = outcome.value := by
  have ordered : mutualValues.WellOrdered := by decide +kernel
  have inside : ∀ action ∈ [Action.listen, .call (.request ⟨1⟩), .call (.explain ⟨2⟩)],
      action.Inside mutualValues := by decide +kernel
  obtain ⟨a, reports, outcome, lived, found, ends, -, -, same⟩ :=
    terminals_exact mutualValues {} ordered {} _ inside ⟨3⟩ (by decide +kernel)
  have depends : ∀ {e o : EventId}, o ∈ mutualValues.causesOf {} e →
      mutualValues.DependsOn {} e o := Trace.mem_causesOf_iff.1
  have leads : mutualValues.LeadsTo {} ⟨3⟩ ⟨2⟩ :=
    .single ⟨depends (by decide +kernel), by decide +kernel⟩
  refine ⟨ordered, a, reports, outcome, lived, found, ?_, ?_, ?_, ?_⟩
  · exact (ends ⟨0⟩).2 ⟨⟨2⟩, leads, depends (by decide +kernel), by decide +kernel⟩
  · exact (ends ⟨1⟩).2 ⟨⟨3⟩, .refl, depends (by decide +kernel), by decide +kernel⟩
  · intro listed
    obtain ⟨x, -, -, ending⟩ := (ends ⟨2⟩).1 listed
    exact absurd ending (by decide +kernel)
  · obtain ⟨a', reports', outcome', lived', found', equal⟩ :=
      same {} [] fun action member => absurd member List.not_mem_nil
    cases lived'
    exact ⟨outcome', found', equal⟩

end Answer

end Inquest
