import Inquest.Proofs.Explanation.Answers

/-!
# Sessions

A reader works with an answer in a session: makes requests, takes the changes that nobody has taken,
adds listeners, changes the priority of the answer and follows the paths of loops, in any order.
Between two of these actions the answer is *at rest*: it is in order, and the books of the last pass
are closed.

## Main Definitions

* `Answer.Action`, `Answer.Report` - what a reader does, and gets to know by it
* `Answer.act`, `Answer.live` - an answer after one action, and after a list of them
* `Graph.Persists` - a graph in which nothing got lost
* `Answer.AtRest` - the invariant between two actions

## Main Statements

* `Answer.AtRest.perform` - a request succeeds, keeps the invariant and loses nothing
* `Answer.AtRest.act` - so does any action
* `Answer.AtRest.live` - and so does a list of actions
-/

namespace Inquest

namespace Graph

variable {g g' g'' : Graph}

/-- Nothing that is in `g` got lost on the way to `g'`. -/
structure Persists (g g' : Graph) : Prop where
  grows : g.Grows g'
  retains : g.Retains g'

theorem Persists.refl (g : Graph) : g.Persists g := ⟨.refl g, fun _ _ progress => progress⟩

theorem Persists.trans (first : g.Persists g') (second : g'.Persists g'') : g.Persists g'' :=
  ⟨first.grows.trans second.grows, first.retains.trans second.retains⟩

end Graph

namespace Answer

variable {t : Trace} {c : Config} {a a' : Answer}

/-! ### Actions -/

/-- What a reader can do with an answer. -/
inductive Action where
  /-- Makes a request. -/
  | call (call : Call)
  /-- Takes the blocks whose announced changes nobody has taken. -/
  | take
  /-- Adds a listener. -/
  | listen
  /-- Gives the answer a priority. -/
  | prioritize (priority : Int)
  /-- Looks up the loop path of a node, if there is such a node. -/
  | follow (node : NodeId)

/-- A request is about a recorded event. -/
def Action.Inside (t : Trace) : Action → Prop
  | .call asked => asked.event.index < t.size
  | _ => True

instance (t : Trace) (action : Action) : Decidable (action.Inside t) :=
  match action with
  | .call asked => inferInstanceAs (Decidable (asked.event.index < t.size))
  | .take | .listen | .prioritize _ | .follow _ => .isTrue trivial

/-- What a reader gets to know by an action. -/
inductive Report where
  /-- What the listeners hear of a request. -/
  | heard (deliveries : List Delivery)
  /-- The blocks that were taken. -/
  | took (blocks : List NodeId)
  | silent

/-- An answer after a request, and what the listeners hear. -/
def perform (a : Answer) : Call → Except Fault (Answer × List Delivery)
  | .explain e => (fun outcome => (outcome.answer, outcome.deliveries)) <$> a.explain e
  | .request e => (fun outcome => (outcome.answer, outcome.deliveries)) <$> a.request e
  | .terminals e => (fun outcome => (outcome.answer, outcome.deliveries)) <$> a.terminals e

/-- An answer after an action, and what the reader gets to know. -/
def act (a : Answer) : Action → Except Fault (Answer × Report)
  | .call asked => Prod.map id .heard <$> a.perform asked
  | .take => .ok (a.takeChanged.1, .took a.takeChanged.2)
  | .listen => .ok (a.listen.1, .silent)
  | .prioritize priority => .ok ({ a with priority }, .silent)
  | .follow node =>
    match a.loopPath node with
    | .ok (a, _) => .ok (a, .silent)
    | .error _ => .ok (a, .silent)

/-- An answer after a list of actions, and what the reader gets to know by each. -/
def live (a : Answer) : List Action → Except Fault (Answer × List Report)
  | [] => .ok (a, [])
  | action :: rest => do
    let (a, report) ← a.act action
    let (a, reports) ← a.live rest
    return (a, report :: reports)

theorem call_eq_perform (a : Answer) (call : Call) : a.call call = Prod.fst <$> a.perform call := by
  cases call <;> simp only [Answer.call, perform, Functor.map_map]

theorem act_call_eq_ok {call : Call} {report : Report}
    (acted : a.act (.call call) = .ok (a', report)) :
    ∃ deliveries, a.perform call = .ok (a', deliveries) ∧ report = .heard deliveries := by
  obtain ⟨⟨a'', deliveries⟩, performed, same⟩ := map_eq_ok_iff.1 acted
  cases same
  exact ⟨deliveries, performed, rfl⟩

/-- Following a path resolves it, if there is such a node. -/
theorem exists_act_follow (a : Answer) (id : NodeId) :
    ∃ a', a.act (.follow id) = .ok (a', .silent) ∧
      (a' = a ∨ a' = { a with graph := a.graph.resolvePath a.trace id }) := by
  simp only [Answer.act]
  cases followed : a.loopPath id with
  | error fault => exact ⟨a, rfl, .inl rfl⟩
  | ok outcome =>
    obtain ⟨⟨graph, path⟩, resolved, concluded⟩ := bind_eq_ok_iff.1 followed
    cases concluded
    obtain ⟨n, -, rfl, -⟩ := Graph.loopPath_cases resolved
    exact ⟨_, rfl, .inr rfl⟩

theorem live_cons_eq_ok {action : Action} {rest : List Action} {reports : List Report}
    (lived : a.live (action :: rest) = .ok (a', reports)) :
    ∃ a₁ report others, a.act action = .ok (a₁, report) ∧ a₁.live rest = .ok (a', others) ∧
      reports = report :: others := by
  rw [live] at lived
  obtain ⟨⟨a₁, report⟩, acted, lived⟩ := bind_eq_ok_iff.1 lived
  obtain ⟨⟨a₂, others⟩, lived', lived⟩ := bind_eq_ok_iff.1 lived
  cases lived
  exact ⟨a₁, report, others, acted, lived', rfl⟩

/-! ### Between actions -/

/-- What holds of an answer between two actions. -/
structure AtRest (t : Trace) (c : Config) (a : Answer) : Prop extends Orderly t c a where
  created : a.graph.created = #[]
  changed : a.graph.changed = ∅

theorem atRest_new (t : Trace) (c : Config) (counter : AnswerCounter) :
    AtRest t c (new t c counter).1 :=
  ⟨orderly_new t c counter, rfl, rfl⟩

/-- A request closes the books. -/
theorem books_of_call {call : Call} (called : a.call call = .ok a') :
    a'.graph.created = #[] ∧ a'.graph.changed = ∅ := by
  have explained : ∀ {e : EventId} {outcome : Outcome NodeId}, a.explain e = .ok outcome →
      outcome.answer.graph.created = #[] ∧ outcome.answer.graph.changed = ∅ := by
    intro e outcome succeeds
    obtain ⟨⟨graph, id⟩, -, concluded⟩ := bind_eq_ok_iff.1 succeeds
    cases concluded
    exact ⟨rfl, rfl⟩
  cases call with
  | explain e =>
    obtain ⟨outcome, succeeds, rfl⟩ := map_eq_ok_iff.1 called
    exact explained succeeds
  | request e =>
    obtain ⟨outcome, succeeds, rfl⟩ := map_eq_ok_iff.1 called
    obtain ⟨⟨graph, id⟩, -, concluded⟩ := bind_eq_ok_iff.1 succeeds
    cases concluded
    exact ⟨rfl, rfl⟩
  | terminals e =>
    obtain ⟨outcome, succeeds, rfl⟩ := map_eq_ok_iff.1 called
    obtain ⟨outcome', succeeds', found⟩ := bind_eq_ok_iff.1 succeeds
    obtain ⟨terminals, -, found⟩ := bind_eq_ok_iff.1 found
    cases found
    exact explained succeeds'

namespace AtRest

variable (rest : AtRest t c a)

include rest

/-- A change of what is derived keeps an answer at rest. -/
theorem alike {graph : Graph} (alike : a.graph.Alike graph) (created : graph.created = #[])
    (changed : graph.changed = ∅) : AtRest t c { a with graph } := by
  have extends' : a.graph.Extends ∅ graph := .of_alike alike
  exact ⟨⟨rest.trace, rest.config, rest.tidy.alike alike, rest.accounted.of_extends extends',
    alike.unexplainedControls.trans rest.drained⟩, created, changed⟩

theorem listen : AtRest t c a.listen.1 :=
  ⟨⟨rest.trace, rest.config, rest.tidy, rest.accounted, rest.drained⟩, rest.created, rest.changed⟩

/-- A request for an event of the recording succeeds. -/
theorem perform (ordered : t.WellOrdered) {call : Call} (inside : call.event.index < t.size) :
    ∃ a' deliveries, a.perform call = .ok (a', deliveries) ∧ AtRest t c a' ∧
      a.graph.Persists a'.graph := by
  obtain ⟨a', called, reached⟩ := rest.toOrderly.call ordered inside
  obtain ⟨created, changed⟩ := books_of_call called
  rw [call_eq_perform] at called
  obtain ⟨⟨a'', deliveries⟩, performed, rfl⟩ := map_eq_ok_iff.1 called
  exact ⟨a'', deliveries, performed, ⟨reached.toOrderly, created, changed⟩,
    ⟨reached.grows, reached.retains⟩⟩

theorem act (ordered : t.WellOrdered) {action : Action} (inside : action.Inside t) :
    ∃ a' report, a.act action = .ok (a', report) ∧ AtRest t c a' ∧ a.graph.Persists a'.graph := by
  cases action with
  | call call =>
    obtain ⟨a', deliveries, performed, rest', persists⟩ := rest.perform ordered inside
    refine ⟨a', .heard deliveries, ?_, rest', persists⟩
    rw [Answer.act, performed]
    rfl
  | take =>
    have alike : a.graph.Alike { a.graph with unread := ∅ } :=
      ⟨⟨⟨rfl, rfl, rfl, rfl, rfl⟩, rfl, fun _ => rfl⟩, fun _ => rfl⟩
    exact ⟨_, _, rfl, rest.alike alike rest.created rest.changed,
      ⟨⟨id, id, id⟩, fun _ _ progress => progress⟩⟩
  | listen => exact ⟨_, _, rfl, rest.listen, .refl a.graph⟩
  | prioritize priority =>
    exact ⟨_, _, rfl, ⟨⟨rest.trace, rest.config, rest.tidy, rest.accounted, rest.drained⟩,
      rest.created, rest.changed⟩, .refl a.graph⟩
  | follow id =>
    obtain ⟨a', acted, rfl | rfl⟩ := a.exists_act_follow id
    · exact ⟨a', .silent, acted, rest, .refl a'.graph⟩
    · have alike : a.graph.Alike (a.graph.resolvePath a.trace id) :=
        Graph.alike_modify fun n _ => n.sameAs_resolvePath _
      have extends' : a.graph.Extends ∅ (a.graph.resolvePath a.trace id) := .of_alike alike
      exact ⟨_, .silent, acted, rest.alike alike rest.created rest.changed,
        ⟨extends'.toGrows, extends'.retains⟩⟩

/-- Actions succeed one after the other. -/
theorem live (ordered : t.WellOrdered) {actions : List Action}
    (inside : ∀ action ∈ actions, action.Inside t) :
    ∃ a' reports, a.live actions = .ok (a', reports) ∧ AtRest t c a' ∧
      a.graph.Persists a'.graph := by
  induction actions generalizing a with
  | nil => exact ⟨a, [], rfl, rest, .refl a.graph⟩
  | cons action others ih =>
    obtain ⟨a₁, report, acted, rest₁, persists₁⟩ :=
      rest.act ordered (inside action List.mem_cons_self)
    obtain ⟨a₂, reports, lived, rest₂, persists₂⟩ := ih rest₁ fun action' member =>
      inside action' (List.mem_cons_of_mem action member)
    refine ⟨a₂, report :: reports, ?_, rest₂, persists₁.trans persists₂⟩
    simp only [Answer.live, acted, lived, bind, Except.bind]
    rfl

end AtRest

end Answer

end Inquest
