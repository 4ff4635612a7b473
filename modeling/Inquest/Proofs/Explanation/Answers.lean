import Inquest.Explanation.Answer
import Inquest.Proofs.Explanation.Rounds

/-!
# Answers over time

An answer starts empty and grows with the requests that a reader makes.  Between two requests its
graph is tidy, and nothing is left to be explained.  On a well-ordered recording no request about a
recorded event fails: its event can be placed and explained, and every cause that the search for
terminal dependencies comes to is explained by then.

## Main Definitions

* `Answer.Call` - a request about an event
* `Answer.call`, `Answer.run` - an answer after one request, and after a list of them
* `Answer.Orderly` - the invariant between two requests
* `Answer.Reached` - what requests lead to

## Main Statements

* `Graph.terminals_spec` - terminal dependencies can be found
* `Answer.Orderly.call` - a request succeeds and keeps the invariant
* `Answer.Orderly.run` - so does a list of requests
-/

namespace Inquest

/-- A filter whose test succeeds succeeds, and adds nothing. -/
theorem filterM_subset {α : Type} {f : α → Except Fault Bool} {l : List α}
    (succeeds : ∀ a ∈ l, ∃ b, f a = .ok b) : ∃ kept, l.filterM f = .ok kept ∧ kept ⊆ l := by
  have tests : ∀ a ∈ l, f a = .ok ((f a).toOption.getD false) := by
    intro a member
    obtain ⟨b, test⟩ := succeeds a member
    rw [test]
    rfl
  exact ⟨_, filterM_eq_ok tests, List.filter_subset_self l⟩

/-- A fold whose step succeeds succeeds. -/
theorem foldlM_succeeds {α β : Type} {step : β → α → Except Fault β} {l : List α}
    (succeeds : ∀ a ∈ l, ∀ b, ∃ b', step b a = .ok b') (b : β) :
    ∃ b', l.foldlM step b = .ok b' := by
  induction l generalizing b with
  | nil => exact ⟨b, rfl⟩
  | cons a rest ih =>
    obtain ⟨b₁, first⟩ := succeeds a List.mem_cons_self b
    rw [List.foldlM_cons, first]
    exact ih (fun a' member => succeeds a' (List.mem_cons_of_mem a member)) b₁

namespace Graph

variable {g : Graph} {t : Trace} {c : Config} {x root : NodeId} {causes : List Cause}

/-! ### Terminal dependencies -/

/-- The causes of an explained node can be read. -/
theorem Done.readCauses (done : g.Done x) :
    ∃ n causes, g.node x = .ok n ∧ n.readCauses = .ok causes ∧
      g.progress? x = some (.done, some causes) := by
  obtain ⟨causes, progress⟩ := done
  obtain ⟨n, found, progress'⟩ := Option.map_eq_some_iff.1 progress
  refine ⟨n, causes, node_eq_ok_iff.2 found, ?_, progress⟩
  rw [Node.readCauses, show n.causes = some causes from congrArg Prod.snd progress']

section Accounted

variable (tidy : g.Tidy t c none) (accounted : g.Accounted t c [])

include tidy accounted

/-- Whether a chain ends at a cause of an explained node can be told. -/
theorem endsChain_spec {cause : Cause} (progress : g.progress? x = some (.done, some causes))
    (member : cause ∈ causes) : ∃ ends, g.endsChain t cause = .ok ends := by
  obtain ⟨known, done⟩ := accounted.causes progress cause member
  obtain ⟨r, recorded⟩ := tidy.recorded_of_cached ⟨_, known⟩
  have kind : t.kind cause.event = .ok r.kind :=
    Trace.map_read_of_record? recorded Record.kind
  obtain ⟨n, causes', found, read, -⟩ := (done.resolve_right List.not_mem_nil).readCauses
  unfold endsChain
  simp only [kind, bind, Except.bind]
  split
  · simp only [found, read]
    exact ⟨_, rfl⟩
  · exact ⟨_, rfl⟩

/-- The causes of an explained node at which chains end, or do not, can be found.  They are
explained themselves. -/
theorem causesEnding_spec (ending : Bool) (done : g.Done x) :
    ∃ causes, g.causesEnding t ending x = .ok causes ∧ ∀ cause ∈ causes, g.Done cause.node := by
  obtain ⟨n, causes, found, read, progress⟩ := done.readCauses
  obtain ⟨kept, filtered, subset⟩ : ∃ kept,
      causes.filterM (fun cause => (· == ending) <$> g.endsChain t cause) = .ok kept ∧
        kept ⊆ causes := by
    refine filterM_subset fun cause member => ?_
    obtain ⟨ends, tells⟩ := endsChain_spec tidy accounted progress member
    exact ⟨ends == ending, by rw [tells]; rfl⟩
  refine ⟨kept, ?_, fun cause member => ?_⟩
  · simp only [causesEnding, found, read, bind, Except.bind]
    exact filtered
  · exact (accounted.causes progress cause (subset member)).2.resolve_right List.not_mem_nil

/-- The terminal dependencies of an explained node can be found. -/
theorem terminals_spec (done : g.Done root) : ∃ found, g.terminals t root = .ok found := by
  -- the walk stays among the explained nodes, of which there are no more than nodes
  have short : ∀ ids : List NodeId, ids.Nodup → (∀ id ∈ ids, g.Done id) → ids.length ≤ g.size := by
    intro ids nodup explained
    refine Ident.length_le_of_nodup nodup fun id member => ?_
    obtain ⟨causes, progress⟩ := explained id member
    exact lt_size_of_progress? progress
  have closed : ∀ id, g.Done id → ∃ successors,
      List.map Cause.node <$> g.causesEnding t false id = .ok successors ∧
        ∀ x ∈ successors, g.Done x := by
    intro id done
    obtain ⟨causes, found, explained⟩ := causesEnding_spec tidy accounted false done
    refine ⟨causes.map Cause.node, by rw [found]; rfl, fun x member => ?_⟩
    obtain ⟨cause, listed, rfl⟩ := List.mem_map.1 member
    exact explained cause listed
  have room : g.size ≤ g.size + ([] : List NodeId).length := Nat.le_refl _
  have start : ∀ x ∈ [root], g.Done x := fun x member => List.mem_singleton.1 member ▸ done
  obtain ⟨effects, walked, explained⟩ := walk_spec short closed room List.nodup_nil start nofun
  unfold terminals
  rw [walked]
  refine foldlM_succeeds (fun id member found => ?_) ∅
  have done := explained id member
  obtain ⟨n, -, node, -, -⟩ := done.readCauses
  obtain ⟨causes, ending, -⟩ := causesEnding_spec tidy accounted true done
  simp only [node, ending, bind, Except.bind]
  exact ⟨_, rfl⟩

end Accounted

end Graph

namespace Answer

variable {t : Trace} {c : Config} {a : Answer}

/-! ### Requests -/

/-- A request about an event. -/
inductive Call where
  | explain (event : EventId)
  | request (event : EventId)
  | terminals (event : EventId)
deriving DecidableEq

/-- The event that a request is about. -/
def Call.event : Call → EventId
  | .explain e => e
  | .request e => e
  | .terminals e => e

/-- Whether a request asks for an explanation of its event. -/
def Call.explains : Call → Bool
  | .explain _ => true
  | .request _ => false
  | .terminals _ => true

/-- An answer after a request. -/
def call (a : Answer) : Call → Except Fault Answer
  | .explain e => Outcome.answer <$> a.explain e
  | .request e => Outcome.answer <$> a.request e
  | .terminals e => Outcome.answer <$> a.terminals e

/-- An answer after a list of requests. -/
def run (a : Answer) (calls : List Call) : Except Fault Answer := calls.foldlM call a

/-- What holds of an answer between two requests. -/
structure Orderly (t : Trace) (c : Config) (a : Answer) : Prop where
  trace : a.trace = t
  config : a.config = c
  tidy : a.graph.Tidy t c none
  /-- Nothing is left to be explained. -/
  accounted : a.graph.Accounted t c []
  drained : a.graph.unexplainedControls = []

theorem orderly_new (t : Trace) (c : Config) (counter : AnswerCounter) :
    Orderly t c (new t c counter).1 := by
  have noProgress : ∀ x, ({} : Graph).progress? x = none := fun x => by
    rw [Graph.progress?, Graph.node?, Array.getElem?_empty, Option.map_none]
  refine ⟨rfl, rfl, Graph.tidy_empty t c, ⟨fun {x y} progress => ?_, fun {x y} progress => ?_,
    fun {x y e r} progress => ?_, fun {k b} stands => ?_⟩, rfl⟩
  · cases (noProgress x).symm.trans progress
  · cases (noProgress x).symm.trans progress
  · cases (noProgress x).symm.trans progress
  · cases Std.TreeMap.getElem?_emptyc.symm.trans stands

/-- Two sets of events have all that some requests lead to in them: the events that the requests are
about, and those that they explain. -/
structure Covers (calls : List Call) (created explained : Set EventId) : Prop where
  requested : ∀ call ∈ calls, call.event ∈ created
  asked : ∀ call ∈ calls, call.explains = true → call.event ∈ explained

/-- The answer `a'` is reached from `a` by requests: nothing got lost, the events that they were
about have a node, and those that they explain are explained. -/
structure Reached (t : Trace) (c : Config) (a : Answer) (calls : List Call) (a' : Answer) : Prop
    extends Orderly t c a' where
  grows : a.graph.Grows a'.graph
  retains : a.graph.Retains a'.graph
  cached : ∀ e ∈ calls.map Call.event, a'.graph.Cached e
  done : ∀ call ∈ calls, call.explains = true →
    ∃ id, a'.graph.nodeOf[call.event]? = some id ∧ a'.graph.Done id
  /-- Nothing else was done. -/
  within : ∀ {created explained}, t.Closed c created explained → Covers calls created explained →
    a.graph.Within created explained [] → a'.graph.Within created explained []

/-- Closing a pass changes neither tables nor shapes nor explanations. -/
theorem Orderly.conclude {α : Type} {graph : Graph} {id : NodeId} (orderly : Orderly t c a)
    (call : Call) (served : a.graph.Served t c call.event id graph)
    (done : call.explains = true → graph.Done id)
    (within : ∀ {created explained}, t.Closed c created explained →
      Covers [call] created explained → a.graph.Within created explained [] →
      graph.Within created explained [])
    (value : α) : Reached t c a [call] (a.conclude graph value).answer := by
  have tidy := served.tidy
  have accounted := served.accounted
  refine ⟨⟨orderly.trace, orderly.config, tidy.congr ⟨rfl, rfl, rfl, rfl, rfl⟩ fun _ => rfl,
    ⟨accounted.status, accounted.causes, accounted.renders, accounted.controls⟩, served.drained⟩,
    ⟨served.at?, served.place?, served.controlBlocks⟩, served.retains, fun e member => ?_,
    fun call' member explains => ?_, fun closed covers known => ?_⟩
  · exact List.mem_singleton.1 member ▸ ⟨id, served.known⟩
  · cases List.mem_singleton.1 member
    exact ⟨id, served.known, done explains⟩
  · have within := within closed covers known
    exact ⟨within.cached, within.done, within.waits⟩

namespace Orderly

variable (orderly : Orderly t c a)

include orderly

/-- Nothing is left on the stack. -/
theorem stacked : a.graph.Stacked [] := fun x listed => by
  rw [orderly.drained] at listed
  cases listed

/-- Explaining a recorded event succeeds. -/
theorem explain (ordered : t.WellOrdered) {call : Call} (inside : call.event.index < t.size)
    (explains : call.explains = true) :
    ∃ outcome, a.explain call.event = .ok outcome ∧ Reached t c a [call] outcome.answer ∧
      outcome.answer.graph.nodeOf[call.event]? = some outcome.value ∧
      outcome.answer.graph.Done outcome.value := by
  obtain ⟨graph, id, explained, served, done, within⟩ :=
    Graph.explain_spec ordered orderly.tidy orderly.accounted orderly.stacked inside
  refine ⟨a.conclude graph id, ?_, orderly.conclude call served (fun _ => done)
    (fun closed covers => within closed (covers.asked call List.mem_cons_self explains)) id,
    served.known, done⟩
  simp only [Answer.explain, orderly.trace, orderly.config, explained, bind, Except.bind]
  rfl

/-- A request about a recorded event succeeds. -/
theorem call (ordered : t.WellOrdered) {call : Call} (inside : call.event.index < t.size) :
    ∃ a', a.call call = .ok a' ∧ Reached t c a [call] a' := by
  cases call with
  | explain e =>
    obtain ⟨outcome, explained, reached, -⟩ := orderly.explain ordered inside rfl
    exact ⟨outcome.answer, by rw [Answer.call, show a.explain e = _ from explained]; rfl, reached⟩
  | request e =>
    obtain ⟨graph, id, requested, served, within⟩ :=
      Graph.request_spec ordered orderly.tidy orderly.accounted orderly.stacked (e := e) inside
    refine ⟨(a.conclude graph id).answer, ?_, orderly.conclude (.request e) served nofun
      (fun closed covers => within closed (covers.requested _ List.mem_cons_self)) id⟩
    simp only [Answer.call, Answer.request, orderly.trace, orderly.config, requested, bind,
      Except.bind]
    rfl
  | terminals e =>
    obtain ⟨outcome, explained, reached, -, done⟩ := orderly.explain ordered inside rfl
    have explained : a.explain e = .ok outcome := explained
    obtain ⟨found, terminal⟩ := Graph.terminals_spec reached.tidy reached.accounted done
    refine ⟨outcome.answer, ?_, reached⟩
    simp only [Answer.call, Answer.terminals, explained, orderly.trace, terminal, bind, Except.bind]
    rfl

/-- Requests about recorded events succeed one after the other. -/
theorem run (ordered : t.WellOrdered) {calls : List Call}
    (inside : ∀ call ∈ calls, call.event.index < t.size) :
    ∃ a', a.run calls = .ok a' ∧ Reached t c a calls a' := by
  induction calls generalizing a with
  | nil => exact ⟨a, rfl, orderly, .refl a.graph, fun _ _ done => done, nofun, nofun,
      fun _ _ within => within⟩
  | cons call rest ih =>
    obtain ⟨a₁, first, reached₁⟩ := orderly.call ordered (inside call List.mem_cons_self)
    obtain ⟨a₂, others, reached₂⟩ := ih reached₁.toOrderly fun call' member =>
      inside call' (List.mem_cons_of_mem call member)
    refine ⟨a₂, ?_, reached₂.toOrderly, reached₁.grows.trans reached₂.grows,
      reached₁.retains.trans reached₂.retains, ?_, ?_, fun closed covers within => ?_⟩
    · rw [Answer.run, List.foldlM_cons, first]
      exact others
    · refine List.forall_mem_cons.2 ⟨?_, reached₂.cached⟩
      exact reached₂.grows.cached (reached₁.cached call.event List.mem_cons_self)
    · refine List.forall_mem_cons.2 ⟨fun explains => ?_, reached₂.done⟩
      obtain ⟨id, known, done⟩ := reached₁.done call List.mem_cons_self explains
      exact ⟨id, reached₂.grows.at? (p := .event call.event) known, reached₂.retains.done done⟩
    · obtain ⟨requested, requested'⟩ := List.forall_mem_cons.1 covers.requested
      obtain ⟨asked, asked'⟩ := List.forall_mem_cons.1 covers.asked
      have within₁ := reached₁.within closed
        ⟨List.forall_mem_singleton.2 requested, List.forall_mem_singleton.2 asked⟩ within
      exact reached₂.within closed ⟨requested', asked'⟩ within₁

end Orderly

end Answer

end Inquest
