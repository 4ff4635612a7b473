import Inquest.Proofs.Explanation.Contents
import Inquest.Proofs.Explanation.Sessions

/-!
# What stays

Whatever a reader does with an answer, a node keeps its number and its event, and its causes once it
has any.  It is explained at most once, and it moves at most once: out of the block that it joined
when it was made, into the block of the loop that starts with its event.  Asking again for what is
known costs nothing, neither a change of the answer nor a word to a listener.

## Main Definitions

* `Node.Endures` - a node as it is later
* `Graph.Endures` - a graph whose nodes are all there later

## Main Statements

* `Graph.endures` - if nothing got lost, every node is there later
* `Graph.Endures.owner_once` - a node moves at most once
* `Answer.AtRest.explain_again`, `Answer.AtRest.request_again` - repeated requests
* `Answer.explanations_endure` - what stays in a session
-/

namespace Inquest

/-- A node that is `n` now is `n'` later. -/
structure Node.Endures (n n' : Node) : Prop where
  event : n'.event = n.event
  place : n'.place = n.place
  status : n'.status = n.status ∨ n.status = .unvisited ∧ n'.status = .done
  causes : ∀ causes, n.causes = some causes → n'.causes = some causes

theorem Node.event_of_place {n : Node} {e : EventId} (isEvent : n.place = .event e) :
    n.event = e := by
  unfold Node.place at isEvent
  cases kind : n.kind <;> simp_all [NodeKind.place]

namespace Graph

variable {g g' g'' : Graph} {t : Trace} {c : Config} {loose loose' : Option EventId}
variable {e : EventId} {id x y : NodeId} {n n' n'' : Node} {s s' : Shape}

/-- Every node of `g` is there in `g'`, under its number.  It belongs to the same block, or to that
of the loop that starts with its event, which has been made since. -/
structure Endures (g g' : Graph) : Prop where
  size_le : g.size ≤ g'.size
  node : ∀ {id n}, g.node id = .ok n → ∃ n', g'.node id = .ok n' ∧ n.Endures n' ∧
    (n'.owner = n.owner ∨ n.place = .event n.event ∧ g.loopBlocks[n.event]? = none ∧
      ∃ l, g'.loopBlocks[n.event]? = some l ∧ n'.owner = some l)
  nodeOf : ∀ {e : EventId} {id}, g.nodeOf[e]? = some id → g'.nodeOf[e]? = some id

/-- A node moves at most once. -/
theorem Endures.owner_once (first : g.Endures g') (second : g'.Endures g'')
    (found : g.node id = .ok n) (found' : g'.node id = .ok n') (found'' : g''.node id = .ok n'')
    (moved : n'.owner ≠ n.owner) : n''.owner = n'.owner := by
  obtain ⟨m, node, endures, same | ⟨-, -, l, isLoop, -⟩⟩ := first.node found
  · cases found'.symm.trans node
    exact absurd same moved
  cases found'.symm.trans node
  obtain ⟨m, node, -, same | ⟨-, noLoop, -⟩⟩ := second.node found'
  · cases found''.symm.trans node
    exact same
  · rw [endures.event, isLoop] at noLoop
    cases noLoop

/-! ### Nodes over time -/

/-- What a node stands for determines the event at which it is anchored. -/
theorem Tidy.anchor_eq (tidy : g.Tidy t c loose) (tidy' : g'.Tidy t c loose')
    (found : g.shape? x = some s) (found' : g'.shape? y = some s') (same : s'.place = s.place) :
    s'.anchor = s.anchor := by
  have sited := tidy.sited found
  have sited' := tidy'.sited found'
  unfold Shape.Sited at sited sited'
  rw [same] at sited'
  cases place : s.place with
  | event e =>
    simp only [place] at sited sited'
    rw [sited.1, sited'.1]
  | loop first =>
    simp only [place] at sited sited'
    rw [sited.1, sited'.1]
  | thread thread =>
    simp only [place] at sited sited'
    exact Option.some.inj (sited'.symm.trans sited)

/-- The owner of a node stays, or a loop block takes the node over. -/
theorem Tidy.owner?_cases (tidy : g.Tidy t c none) (tidy' : g'.Tidy t c none)
    (grows : g.Grows g') {p : Place} (place : g.place? x = some p) :
    g'.owner? x = g.owner? x ∨ ∃ e l, p = .event e ∧ g.loopBlocks[e]? = none ∧
      g'.loopBlocks[e]? = some l ∧ g'.owner? x = some l := by
  rw [tidy.owner place, tidy'.owner (grows.place? place)]
  by_cases taken : ∃ e l, p = .event e ∧ g.loopBlocks[e]? = none ∧ g'.loopBlocks[e]? = some l
  · obtain ⟨e, l, rfl, noLoop, isLoop⟩ := taken
    refine .inr ⟨e, l, rfl, noLoop, isLoop, ?_⟩
    simp only [ownerFor, reduceCtorEq, if_false, isLoop, Option.some_or]
  · refine .inl (tidy.ownerFor_mono grows place (fun e isEvent => ?_) fun _ _ => Iff.rfl)
    cases isLoop : g.loopBlocks[e]? with
    | some l => exact grows.at? (p := .loop e) isLoop
    | none =>
      refine Option.eq_none_iff_forall_ne_some.2 fun l isLoop' => ?_
      exact taken ⟨e, l, isEvent, isLoop, isLoop'⟩

/-- The status and the causes of an explained node stay, and others have no causes yet. -/
theorem Accounted.progress_cases (accounted : g.Accounted t c [])
    (accounted' : g'.Accounted t c []) (retains : g.Retains g') (found : g.node? id = some n)
    (found' : g'.node? id = some n') :
    (n'.status = n.status ∨ n.status = .unvisited ∧ n'.status = .done) ∧
      ∀ causes, n.causes = some causes → n'.causes = some causes := by
  have progress := progress?_of_node? found
  have progress' := progress?_of_node? found'
  rcases accounted.status progress with ⟨fresh, -⟩ | ⟨causes, done⟩
  · have unvisited : n.status = .unvisited := congrArg Prod.fst fresh
    have blank : n.causes = none := congrArg Prod.snd fresh
    refine ⟨?_, fun causes known => by cases blank.symm.trans known⟩
    rcases accounted'.status progress' with ⟨fresh', -⟩ | ⟨causes, done'⟩
    · exact .inl ((congrArg Prod.fst fresh').trans unvisited.symm)
    · exact .inr ⟨unvisited, congrArg Prod.fst done'⟩
  · have same : n'.progress = n.progress := by
      rw [done] at progress ⊢
      exact Option.some.inj (progress'.symm.trans (retains id causes progress))
    exact ⟨.inl (congrArg Prod.fst same), fun causes known =>
      (congrArg Prod.snd same).trans known⟩

/-- If nothing got lost, every node is there later. -/
theorem endures (tidy : g.Tidy t c none) (tidy' : g'.Tidy t c none)
    (accounted : g.Accounted t c []) (accounted' : g'.Accounted t c [])
    (persists : g.Persists g') : g.Endures g' := by
  obtain ⟨grows, retains⟩ := persists
  have node : ∀ {id n}, g.node? id = some n → ∃ n', g'.node? id = some n' ∧ n.Endures n' ∧
      (n'.owner = n.owner ∨ n.place = .event n.event ∧ g.loopBlocks[n.event]? = none ∧
        ∃ l, g'.loopBlocks[n.event]? = some l ∧ n'.owner = some l) := by
    intro id n found
    have place : g.place? id = some n.place := place?_of_node? found
    obtain ⟨s', shape', same⟩ := exists_shape?_of_place? (grows.place? place)
    obtain ⟨n', found', rfl⟩ := exists_node?_of_shape? shape'
    have event : n'.event = n.event :=
      tidy.anchor_eq tidy' (shape?_of_node? found) shape' (same.trans n.place_shape.symm)
    obtain ⟨status, causes⟩ := accounted.progress_cases accounted' retains found found'
    refine ⟨n', found', ⟨event, n'.place_shape.symm.trans same, status, causes⟩, ?_⟩
    have owner : g.owner? id = n.owner := owner?_of_shape? (shape?_of_node? found)
    have owner' : g'.owner? id = n'.owner := owner?_of_shape? shape'
    rcases tidy.owner?_cases tidy' grows place with kept | ⟨e, l, isEvent, noLoop, isLoop, moved⟩
    · exact .inl (owner'.symm.trans (kept.trans owner))
    · obtain rfl := Node.event_of_place isEvent
      exact .inr ⟨isEvent, noLoop, l, isLoop, owner'.symm.trans moved⟩
  refine ⟨Nat.le_of_not_lt fun fewer => ?_, fun {id n} found => ?_,
    fun {e id} known => grows.at? (p := .event e) known⟩
  · -- the node after the last one of the later graph would be missing there
    obtain ⟨n, found⟩ : ∃ n, g.node? ⟨g'.size⟩ = some n := ⟨_, Array.getElem?_eq_getElem fewer⟩
    obtain ⟨n', found', -⟩ := node found
    exact absurd (Array.getElem?_eq_some_iff.1 found').1 (Nat.lt_irrefl _)
  · obtain ⟨n', found', endures⟩ := node (node_eq_ok_iff.1 found)
    exact ⟨n', node_eq_ok_iff.2 found', endures⟩

/-! ### Repeated requests -/

/-- There is nothing to announce when the books are closed. -/
theorem flush_eq (created : g.created = #[]) (changed : g.changed = ∅) : g.flush = (g, []) := by
  cases g
  cases created
  cases changed
  rfl

/-- An event that is explained is not explained again. -/
theorem explain_eq (drained : g.unexplainedControls = []) (known : g.nodeOf[e]? = some id)
    (done : g.Done id) : g.explain t c e = .ok (g, id) := by
  have visited : g.isUnvisited id = false := by
    refine Bool.eq_false_iff.2 fun unvisited => ?_
    obtain ⟨y, progress⟩ := isUnvisited_iff.1 unvisited
    obtain ⟨causes, progress'⟩ := done
    cases progress.symm.trans progress'
  have passed : (g.unexplainedControls ++ [id]).dropWhile (!g.isUnvisited ·) = [] := by
    rw [drained, List.nil_append, List.dropWhile_cons, visited]
    rfl
  have inside : ∀ x ∈ g.unexplainedControls ++ [id], x.index < g.size := by
    rw [drained, List.nil_append, List.forall_mem_singleton]
    obtain ⟨causes, progress⟩ := done
    exact lt_size_of_progress? progress
  have skipped := skipVisited_eq inside
  rw [passed] at skipped
  have same : ({ g with unexplainedControls := [] } : Graph) = g := by rw [← drained]
  rw [explain, place, hits_placeWithin t c _ known]
  show (explainPending t c t.size [id] g).bind _ = _
  rw [explainPending_nil skipped, same]
  rfl

/-- An event that has a node is not placed again. -/
theorem request_eq (drained : g.unexplainedControls = []) (known : g.nodeOf[e]? = some id) :
    g.request t c e = .ok (g, id) := by
  rw [request, place, hits_placeWithin t c _ known]
  simp only [bind, Except.bind, drained]
  rfl

end Graph

namespace Answer

variable {t : Trace} {c : Config} {a : Answer} {e : EventId} {id : NodeId}

namespace AtRest

variable (rest : AtRest t c a)

include rest

theorem conclude_eq {α : Type} (value : α) : a.conclude a.graph value = ⟨a, value, []⟩ := by
  have silent : (List.range a.listeners).flatMap (fun _ => ([] : List Delivery)) = [] :=
    List.flatMap_eq_nil_iff.2 fun _ _ => rfl
  simp only [conclude, Graph.flush_eq rest.created rest.changed, List.map_nil, silent]

theorem explain_again (known : a.graph.nodeOf[e]? = some id) (done : a.graph.Done id) :
    a.explain e = .ok ⟨a, id, []⟩ := by
  rw [explain, Graph.explain_eq rest.drained known done]
  exact congrArg Except.ok (rest.conclude_eq id)

theorem request_again (known : a.graph.nodeOf[e]? = some id) : a.request e = .ok ⟨a, id, []⟩ := by
  rw [request, Graph.request_eq rest.drained known]
  exact congrArg Except.ok (rest.conclude_eq id)

theorem terminals_again (known : a.graph.nodeOf[e]? = some id) (done : a.graph.Done id) :
    ∃ found, a.terminals e = .ok ⟨a, found, []⟩ := by
  obtain ⟨found, terminal⟩ := Graph.terminals_spec rest.tidy rest.accounted done
  refine ⟨found, ?_⟩
  simp only [terminals, rest.explain_again known done, rest.trace, terminal, bind, Except.bind]
  rfl

/-- Whatever is done with an answer, every node of it is there later. -/
theorem endures (ordered : t.WellOrdered) {actions : List Action} {a' : Answer}
    {reports : List Report} (inside : ∀ action ∈ actions, action.Inside t)
    (lived : a.live actions = .ok (a', reports)) :
    AtRest t c a' ∧ a.graph.Endures a'.graph := by
  obtain ⟨a'', reports', lived', rest', persists⟩ := rest.live ordered inside
  cases lived.symm.trans lived'
  exact ⟨rest', Graph.endures rest.tidy rest'.tidy rest.accounted rest'.accounted persists⟩

end AtRest

/-- Whatever a reader has done with a fresh answer, every request succeeds and only adds to it, and
so does whatever the reader does next: a node keeps its number, its event and its causes, is
explained at most once, and stays the node of its event.  In the whole session a node changes its
owner at most once, and then for the block of the loop that starts with its event.  A request that
explains what is explained, or asks for a node that is there, changes nothing and is not heard. -/
theorem explanations_endure (t : Trace) (c : Config) (ordered : t.WellOrdered)
    (counter : AnswerCounter) (actions : List Action)
    (inside : ∀ action ∈ actions, action.Inside t) :
    ∃ a reports, (new t c counter).1.live actions = .ok (a, reports) ∧
      (∀ call : Call, call.event.index < t.size →
        ∃ a' deliveries, a.perform call = .ok (a', deliveries) ∧ a.graph.Endures a'.graph) ∧
      (∀ next a' reports', (∀ action ∈ next, action.Inside t) →
        a.live next = .ok (a', reports') →
        a.graph.Endures a'.graph ∧
          ∀ last a'' reports'', (∀ action ∈ last, action.Inside t) →
            a'.live last = .ok (a'', reports'') →
            ∀ id n n' n'', a.graph.node id = .ok n → a'.graph.node id = .ok n' →
              a''.graph.node id = .ok n'' → n'.owner ≠ n.owner → n''.owner = n'.owner) ∧
      (∀ (e : EventId) id n, a.graph.nodeOf[e]? = some id → a.graph.node id = .ok n →
        n.status = .done →
        a.explain e = .ok ⟨a, id, []⟩ ∧ ∃ found, a.terminals e = .ok ⟨a, found, []⟩) ∧
      ∀ (e : EventId) id, a.graph.nodeOf[e]? = some id → a.request e = .ok ⟨a, id, []⟩ := by
  obtain ⟨a, reports, lived, rest, -⟩ := (atRest_new t c counter).live ordered inside
  refine ⟨a, reports, lived, fun call inside => ?_, fun next a' reports' inside lived => ?_,
    fun e id n known found status => ?_, fun e id known => rest.request_again known⟩
  · obtain ⟨a', deliveries, performed, rest', persists⟩ := rest.perform ordered inside
    exact ⟨a', deliveries, performed,
      Graph.endures rest.tidy rest'.tidy rest.accounted rest'.accounted persists⟩
  · obtain ⟨rest', endures⟩ := rest.endures ordered inside lived
    refine ⟨endures, fun last a'' reports'' inside' lived' id n n' n'' found found' found'' => ?_⟩
    obtain ⟨-, endures'⟩ := rest'.endures ordered inside' lived'
    exact endures.owner_once endures' found found' found''
  · have progress := Graph.progress?_of_node? (Graph.node_eq_ok_iff.1 found)
    obtain ⟨causes, done⟩ : ∃ causes, n.progress = (.done, some causes) := by
      rcases rest.accounted.status progress with ⟨fresh, -⟩ | done
      · cases status.symm.trans (congrArg Prod.fst fresh)
      · exact done
    have explained : a.graph.Done id := ⟨causes, done ▸ progress⟩
    exact ⟨rest.explain_again known explained, rest.terminals_again known explained⟩

/-- The first decision of a branch lies in the block of the thread until the second one is explained
and makes it the start of a loop, and in the block of the loop ever after.  To explain it again
changes nothing. -/
theorem explanations_endure_decidedTwice :
    decidedTwice.WellOrdered ∧
      ∃ a reports, (new decidedTwice {} {}).1.live [.listen, .call (.explain ⟨0⟩)] =
          .ok (a, reports) ∧
        a.explain ⟨0⟩ = .ok ⟨a, ⟨0⟩, []⟩ ∧
        ∃ a' reports', a.live [.call (.explain ⟨1⟩)] = .ok (a', reports') ∧
          ∃ n n', a.graph.node ⟨0⟩ = .ok n ∧ a'.graph.node ⟨0⟩ = .ok n' ∧ n.Endures n' ∧
            n.owner = some ⟨1⟩ ∧ n'.owner = some ⟨3⟩ ∧
            ∀ last a'' reports'', (∀ action ∈ last, action.Inside decidedTwice) →
              a'.live last = .ok (a'', reports'') →
              ∀ n'', a''.graph.node ⟨0⟩ = .ok n'' → n''.owner = some ⟨3⟩ := by
  have ordered : decidedTwice.WellOrdered := by decide +kernel
  have inside : ∀ action ∈ [Action.listen, .call (.explain ⟨0⟩)], action.Inside decidedTwice := by
    decide +kernel
  have inside' : ∀ action ∈ [Action.call (.explain ⟨1⟩)], action.Inside decidedTwice := by
    decide +kernel
  have seen : ((new decidedTwice {} {}).1.live [.listen, .call (.explain ⟨0⟩)]).toOption.map
      (fun session => (session.1.graph.nodeOf[(⟨0⟩ : EventId)]?,
        (session.1.graph.node? ⟨0⟩).map (fun n => (n.status, n.owner)),
        (session.1.live [.call (.explain ⟨1⟩)]).toOption.map fun session =>
          (session.1.graph.node? ⟨0⟩).map (·.owner))) =
      some (some ⟨0⟩, some (.done, some ⟨1⟩), some (some (some ⟨3⟩))) := by decide +kernel
  obtain ⟨⟨a, reports⟩, lived, seen⟩ := exists_ok_of_view seen
  simp only [Prod.mk.injEq] at seen
  obtain ⟨known, first, second⟩ := seen
  obtain ⟨n, found, progress⟩ := Option.map_eq_some_iff.1 first
  obtain ⟨status, owned⟩ := Prod.mk.inj progress
  obtain ⟨⟨a', reports'⟩, lived', seen⟩ := exists_ok_of_view second
  obtain ⟨n', found', owned'⟩ := Option.map_eq_some_iff.1 seen
  have found := Graph.node_eq_ok_iff.2 found
  have found' := Graph.node_eq_ok_iff.2 found'
  obtain ⟨a₁, reports₁, lived₁, -, endure, again, -⟩ :=
    explanations_endure decidedTwice {} ordered {} _ inside
  cases lived.symm.trans lived₁
  obtain ⟨endures, once⟩ := endure _ a' reports' inside' lived'
  obtain ⟨n₁, found₁, same, -⟩ := endures.node found
  cases found'.symm.trans found₁
  refine ⟨ordered, a, reports, lived, (again ⟨0⟩ ⟨0⟩ n known found status).1, a', reports', lived',
    n, n', found, found', same, owned, owned', ?_⟩
  intro last a'' reports'' inside'' lived'' n'' found''
  rw [← owned']
  refine once last a'' reports'' inside'' lived'' ⟨0⟩ n n' n'' found found' found'' ?_
  rw [owned, owned']
  decide

end Answer

end Inquest
