import Inquest.Proofs.Explanation.Books
import Inquest.Proofs.Explanation.Permanence

/-!
# What listeners hear

At the end of a request every listener hears which loop and thread blocks were created, and then,
in one list, which blocks changed.  A listener who is there from the beginning misses nothing: the
blocks that it heard of are those that there are, and a block that it does not hear of has not
changed.  Who does not listen can take the changes later, and gets what the listeners heard since
they were taken last.

## Main Definitions

* `Answer.createdTo`, `Answer.changedTo` - what a listener hears of a request
* `Answer.announced` - the blocks that a listener heard of in a session
* `Answer.sinceTaken` - the changes that a listener heard of since they were taken
* `Answer.Heard` - what a listener hears of a request is what happened

## Main Statements

* `Answer.heardBy_conclude` - every listener hears everything
* `Answer.AtRest.heard` - a listener hears what happened in a request
* `Answer.AtRest.told` - a listener hears what happened in a session
* `Answer.announcements_complete` - listeners and changes to be taken, in any session
-/

namespace Inquest

namespace Graph

variable {g g' : Graph}

/-! ### Notices -/

namespace Notice

/-- The block that a notice announces as new, with its anchor. -/
def created? : Notice → Option (NodeId × EventId)
  | .created block anchor => some (block, anchor)
  | .changed _ => none

/-- The blocks that a notice announces as changed. -/
def changed? : Notice → Option (List NodeId)
  | .created _ _ => none
  | .changed blocks => some blocks

/-- The notices of new blocks and then of changes. -/
def of (new : List (NodeId × EventId)) (changes : List (List NodeId)) : List Notice :=
  new.map (fun block => .created block.1 block.2) ++ changes.map .changed

theorem filterMap_created?_of (new : List (NodeId × EventId)) (changes : List (List NodeId)) :
    (of new changes).filterMap created? = new := by
  simp [of, List.filterMap_append, List.filterMap_map, Function.comp_def, created?]

theorem filterMap_changed?_of (new : List (NodeId × EventId)) (changes : List (List NodeId)) :
    (of new changes).filterMap changed? = changes := by
  simp [of, List.filterMap_append, List.filterMap_map, Function.comp_def, changed?]

end Notice

/-- The changes that the books of a pass tell. -/
def changes (g : Graph) : List (List NodeId) :=
  if g.changed.isEmpty then [] else [g.changed.toList]

theorem mem_changed_iff (g : Graph) (b : NodeId) :
    b ∈ g.changed ↔ ∃ blocks ∈ g.changes, b ∈ blocks := by
  unfold changes
  split
  · next empty =>
    rw [IdentSet.mem_def, List.isEmpty_iff.1 empty]
    simp
  · simp [IdentSet.mem_def]

/-- Closing the books of a pass reads the event of each new block. -/
theorem flush_eq_append (g : Graph) : g.flush.2 =
    (g.created.toList.filterMap fun block =>
      (g.node? block).map (Notice.created block ·.event)) ++ g.changes.map .changed := by
  have unattached : g.created.toList = g.created.attach.toList.map Subtype.val := by simp
  have changed : (if g.changed.isEmpty then [] else [Notice.changed g.changed.toList]) =
      g.changes.map .changed := by
    unfold changes
    split <;> rfl
  rw [unattached, List.filterMap_map, ← changed]
  refine congrArg (· ++ _) ?_
  rw [← List.filterMap_eq_map]
  refine List.filterMap_congr fun block _ => ?_
  have found : g.node? block.1 = some _ :=
    Array.getElem?_eq_getElem (g.created_listed block.1 block.2)
  rw [Function.comp_apply, Function.comp_apply, found, Option.map_some]

/-- Closing the books of a pass announces the new blocks and then the changes. -/
theorem flush_notices (booked : g.Booked g') (closed : g.created = #[]) :
    ∃ new, g'.structures = g.structures ++ new ∧
      g'.flush.2 = Notice.of new g'.changes := by
  obtain ⟨new, structures, created⟩ := booked.created
  rw [closed, List.nil_append] at created
  refine ⟨new, structures, ?_⟩
  rw [flush_eq_append, created, List.filterMap_map, Notice.of]
  refine congrArg (· ++ _) ((List.filterMap_congr fun block listed => ?_).trans
    (congrFun List.filterMap_eq_map new))
  have listed : block ∈ g'.structures := structures ▸ List.mem_append_right _ listed
  obtain ⟨n, found, anchored⟩ := mem_structures.1 listed
  rw [Function.comp_apply, Function.comp_apply, found, Option.map_some,
    (Node.anchor?_eq_some_iff.1 anchored).2]

end Graph

namespace Answer

variable {t : Trace} {c : Config} {a a' : Answer} {listener : Nat}

/-! ### Hearing -/

/-- What a listener hears of what is delivered. -/
def heardBy (listener : Nat) (deliveries : List Delivery) : List Graph.Notice :=
  deliveries.filterMap fun delivery =>
    if delivery.listener = listener then some delivery.notice else none

/-- The new blocks that a listener hears of. -/
def createdTo (listener : Nat) (deliveries : List Delivery) : List (NodeId × EventId) :=
  (heardBy listener deliveries).filterMap Graph.Notice.created?

/-- The lists of changed blocks that a listener hears. -/
def changedTo (listener : Nat) (deliveries : List Delivery) : List (List NodeId) :=
  (heardBy listener deliveries).filterMap Graph.Notice.changed?

/-- What was delivered by an action. -/
def Report.deliveries : Report → List Delivery
  | .heard deliveries => deliveries
  | _ => []

/-- The new blocks that a listener heard of in a session. -/
def announced (listener : Nat) (reports : List Report) : List (NodeId × EventId) :=
  reports.flatMap fun report => createdTo listener report.deliveries

/-- The lists that a listener heard since changes were taken, after one more action. -/
def untaken (listener : Nat) (lists : List (List NodeId)) : Report → List (List NodeId)
  | .heard deliveries => lists ++ changedTo listener deliveries
  | .took _ => []
  | .silent => lists

/-- The lists that a listener heard in a session since changes were taken. -/
def sinceTaken (listener : Nat) (reports : List Report) : List (List NodeId) :=
  reports.foldl (untaken listener) []

theorem heardBy_append (listener : Nat) (first second : List Delivery) :
    heardBy listener (first ++ second) = heardBy listener first ++ heardBy listener second :=
  List.filterMap_append

/-- Every listener hears everything. -/
theorem heardBy_conclude (listens : listener < a.listeners) (g : Graph) :
    heardBy listener (a.conclude g ()).deliveries = g.flush.2 := by
  have own : ∀ other, heardBy listener (g.flush.2.map fun notice => ⟨other, notice⟩) =
      if other = listener then g.flush.2 else [] := by
    intro other
    rw [heardBy, List.filterMap_map]
    split
    · next same =>
      exact (List.filterMap_congr fun notice _ => if_pos same).trans List.filterMap_some
    · next different =>
      exact List.filterMap_eq_nil_iff.2 fun notice _ => if_neg different
  have all : ∀ count, heardBy listener ((List.range count).flatMap fun other =>
      g.flush.2.map fun notice => ⟨other, notice⟩) =
      if listener < count then g.flush.2 else [] := by
    intro count
    induction count with
    | zero => rfl
    | succ count ih =>
      rw [List.range_succ, List.flatMap_append, heardBy_append, ih, List.flatMap_singleton, own]
      rcases Nat.lt_trichotomy listener count with before | rfl | after
      · rw [if_pos before, if_neg before.ne', if_pos (Nat.lt_succ_of_lt before), List.append_nil]
      · rw [if_neg (Nat.lt_irrefl _), if_pos rfl, if_pos (Nat.lt_succ_self _), List.nil_append]
      · rw [if_neg (Nat.lt_asymm after), if_neg after.ne, if_neg (by omega), List.append_nil]
  exact (all a.listeners).trans (if_pos listens)

/-- What a listener hears of a request is what the request did. -/
structure Heard (listener : Nat) (a : Answer) (deliveries : List Delivery) (a' : Answer) :
    Prop where
  listeners : a'.listeners = a.listeners
  created : a'.graph.structures = a.graph.structures ++ createdTo listener deliveries
  atMostOne : (changedTo listener deliveries).length ≤ 1
  sorted : ∀ blocks ∈ changedTo listener deliveries, blocks ≠ [] ∧ blocks.Pairwise (· < ·)
  /-- A block that the listener does not hear of shows what it showed before. -/
  complete : ∀ b, (∀ blocks ∈ changedTo listener deliveries, b ∉ blocks) →
    a'.graph.entries b = a.graph.entries b ∧ a'.graph.runsOf b = a.graph.runsOf b
  /-- What the listener hears can be taken later. -/
  unread : ∀ b, b ∈ a'.graph.unread ↔
    b ∈ a.graph.unread ∨ ∃ blocks ∈ changedTo listener deliveries, b ∈ blocks

/-- A listener hears what happened in a pass. -/
theorem heard_conclude {g : Graph} (booked : a.graph.Booked g) (closed : a.graph.created = #[])
    (listens : listener < a.listeners) :
    Heard listener a (a.conclude g ()).deliveries (a.conclude g ()).answer := by
  obtain ⟨new, structures, notices⟩ := Graph.flush_notices booked closed
  have created : createdTo listener (a.conclude g ()).deliveries = new := by
    rw [createdTo, heardBy_conclude listens, notices, Graph.Notice.filterMap_created?_of]
  have changed : changedTo listener (a.conclude g ()).deliveries = g.changes := by
    rw [changedTo, heardBy_conclude listens, notices, Graph.Notice.filterMap_changed?_of]
  refine ⟨rfl, ?_, ?_, fun blocks listed => ?_, fun b unheard => ?_, fun b => ?_⟩
  · rw [created]
    exact structures
  · rw [changed, Graph.changes]
    split <;> simp
  · rw [changed, Graph.changes] at listed
    split at listed
    · cases listed
    · next some =>
      rw [List.mem_singleton.1 listed]
      exact ⟨fun empty => some (List.isEmpty_iff.2 empty), g.changed.ascending⟩
  · rw [changed] at unheard
    have other : b ∉ g.changed := fun listed => by
      obtain ⟨blocks, isChange, member⟩ := (g.mem_changed_iff b).1 listed
      exact unheard blocks isChange member
    exact ⟨booked.entries b other, booked.runs b other⟩
  · rw [changed, ← g.mem_changed_iff]
    show b ∈ (g.unread.union g.changed) ↔ _
    rw [IdentSet.union, IdentSet.mem_insertAll, booked.unread]
    rfl

/-! ### Sessions -/

/-- What a listener heard in a session, which took `a` to `a'`, is what happened: the new blocks,
and the changes that can be taken if some could be taken before. -/
structure Told (listener : Nat) (a : Answer) (reports : List Report) (a' : Answer) : Prop where
  listeners : a.listeners ≤ a'.listeners
  created : a'.graph.structures = a.graph.structures ++ announced listener reports
  unread : ∀ lists, (∀ b, b ∈ a.graph.unread ↔ ∃ blocks ∈ lists, b ∈ blocks) →
    ∀ b, b ∈ a'.graph.unread ↔ ∃ blocks ∈ reports.foldl (untaken listener) lists, b ∈ blocks

namespace Told

theorem refl (listener : Nat) (a : Answer) : Told listener a [] a :=
  ⟨Nat.le_refl _, (List.append_nil _).symm, fun _ known => known⟩

theorem trans {a₁ : Answer} {report : Report} {reports : List Report}
    (first : Told listener a [report] a₁) (second : Told listener a₁ reports a') :
    Told listener a (report :: reports) a' := by
  refine ⟨first.listeners.trans second.listeners, ?_, fun lists known => ?_⟩
  · rw [second.created, first.created, List.append_assoc]
    exact congrArg (a.graph.structures ++ ·) (by simp [announced])
  · exact second.unread _ (first.unread lists known)

/-- Nobody hears of an action that touches neither blocks nor what can be taken. -/
theorem silent (listeners : a.listeners ≤ a'.listeners)
    (structures : a'.graph.structures = a.graph.structures)
    (unread : a'.graph.unread = a.graph.unread) : Told listener a [.silent] a' :=
  ⟨listeners, structures.trans (List.append_nil _).symm, fun _ known => unread ▸ known⟩

end Told

namespace AtRest

variable (rest : AtRest t c a)

include rest

/-- A listener hears what happened in a request. -/
theorem heard (ordered : t.WellOrdered) (listens : listener < a.listeners) {call : Call}
    {deliveries : List Delivery} (inside : call.event.index < t.size)
    (performed : a.perform call = .ok (a', deliveries)) : Heard listener a deliveries a' := by
  obtain ⟨g, pass, rfl, rfl⟩ := rest.toOrderly.pass_of_perform ordered inside performed
  exact heard_conclude pass.booked rest.created listens

/-- A listener hears what happened by an action. -/
theorem told_act (ordered : t.WellOrdered) (listens : listener < a.listeners) {action : Action}
    {report : Report} (inside : action.Inside t) (acted : a.act action = .ok (a', report)) :
    Told listener a [report] a' := by
  cases action with
  | call call =>
    obtain ⟨deliveries, performed, rfl⟩ := act_call_eq_ok acted
    have heard := rest.heard ordered listens inside performed
    refine ⟨heard.listeners.ge, ?_, fun lists known b => ?_⟩
    · rw [heard.created, announced, List.flatMap_singleton]
      rfl
    · rw [heard.unread, known, List.foldl_cons, List.foldl_nil]
      simp only [untaken, List.mem_append, or_and_right, exists_or]
  | take =>
    cases acted
    refine ⟨Nat.le_refl _, (List.append_nil _).symm, fun lists known b => ?_⟩
    refine ⟨fun listed => absurd listed IdentSet.not_mem_empty, ?_⟩
    rintro ⟨blocks, listed, -⟩
    cases listed
  | listen =>
    cases acted
    exact .silent (Nat.le_succ _) rfl rfl
  | prioritize priority =>
    cases acted
    exact .silent (Nat.le_refl _) rfl rfl
  | follow id =>
    obtain ⟨a'', acted', rfl | rfl⟩ := a.exists_act_follow id
    · cases acted.symm.trans acted'
      exact .silent (Nat.le_refl _) rfl rfl
    · cases acted.symm.trans acted'
      refine .silent (Nat.le_refl _) ?_ rfl
      exact Graph.structures_congr (Graph.sameTables_modify _ _ _).size
        (Graph.map_node?_modify fun n _ => n.anchor?_resolvePath _)

/-- A listener hears what happened in a session. -/
theorem told (ordered : t.WellOrdered) (listens : listener < a.listeners) {actions : List Action}
    {reports : List Report} (inside : ∀ action ∈ actions, action.Inside t)
    (lived : a.live actions = .ok (a', reports)) : Told listener a reports a' := by
  induction actions generalizing a reports with
  | nil =>
    cases lived
    exact .refl listener _
  | cons action others ih =>
    obtain ⟨a₁, report, reports, acted, lived', rfl⟩ := live_cons_eq_ok lived
    have inside₁ := inside action List.mem_cons_self
    have told := rest.told_act ordered listens inside₁ acted
    obtain ⟨a₂, report', acted', rest₁, -⟩ := rest.act ordered inside₁
    cases acted.symm.trans acted'
    exact told.trans (ih rest₁ (Nat.lt_of_lt_of_le listens told.listeners)
      (fun action' member => inside action' (List.mem_cons_of_mem action member)) lived')

/-- So does a listener that was there before anything else was done. -/
theorem told_of_opening (ordered : t.WellOrdered) {count : Nat} {actions : List Action}
    {reports : List Report} (listens : listener < a.listeners + count)
    (inside : ∀ action ∈ actions, action.Inside t)
    (lived : a.live (List.replicate count .listen ++ actions) = .ok (a', reports)) :
    Told listener a reports a' ∧ listener < a'.listeners := by
  induction count generalizing a reports with
  | zero =>
    have told := rest.told ordered listens inside lived
    exact ⟨told, Nat.lt_of_lt_of_le listens told.listeners⟩
  | succ count ih =>
    rw [List.replicate_succ, List.cons_append] at lived
    obtain ⟨a₁, report, reports, acted, lived', rfl⟩ := live_cons_eq_ok lived
    cases acted
    have opened : Told listener a [.silent] a.listen.1 := .silent (Nat.le_succ _) rfl rfl
    have listens₁ : listener < (a.listeners + 1) + count := by omega
    obtain ⟨told, heard⟩ := ih rest.listen listens₁ lived'
    exact ⟨opened.trans told, heard⟩

end AtRest

/-- Whatever is done with a fresh answer, a listener that was there before hears of every loop and
thread block that there is, once, with its anchor and in the order of creation, and of no other
node.  By every request it hears of at most one list of changed blocks, in order and not empty, and
a block that is not on the list has the members and the runs that it had, where a block that was not
there had none.  The blocks that can be taken are those on the lists that it heard since blocks were
taken last, in order. -/
theorem announcements_complete (t : Trace) (c : Config) (ordered : t.WellOrdered)
    (counter : AnswerCounter) (count listener : Nat) (registered : listener < count)
    (actions : List Action) (inside : ∀ action ∈ actions, action.Inside t) :
    ∃ a reports,
      (new t c counter).1.live (List.replicate count .listen ++ actions) = .ok (a, reports) ∧
      (announced listener reports).Pairwise (·.1 < ·.1) ∧
      (∀ b e, (b, e) ∈ announced listener reports ↔
        ∃ n, a.graph.node b = .ok n ∧ n.kind.isStructural = true ∧ n.event = e) ∧
      (∀ call : Call, call.event.index < t.size →
        ∃ a' deliveries, a.perform call = .ok (a', deliveries) ∧
          (changedTo listener deliveries).length ≤ 1 ∧
          (∀ blocks ∈ changedTo listener deliveries, blocks ≠ [] ∧ blocks.Pairwise (· < ·)) ∧
          ∀ b, (∀ blocks ∈ changedTo listener deliveries, b ∉ blocks) →
            a'.graph.entries b = a.graph.entries b ∧ a'.graph.runsOf b = a.graph.runsOf b) ∧
      a.takeChanged.2.Pairwise (· < ·) ∧
      ∀ b, b ∈ a.takeChanged.2 ↔ ∃ blocks ∈ sinceTaken listener reports, b ∈ blocks := by
  have rest₀ := atRest_new t c counter
  have inside' : ∀ action ∈ List.replicate count .listen ++ actions, action.Inside t := by
    intro action member
    rcases List.mem_append.1 member with opening | member
    · exact List.eq_of_mem_replicate opening ▸ trivial
    · exact inside action member
  obtain ⟨a, reports, lived, rest, -⟩ := rest₀.live ordered inside'
  have listens : listener < (new t c counter).1.listeners + count :=
    Nat.lt_of_lt_of_le registered (Nat.le_add_left _ _)
  obtain ⟨told, listens⟩ := rest₀.told_of_opening ordered listens inside lived
  have structures : a.graph.structures = announced listener reports := told.created
  have unread := told.unread [] fun b => by
    simp only [List.not_mem_nil, false_and, exists_false, iff_false]
    exact IdentSet.not_mem_empty
  refine ⟨a, reports, lived, structures ▸ a.graph.pairwise_structures, fun b e => ?_,
    fun call inside => ?_, a.graph.unread.ascending, unread⟩
  · rw [← structures, Graph.mem_structures]
    simp only [Graph.node_eq_ok_iff, Node.anchor?_eq_some_iff]
  · obtain ⟨a', deliveries, performed, -⟩ := rest.perform ordered inside
    have heard := rest.heard ordered listens inside performed
    exact ⟨a', deliveries, performed, heard.atMostOne, heard.sorted, heard.complete⟩

/-- The block of the thread is announced with the first decision of a branch, and the block of the
loop with the second one.  The changes by the second decision can be taken: the members of both
blocks changed. -/
theorem announcements_complete_decidedTwice :
    decidedTwice.WellOrdered ∧
      ∃ a reports, (new decidedTwice {} {}).1.live
          (List.replicate 1 .listen ++ [.call (.explain ⟨0⟩), .take, .call (.explain ⟨1⟩)]) =
          .ok (a, reports) ∧
        announced 0 reports = [(⟨1⟩, ⟨0⟩), (⟨3⟩, ⟨0⟩)] ∧
        (∀ b n, a.graph.node b = .ok n → n.kind.isStructural = true → b = ⟨1⟩ ∨ b = ⟨3⟩) ∧
        sinceTaken 0 reports = [[⟨1⟩, ⟨3⟩]] ∧ ∀ b, b ∈ a.takeChanged.2 ↔ b = ⟨1⟩ ∨ b = ⟨3⟩ := by
  have ordered : decidedTwice.WellOrdered := by decide +kernel
  have inside : ∀ action ∈ [Action.call (.explain ⟨0⟩), .take, .call (.explain ⟨1⟩)],
      action.Inside decidedTwice := by decide +kernel
  have seen : ((new decidedTwice {} {}).1.live (List.replicate 1 .listen ++
      [.call (.explain ⟨0⟩), .take, .call (.explain ⟨1⟩)])).toOption.map
        (fun session => (announced 0 session.2, sinceTaken 0 session.2)) =
      some ([(⟨1⟩, ⟨0⟩), (⟨3⟩, ⟨0⟩)], [[⟨1⟩, ⟨3⟩]]) := by decide +kernel
  obtain ⟨⟨a, reports⟩, lived, seen⟩ := exists_ok_of_view seen
  obtain ⟨heard, since⟩ := Prod.mk.inj seen
  obtain ⟨a', reports', lived', -, created, -, -, taken⟩ :=
    announcements_complete decidedTwice {} ordered {} 1 0 Nat.zero_lt_one _ inside
  cases lived.symm.trans lived'
  refine ⟨ordered, a, reports, lived, heard, fun b n found isStructural => ?_, since, fun b => ?_⟩
  · have listed := (created b n.event).2 ⟨n, found, isStructural, rfl⟩
    simp only [heard, List.mem_cons, Prod.mk.injEq, List.not_mem_nil, or_false] at listed
    exact listed.imp And.left And.left
  · rw [taken, since]
    simp

end Answer

end Inquest
