import Inquest.Proofs.Explanation.Forest
import Inquest.Proofs.Explanation.Iterations
import Inquest.Proofs.Trace.Loops

/-!
# Loops collapse

A branch that is decided again and again, each time because of an earlier decision, is a loop.  All
its decisions end up in one block, in whatever order they are asked for: the first one is placed
before the loop is known, and moves when the block is made.  If all of them took the same path, they
make up one run of the block, and all but the first are redundant.

## Main Definitions

* `Trace.Repeats` - a branch that is decided again and again

## Main Statements

* `Trace.Repeats.loopOf?_eq` - every later decision iterates the loop of the first
* `Graph.Tidy.owner?_of_repeats` - all decisions are in one block
* `Graph.Gathered.runsOf_eq` - they make up one run
* `Answer.repeats_collapse` - what becomes of the decisions in an answer, after any requests
-/

namespace Inquest

variable {t : Trace} {c : Config} {thread : ThreadId} {branch : Instruction}
variable {first e e' : EventId} {others : List EventId} {r : Record}

/-- The events of a thread that report a branch are decisions of it, and all but the first are
controlled by one of them. -/
structure Trace.Repeats (t : Trace) (thread : ThreadId) (branch : Instruction) (first : EventId)
    (others : List EventId) : Prop where
  declared : t.program.instruction? branch.id = some branch
  executions : t.executions thread branch.id = first :: others
  decisions : ∀ e ∈ first :: others, ∀ r, t.record? e = some r → r.kind = .branch
  controlled : ∀ e ∈ others, ∃ k ∈ first :: others, t.controlOf? e = some k

namespace Trace.Repeats

variable (repeats : t.Repeats thread branch first others)

include repeats

theorem mem_iff : e ∈ first :: others ↔
    ∃ r, t.record? e = some r ∧ r.reports thread branch.id = true := by
  rw [← repeats.executions, mem_executions]

theorem lt_of_mem (member : e ∈ others) : first < e := by
  have sorted := t.pairwise_executions thread branch.id
  rw [repeats.executions, List.pairwise_cons] at sorted
  exact sorted.1 e member

/-- The first decision is the first event that reports the branch. -/
theorem isFirst : t.IsFirst (Record.reports thread branch.id) first := by
  refine ⟨repeats.mem_iff.1 List.mem_cons_self, fun {e r} recorded reports => ?_⟩
  rcases List.mem_cons.1 (repeats.mem_iff.2 ⟨r, recorded, reports⟩) with rfl | member
  · exact Nat.le_refl _
  · exact Nat.le_of_lt (repeats.lt_of_mem member)

/-- Every later decision iterates the loop that the first one starts. -/
theorem loopOf?_eq (collapse : c.collapseLoops = true) (member : e ∈ others) :
    t.loopOf? c e = some first := by
  obtain ⟨r, recorded, reports⟩ := repeats.mem_iff.1 (List.mem_cons_of_mem first member)
  obtain ⟨k, member', control⟩ := repeats.controlled e member
  obtain ⟨s, deciding, reports'⟩ := repeats.mem_iff.1 member'
  obtain ⟨onThread, reported⟩ := Record.reports_iff.1 reports
  obtain ⟨onThread', reported'⟩ := Record.reports_iff.1 reports'
  rw [controlOf?, recorded, Option.bind_some] at control
  refine (loopOf?_eq_some_iff recorded).2 ⟨collapse, k, branch, ⟨control, ⟨s, deciding,
    repeats.decisions k member' s deciding, onThread'.trans onThread.symm, ?_⟩, branch, ?_, ?_⟩, ?_⟩
  · rw [reported', repeats.declared]
  · rw [reported, repeats.declared]
  · simp [Instruction.loopsTo]
  · obtain ⟨f, found⟩ := exists_firstExecution deciding reports' (Nat.le_refl k.index)
    rw [onThread, found, Option.getD_some]
    exact repeats.isFirst.unique (isFirst_of_firstExecution found)

/-- No later decision starts a loop. -/
theorem loopOf?_ne (recorded : t.record? e' = some r) (member : e ∈ others) :
    t.loopOf? c e' ≠ some e := by
  intro loop
  obtain ⟨s, recorded', reports⟩ := repeats.mem_iff.1 (List.mem_cons_of_mem first member)
  obtain ⟨onThread, reported⟩ := Record.reports_iff.1 reports
  obtain ⟨k, branch', ⟨-, ⟨u, deciding, -, -, found⟩, -⟩, isKey | ⟨rfl, other⟩⟩ :=
    loopOf?_key recorded loop
  · obtain ⟨s', recorded'', reports'⟩ := isKey.meets
    obtain rfl := Option.some.inj (recorded'.symm.trans recorded'')
    obtain ⟨onThread', reported'⟩ := Record.reports_iff.1 reports'
    rw [← onThread', ← reported', onThread, reported] at isKey
    exact absurd (repeats.lt_of_mem member) (isKey.unique repeats.isFirst ▸ Nat.lt_irrefl _)
  · obtain rfl := Option.some.inj (recorded'.symm.trans deciding)
    rw [reported, repeats.declared, Option.some.injEq] at found
    exact other s recorded' (reported.trans (found ▸ rfl))

end Trace.Repeats

/-- No instruction but one has loop paths. -/
def Trace.PathsOnlyAt (t : Trace) (instruction : InstructionId) : Prop :=
  ∀ id i, t.program.instruction? id = some i → id ≠ instruction → i.loopPaths = []

theorem Trace.PathsOnlyAt.instruction_eq {instruction : InstructionId}
    (alone : t.PathsOnlyAt instruction) (recorded : t.record? e = some r)
    (taken : (t.pathFrom? e).isSome = true) : r.instruction = instruction := by
  refine Decidable.byContradiction fun other => ?_
  rw [pathFrom?_of_record? recorded, pathTaken] at taken
  cases found : t.program.instruction? r.instruction with
  | none => simp [found] at taken
  | some i => simp [found, alone r.instruction i found other] at taken

namespace Graph

variable {g : Graph} {loose : Option EventId} {x b l : NodeId} {path : LoopPathId}

/-- All decisions belong to the block of the loop that the first one starts. -/
theorem Tidy.owner?_of_repeats (tidy : g.Tidy t c none)
    (repeats : t.Repeats thread branch first others) (collapse : c.collapseLoops = true)
    (keyed : g.loopBlocks[first]? = some l) (member : e ∈ first :: others)
    (known : g.nodeOf[e]? = some x) : g.owner? x = some l := by
  have owner : g.owner? x = (g.loopBlocks[e]?).or (g.target? t c e) :=
    tidy.owner (tidy.place?_of_event known)
  rw [owner]
  rcases List.mem_cons.1 member with rfl | member
  · rw [keyed, Option.some_or]
  · obtain ⟨r, recorded⟩ := tidy.recorded_of_cached ⟨x, known⟩
    have unkeyed : g.loopBlocks[e]? = none := by
      refine Option.eq_none_iff_forall_ne_some.2 fun b keyed' => ?_
      obtain ⟨-, -, e', cached, loop⟩ := tidy.keyed keyed'
      obtain ⟨r', recorded'⟩ := tidy.recorded_of_cached cached
      exact repeats.loopOf?_ne recorded' member loop
    rw [unkeyed, Option.none_or, target?_of_loopOf? recorded (repeats.loopOf?_eq collapse member),
      keyed]

/-! ### Redundant decisions -/

/-- What a node belongs to is there. -/
theorem Tidy.exists_node?_owner (tidy : g.Tidy t c none) (ordered : t.WellOrdered)
    (owned : g.owner? x = some b) : ∃ m, g.node? b = some m := by
  obtain ⟨s, shape⟩ := exists_shape?_of_owner? owned
  obtain ⟨s', shape', -⟩ := tidy.owner_rank ordered shape owned
  obtain ⟨m, found, -⟩ := exists_node?_of_shape? shape'
  exact ⟨m, found⟩

theorem exists_place?_of_runsOf {run : LoopRun} (listed : run ∈ g.runsOf b) :
    ∃ f, g.place? b = some (.loop f) := by
  cases found : g.node? b with
  | none =>
    rw [runsOf, laps?, found] at listed
    cases listed
  | some n =>
    rw [runsOf_of_node? found] at listed
    refine ⟨n.event, (place?_of_node? found).trans (congrArg some (Node.place_of_isLoop ?_))⟩
    cases kind : n.kind <;> simp_all [NodeKind.runs, NodeKind.isLoop]

/-- A branch that counts in a block lies on the thread of the block. -/
theorem Counted.same_thread {p : Place} (counted : g.Counted b x) (tidy : g.Tidy t c none)
    (ordered : t.WellOrdered) (place : g.place? x = some p) :
    ∃ q, g.place? b = some q ∧ q.thread? t = p.thread? t := by
  rcases counted with ⟨-, owned⟩ | ⟨i, ⟨-, owned, within, -⟩, -⟩
  · exact tidy.owner_thread ordered place owned
  · obtain ⟨q, place', same⟩ := tidy.owner_thread ordered place owned
    obtain ⟨q', place'', same'⟩ := tidy.owner_thread ordered place' within
    exact ⟨q', place'', same'.trans same⟩

/-- The path of a branch is that of its event. -/
theorem Tidy.branchPath?_of_event (tidy : g.Tidy t c loose) (known : g.nodeOf[e]? = some x)
    (recorded : t.record? e = some r) :
    g.branchPath? t x = if r.kind = .branch then t.pathFrom? e else none := by
  obtain ⟨s, r', shape, -, anchor, recorded', kind⟩ := tidy.shape?_of_event known
  obtain rfl := Option.some.inj (recorded.symm.trans recorded')
  rw [branchPath?, shape, Option.bind_some, anchor, kind]
  cases r.kind <;> rfl

/-- The runs of a block on the thread show decisions of the branch only. -/
theorem Gathered.exists_decision (gathered : g.Gathered t b) (tidy : g.Tidy t c none)
    (ordered : t.WellOrdered) (repeats : t.Repeats thread branch first others)
    (alone : t.PathsOnlyAt branch.id) {q : Place} (place : g.place? b = some q)
    (onThread : q.thread? t = some thread) (member : x ∈ g.iterations b) :
    ∃ e ∈ first :: others, g.nodeOf[e]? = some x := by
  obtain ⟨counted, declared⟩ := (gathered.mem x).1 member
  obtain ⟨e, isEvent⟩ := counted.isBranch.place?
  have known : g.nodeOf[e]? = some x := tidy.registered (p := .event e).2 isEvent
  obtain ⟨r, recorded⟩ := tidy.recorded_of_cached ⟨x, known⟩
  refine ⟨e, repeats.mem_iff.2 ⟨r, recorded, Record.reports_iff.2 ⟨?_, ?_⟩⟩, known⟩
  · obtain ⟨q', place', same⟩ := counted.same_thread tidy ordered isEvent
    obtain rfl := Option.some.inj (place.symm.trans place')
    rw [onThread, Place.thread?, recorded, Option.map_some, Option.some.injEq] at same
    exact same.symm
  · rw [tidy.branchPath?_of_event known recorded] at declared
    split at declared
    · exact alone.instruction_eq recorded declared
    · cases declared

/-- The block of a decision shows decisions of the branch only. -/
theorem Grouped.exists_decision {run : LoopRun} {y : NodeId} (grouped : g.Grouped t c none)
    (tidy : g.Tidy t c none) (ordered : t.WellOrdered)
    (repeats : t.Repeats thread branch first others) (alone : t.PathsOnlyAt branch.id)
    (member : e ∈ first :: others) (known : g.nodeOf[e]? = some x) (owned : g.owner? x = some b)
    (listed : run ∈ g.runsOf b) (shown : y ∈ run.members) :
    ∃ e' ∈ first :: others, g.nodeOf[e']? = some y := by
  obtain ⟨f, place⟩ := exists_place?_of_runsOf listed
  obtain ⟨q, place', onThread⟩ := tidy.owner_thread ordered (tidy.place?_of_event known) owned
  obtain rfl := Option.some.inj (place.symm.trans place')
  obtain ⟨r, recorded, reports⟩ := repeats.mem_iff.1 member
  rw [Place.thread?, recorded, Option.map_some, (Record.reports_iff.1 reports).1] at onThread
  exact (grouped.gathered place).exists_decision tidy ordered repeats alone place onThread
    (List.mem_flatMap.2 ⟨run, listed, shown⟩)

/-- If all decisions took the same path, they make up one run of the block of the loop. -/
theorem Gathered.runsOf_eq (gathered : g.Gathered t l) (tidy : g.Tidy t c none)
    (ordered : t.WellOrdered) (repeats : t.Repeats thread branch first others)
    (alone : t.PathsOnlyAt branch.id) (collapse : c.collapseLoops = true)
    (keyed : g.loopBlocks[first]? = some l) (cached : ∀ e ∈ first :: others, g.Cached e)
    (same : ∀ e ∈ first :: others, t.pathFrom? e = some path) :
    g.runsOf l = [{ path, members := (first :: others).filterMap (g.nodeOf[·]?) }] := by
  have decision : ∀ {e x}, e ∈ first :: others → g.nodeOf[e]? = some x →
      g.BranchIn l x ∧ g.branchPath? t x = some path := by
    intro e x member known
    obtain ⟨r, recorded⟩ := tidy.recorded_of_cached ⟨x, known⟩
    have taken : g.branchPath? t x = some path := by
      rw [tidy.branchPath?_of_event known recorded,
        if_pos (repeats.decisions e member r recorded), same e member]
    have isBranch := isBranch_of_branchPath? (Option.isSome_iff_exists.2 ⟨path, taken⟩)
    exact ⟨⟨isBranch, tidy.owner?_of_repeats repeats collapse keyed member known⟩, taken⟩
  have sorted : ((first :: others).filterMap (g.nodeOf[·]?)).Pairwise g.Earlier := by
    rw [← repeats.executions]
    refine (t.pairwise_executions thread branch.id).filterMap _ ?_
    intro e e' earlier x known x' known'
    exact ⟨e, e', tidy.place?_of_event known, tidy.place?_of_event known', earlier⟩
  have iterations : g.iterations l = (first :: others).filterMap (g.nodeOf[·]?) := by
    refine gathered.sorted.eq_of_mem_iff sorted fun x => ⟨fun member => ?_, fun member => ?_⟩
    · obtain ⟨r, recorded, reports⟩ := repeats.isFirst.meets
      refine List.mem_filterMap.2 (gathered.exists_decision tidy ordered repeats alone
        (tidy.registered (p := .loop first).1 keyed) ?_ member)
      rw [Place.thread?, recorded, Option.map_some, (Record.reports_iff.1 reports).1]
    · obtain ⟨e, member, known⟩ := List.mem_filterMap.1 member
      obtain ⟨within, taken⟩ := decision member known
      exact (gathered.mem x).2 ⟨.inl within, Option.isSome_iff_exists.2 ⟨path, taken⟩⟩
  have paths : ((first :: others).filterMap (g.nodeOf[·]?)).filterMap
      (fun x => (g.branchPath? t x).map (·, x)) =
      ((first :: others).filterMap (g.nodeOf[·]?)).map (path, ·) := by
    rw [← List.filterMap_eq_map]
    refine List.filterMap_congr fun x member => ?_
    obtain ⟨e, member, known⟩ := List.mem_filterMap.1 member
    rw [(decision member known).2]
    rfl
  obtain ⟨x, known⟩ := cached first List.mem_cons_self
  rw [gathered.runs, iterations, paths, List.filterMap_cons_some known]
  exact groupRuns_map path x _

/-- If all decisions took the same path, all but the first are redundant. -/
theorem Grouped.isRedundant_eq (grouped : g.Grouped t c none) (tidy : g.Tidy t c none)
    (ordered : t.WellOrdered) (repeats : t.Repeats thread branch first others)
    (alone : t.PathsOnlyAt branch.id) (collapse : c.collapseLoops = true)
    (cached : ∀ e ∈ first :: others, g.Cached e)
    (same : ∀ e ∈ first :: others, t.pathFrom? e = some path) (member : e ∈ first :: others)
    (known : g.nodeOf[e]? = some x) : g.isRedundant x = .ok (decide (e ≠ first)) := by
  obtain ⟨b, owned⟩ := tidy.exists_owner? known nofun
  obtain ⟨m, found⟩ := tidy.exists_node?_owner ordered owned
  rw [isRedundant_of_owner? owned found]
  refine congrArg Except.ok ?_
  cases others with
  | nil =>
    -- a run that shows the only decision shows nothing else
    obtain rfl := List.mem_singleton.1 member
    rw [decide_eq_false (not_not.2 rfl), List.any_eq_false]
    intro run listed redundant
    rw [Bool.and_eq_true, decide_eq_true_eq, decide_eq_true_eq] at redundant
    have only : ∀ y ∈ run.members, y = x := by
      intro y shown
      obtain ⟨e', member', known'⟩ :=
        grouped.exists_decision tidy ordered repeats alone member known owned listed shown
      obtain rfl := List.mem_singleton.1 member'
      exact Option.some.inj (known'.symm.trans known)
    cases members : run.members with
    | nil =>
      rw [members] at redundant
      cases redundant.2
    | cons y rest =>
      rw [members, only y (members ▸ List.mem_cons_self)] at redundant
      exact redundant.1 rfl
  | cons second rest =>
    -- all decisions are in the block of the loop, in one run
    have second' : second ∈ second :: rest := List.mem_cons_self
    obtain ⟨l, keyed⟩ := tidy.looped (cached second (List.mem_cons_of_mem first second')) nofun
      (repeats.loopOf?_eq collapse second')
    have gathered := grouped.gathered (tidy.registered (p := .loop first).1 keyed)
    obtain rfl := Option.some.inj
      (owned.symm.trans (tidy.owner?_of_repeats repeats collapse keyed member known))
    obtain ⟨x₀, known₀⟩ := cached first List.mem_cons_self
    rw [gathered.runsOf_eq tidy ordered repeats alone collapse keyed cached same]
    have listed : x ∈ (first :: second :: rest).filterMap (g.nodeOf[·]?) :=
      List.mem_filterMap.2 ⟨e, member, known⟩
    have isFirst : x₀ = x ↔ e = first := by
      constructor
      · rintro rfl
        exact tidy.event_unique known known₀
      · rintro rfl
        exact Option.some.inj (known₀.symm.trans known)
    have head : ((first :: second :: rest).filterMap (g.nodeOf[·]?)).head? = some x₀ := by
      rw [List.filterMap_cons_some known₀, List.head?_cons]
    rw [List.any_cons, List.any_nil, Bool.or_false, decide_eq_true listed, Bool.and_true, head]
    exact decide_eq_decide.2 (not_congr (by rw [Option.some.injEq, isFirst]))

end Graph

/-! ### Answers -/

namespace Answer

/-- Whatever is asked of a fresh answer, as long as every decision of a branch gets a node: if the
branch is decided again and again, all decisions are in the block of the loop that the first one
starts; and if they all took the same path, and no other instruction has paths, then all but the
first are redundant. -/
theorem repeats_collapse (t : Trace) (c : Config) (ordered : t.WellOrdered)
    (collapse : c.collapseLoops = true) (thread : ThreadId) (branch : Instruction)
    (first : EventId) (others : List EventId) (repeats : t.Repeats thread branch first others)
    (counter : AnswerCounter) (calls : List Call)
    (inside : ∀ call ∈ calls, call.event.index < t.size) :
    ∃ a, (new t c counter).1.run calls = .ok a ∧
      ((∀ e ∈ first :: others, a.graph.Cached e) →
        (others ≠ [] → ∃ l, a.graph.loopBlocks[first]? = some l ∧
          ∀ e ∈ first :: others, ∃ x n, a.graph.nodeOf[e]? = some x ∧ a.graph.node x = .ok n ∧
            n.owner = some l) ∧
        ∀ path, (∀ e ∈ first :: others, t.loopPathOf e = .ok (some path)) →
          t.PathsOnlyAt branch.id →
          (first :: others).mapM (fun e => a.graph.cached e >>= a.graph.isRedundant) =
            .ok (false :: List.replicate others.length true)) := by
  obtain ⟨a, succeeds, reached⟩ := (orderly_new t c counter).run ordered inside
  have tidy := reached.tidy
  have grouped := (leads_of_run ordered inside succeeds).grouped ordered (Graph.tidy_empty t c)
    (Graph.grouped_empty t c)
  refine ⟨a, succeeds, fun cached => ⟨fun again => ?_, fun path same alone => ?_⟩⟩
  · obtain ⟨second, isOther⟩ := List.exists_mem_of_ne_nil others again
    obtain ⟨l, keyed⟩ := tidy.looped (cached second (List.mem_cons_of_mem first isOther)) nofun
      (repeats.loopOf?_eq collapse isOther)
    refine ⟨l, keyed, fun e member => ?_⟩
    obtain ⟨x, known⟩ := cached e member
    have owned := tidy.owner?_of_repeats repeats collapse keyed member known
    obtain ⟨n, found, owner⟩ := Graph.exists_node?_of_owner? owned
    exact ⟨x, n, known, Graph.node_eq_ok_iff.2 found, owner⟩
  · have same : ∀ e ∈ first :: others, t.pathFrom? e = some path := fun e member =>
      (Trace.loopPathOf_eq_ok_iff.1 (same e member)).2.symm
    have redundant : ∀ e ∈ first :: others,
        (a.graph.cached e >>= a.graph.isRedundant) = .ok (decide (e ≠ first)) := by
      intro e member
      obtain ⟨x, known⟩ := cached e member
      simp only [Graph.cached, known, bind, Except.bind]
      exact grouped.isRedundant_eq tidy ordered repeats alone collapse cached same member known
    rw [mapM_eq_ok redundant, List.map_cons, decide_eq_false (not_not.2 rfl)]
    refine congrArg (fun flags => Except.ok (false :: flags)) (List.eq_replicate_iff.2 ⟨?_, ?_⟩)
    · rw [List.length_map]
    · intro flag listed
      obtain ⟨e, isOther, rfl⟩ := List.mem_map.1 listed
      refine decide_eq_true ?_
      rintro rfl
      exact absurd (repeats.lt_of_mem isOther) (Nat.lt_irrefl _)

/-- A branch with a path that starts over at once. -/
def countdownBranch : Instruction where
  id := ⟨1⟩
  method := ⟨0⟩
  position := 1
  kind := .branch
  loopPaths := [{ id := ⟨0⟩, branches := [⟨1⟩] }]

/-- A loop whose branch stands behind its body and is decided three times. -/
def decidedThrice : Trace where
  program :=
    { classes := #[{ id := ⟨0⟩, name := "Countdown", superclass := none }]
      methods := #[
        { id := ⟨0⟩, declaringClass := ⟨0⟩, name := "run", isStatic := true,
          instructions := #[⟨0⟩, ⟨1⟩] }]
      instructions := #[
        { id := ⟨0⟩, method := ⟨0⟩, position := 0, kind := .other },
        countdownBranch] }
  events := #[
    { kind := .branch, instruction := ⟨1⟩ },
    { kind := .value, instruction := ⟨0⟩, control := some ⟨0⟩ },
    { kind := .branch, instruction := ⟨1⟩, control := some ⟨0⟩ },
    { kind := .branch, instruction := ⟨1⟩, control := some ⟨2⟩ }]
  ends := ∅

theorem repeats_decidedThrice :
    decidedThrice.Repeats ⟨0⟩ countdownBranch ⟨0⟩ [⟨2⟩, ⟨3⟩] := by
  refine ⟨rfl, by decide +kernel, fun e member r recorded => ?_, by decide +kernel⟩
  simp only [List.mem_cons, List.not_mem_nil, or_false] at member
  obtain rfl | rfl | rfl := member <;> cases recorded <;> rfl

theorem pathsOnlyAt_decidedThrice : decidedThrice.PathsOnlyAt ⟨1⟩ := by
  rintro ⟨index⟩ i declared other
  have inside : index < 2 := (Array.getElem?_eq_some_iff.1 declared).1
  obtain rfl | rfl : index = 0 ∨ index = 1 := by omega
  · cases declared
    rfl
  · exact absurd rfl other

/-- The last decision is asked for first. -/
theorem repeats_collapse_decidedThrice :
    decidedThrice.WellOrdered ∧ decidedThrice.Repeats ⟨0⟩ countdownBranch ⟨0⟩ [⟨2⟩, ⟨3⟩] ∧
      ∃ a, (new decidedThrice {} {}).1.run [.explain ⟨3⟩, .request ⟨1⟩, .explain ⟨2⟩] = .ok a ∧
        (∃ l, a.graph.loopBlocks[(⟨0⟩ : EventId)]? = some l ∧
          ∀ e ∈ [(⟨0⟩ : EventId), ⟨2⟩, ⟨3⟩], ∃ x n, a.graph.nodeOf[e]? = some x ∧
            a.graph.node x = .ok n ∧ n.owner = some l) ∧
        [(⟨0⟩ : EventId), ⟨2⟩, ⟨3⟩].mapM (fun e => a.graph.cached e >>= a.graph.isRedundant) =
          .ok [false, true, true] := by
  have ordered : decidedThrice.WellOrdered := by decide +kernel
  have inside : ∀ call ∈ [Call.explain ⟨3⟩, Call.request ⟨1⟩, Call.explain ⟨2⟩],
      call.event.index < decidedThrice.size := by decide +kernel
  have paths : ∀ e ∈ [(⟨0⟩ : EventId), ⟨2⟩, ⟨3⟩], decidedThrice.loopPathOf e = .ok (some ⟨0⟩) := by
    simp only [List.forall_mem_cons]
    exact ⟨rfl, rfl, rfl, fun _ none => absurd none List.not_mem_nil⟩
  have seen : ((new decidedThrice {} {}).1.run
      [.explain ⟨3⟩, .request ⟨1⟩, .explain ⟨2⟩]).toOption.map (fun a =>
        [(⟨0⟩ : EventId), ⟨2⟩, ⟨3⟩].all fun e => (a.graph.nodeOf[e]?).isSome) = some true := by
    decide +kernel
  obtain ⟨a, succeeds, seen⟩ := exists_ok_of_view seen
  have cached : ∀ e ∈ [(⟨0⟩ : EventId), ⟨2⟩, ⟨3⟩], a.graph.Cached e := fun e member =>
    Option.isSome_iff_exists.1 (List.all_eq_true.1 seen e member)
  obtain ⟨a', succeeds', collapses⟩ := repeats_collapse decidedThrice {} ordered rfl ⟨0⟩
    countdownBranch ⟨0⟩ [⟨2⟩, ⟨3⟩] repeats_decidedThrice {} _ inside
  cases succeeds.symm.trans succeeds'
  obtain ⟨together, redundant⟩ := collapses cached
  exact ⟨ordered, repeats_decidedThrice, a, succeeds, together (List.cons_ne_nil _ _),
    redundant ⟨0⟩ paths pathsOnlyAt_decidedThrice⟩

end Answer

end Inquest
