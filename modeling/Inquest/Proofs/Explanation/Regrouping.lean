import Inquest.Proofs.Explanation.Iterations
import Inquest.Proofs.Explanation.Memos

/-!
# Regrouping the members of a loop block

Whenever a branch joins a loop block, the members of the block are grouped into runs anew.  The runs
are the finest statement of what the block shows: they hold each branch whose path is known once, in
the order of the events, and they are cut exactly where the path changes.  A branch is redundant if
it is not the first one of its run, which is to say that the branch with a path just before it took
the same path.

A block lists its members by their events, and what it lists belongs to it.  This is all that is
needed, and it holds for every trace and also in the middle of a request.

## Main Definitions

* `Graph.Decomposed` - a list of runs is the decomposition of the members of a block

## Main Statements

* `any_groupRuns_iff` - who is in a run but not its first member
* `infix_pair_iff` - neighbours in a sorted list
* `Graph.decomposed_of_recomputeRuns` - what regrouping comes to
* `Answer.recomputeRuns_maximal` - in every graph that a session meets
-/

namespace Inquest

/-! ### Neighbours -/

section Neighbours

variable {α : Type} {r : α → α → Prop} {l : List α} {a b : α}

/-- Two entries are next to each other in a sorted list if one comes before the other and nothing
lies between them. -/
theorem infix_pair_iff (asymm : ∀ {a b}, r a b → ¬ r b a) (sorted : l.Pairwise r) :
    [a, b] <:+: l ↔ a ∈ l ∧ b ∈ l ∧ r a b ∧ ∀ c ∈ l, r a c → ¬ r c b := by
  induction l with
  | nil => simp
  | cons first rest ih =>
    obtain ⟨after, others⟩ := List.pairwise_cons.1 sorted
    rw [List.infix_cons_iff, List.cons_prefix_cons, ih others]
    constructor
    · rintro (⟨rfl, later, rfl⟩ | ⟨memberA, memberB, before, between⟩)
      · have before : r a b := after b List.mem_cons_self
        refine ⟨List.mem_cons_self, List.mem_cons_of_mem _ List.mem_cons_self, before, ?_⟩
        intro c member afterA beforeB
        rcases List.mem_cons.1 member with rfl | member
        · exact asymm afterA afterA
        rcases List.mem_cons.1 member with rfl | member
        · exact asymm beforeB beforeB
        · exact asymm beforeB ((List.pairwise_cons.1 others).1 c member)
      · refine ⟨List.mem_cons_of_mem _ memberA, List.mem_cons_of_mem _ memberB, before, ?_⟩
        intro c member afterA
        rcases List.mem_cons.1 member with rfl | member
        · exact absurd (after a memberA) (asymm afterA)
        · exact between c member afterA
    · rintro ⟨memberA, memberB, before, between⟩
      rcases List.mem_cons.1 memberA with rfl | memberA
      · -- the entry after the first one would lie between
        refine .inl ⟨rfl, ?_⟩
        have memberB := (List.mem_cons.1 memberB).resolve_left
          fun same => asymm before (same ▸ before)
        cases rest with
        | nil => cases memberB
        | cons next later =>
          rcases List.mem_cons.1 memberB with rfl | memberB
          · exact ⟨later, rfl⟩
          · refine absurd ((List.pairwise_cons.1 others).1 b memberB) (between next ?_ ?_)
            · exact List.mem_cons_of_mem _ List.mem_cons_self
            · exact after next List.mem_cons_self
      · have memberB := (List.mem_cons.1 memberB).resolve_left
          fun same => asymm before (same ▸ after a memberA)
        exact .inr ⟨memberA, memberB, before,
          fun c member => between c (List.mem_cons_of_mem _ member)⟩

end Neighbours

section GroupRuns

variable {iterations : List (LoopPathId × NodeId)} {id : NodeId}

/-- The first run starts with the first iteration. -/
theorem exists_groupRuns_cons (path : LoopPathId) (id : NodeId)
    (rest : List (LoopPathId × NodeId)) :
    ∃ members runs,
      groupRuns ((path, id) :: rest) = { path, members := id :: members } :: runs := by
  rw [groupRuns]
  cases groupRuns rest with
  | nil => exact ⟨[], [], rfl⟩
  | cons run runs =>
    by_cases same : run.path = path
    · exact ⟨run.members, runs, if_pos same⟩
    · exact ⟨[], run :: runs, if_neg same⟩

/-- An iteration follows on another one of the same path. -/
theorem exists_infix_cons_iff {path path' : LoopPathId} {first second : NodeId}
    {others : List (LoopPathId × NodeId)} :
    (∃ p before, [(p, before), (p, id)] <:+: (path, first) :: (path', second) :: others) ↔
      path' = path ∧ id = second ∨
        ∃ p before, [(p, before), (p, id)] <:+: (path', second) :: others := by
  have parts : ∀ p before, [(p, before), (p, id)] <:+: (path, first) :: (path', second) :: others ↔
      [(p, before), (p, id)] <+: (path, first) :: (path', second) :: others ∨
        [(p, before), (p, id)] <:+: (path', second) :: others := fun _ _ => List.infix_cons_iff
  simp only [parts, List.cons_prefix_cons, exists_or, List.nil_prefix, and_true, Prod.mk.injEq]
  refine or_congr_left ⟨?_, ?_⟩
  · rintro ⟨p, before, ⟨rfl, -⟩, rfl, rfl⟩
    exact ⟨rfl, rfl⟩
  · rintro ⟨rfl, rfl⟩
    exact ⟨path', first, ⟨rfl, rfl⟩, rfl, rfl⟩

/-- An iteration is in a run but not its first one exactly if it follows on an iteration of the same
path. -/
theorem any_groupRuns_iff (nodup : (iterations.map Prod.snd).Nodup) :
    ((groupRuns iterations).any fun run => run.members.head? ≠ some id && id ∈ run.members) = true ↔
      ∃ path before, [(path, before), (path, id)] <:+: iterations := by
  induction iterations with
  | nil => simp [groupRuns]
  | cons iteration rest ih =>
    obtain ⟨path, first⟩ := iteration
    rw [List.map_cons, List.nodup_cons] at nodup
    have ih := ih nodup.2
    cases rest with
    | nil =>
      constructor
      · simp [groupRuns, eq_comm (a := id)]
      · rintro ⟨p, before, inside⟩
        exact absurd inside.length_le (by simp)
    | cons next others =>
      obtain ⟨path', second⟩ := next
      obtain ⟨members, runs, grouped⟩ := exists_groupRuns_cons path' second others
      -- the first iteration is no other one
      have apart : ∀ x ∈ second :: members, first ≠ x := by
        rintro x listed rfl
        have run : { path := path', members := second :: members } ∈
            groupRuns ((path', second) :: others) := grouped ▸ List.mem_cons_self
        exact nodup.1 (List.mem_map.2 ⟨(path', first), (groupRuns_spec run).2 first listed, rfl⟩)
      rw [exists_infix_cons_iff, ← ih, groupRuns, grouped]
      simp only
      by_cases same : path' = path
      · rw [if_pos same]
        simp only [List.any_cons, Bool.or_eq_true, ← or_assoc]
        refine or_congr_left ?_
        simp only [List.head?_cons, Bool.and_eq_true, decide_eq_true_eq, Option.some.injEq, ne_eq]
        constructor
        · rintro ⟨notFirst, listed⟩
          have listed := (List.mem_cons.1 listed).resolve_left (Ne.symm notFirst)
          refine or_iff_not_imp_left.2 fun notSecond => ⟨fun same' => ?_, listed⟩
          exact notSecond ⟨same, same'.symm⟩
        · rintro (⟨-, rfl⟩ | ⟨-, listed⟩)
          · exact ⟨apart id List.mem_cons_self, List.mem_cons_of_mem _ List.mem_cons_self⟩
          · exact ⟨apart id listed, List.mem_cons_of_mem _ listed⟩
      · rw [if_neg same, List.any_cons, Bool.or_eq_true]
        refine or_congr_left ⟨?_, fun both => absurd both.1 same⟩
        simp [eq_comm (a := id)]

end GroupRuns

/-! ### Resolved paths -/

theorem Node.kind_resolvePath_ne (n : Node) (pathOf : EventId → Option LoopPathId) :
    (n.resolvePath pathOf).kind ≠ .branch .unresolved := by
  unfold resolvePath
  split
  · exact fun same => by cases same
  · next other => exact other

namespace Graph

variable {g g' : Graph} {t : Trace} {l x : NodeId} {n : Node}

/-- Asking for a path that is resolved changes nothing. -/
theorem loopPath_of_resolved (remembers : g.Remembers t) (found : g.node? x = some n)
    (resolved : n.kind ≠ .branch .unresolved) : g.loopPath t x = .ok (g, g.branchPath? t x) := by
  have right := remembers.right found
  rw [branchPath?_of_node? found]
  unfold loopPath
  rw [node_eq_ok_iff.2 found]
  cases kind : n.kind with
  | branch memo =>
    cases memo with
    | unresolved => exact absurd kind resolved
    | resolved path =>
      obtain rfl := right path kind
      simp only [bind, Except.bind, kind]
      rfl
  | event | invocation _ | exception | startMethod | loop _ | thread _ _ _ =>
    simp only [bind, Except.bind, kind]
    rfl

/-! ### The decomposition -/

/-- Runs are the decomposition of some members: they hold the branches with a path, in the order of
their events, and are cut where the path changes. -/
structure Decomposed (t : Trace) (g : Graph) (members : List NodeId) (runs : List LoopRun) :
    Prop where
  nonempty : ∀ run ∈ runs, run.members ≠ []
  joined : runs.flatMap LoopRun.members = members.filter fun x => (g.branchPath? t x).isSome
  sorted : (runs.flatMap LoopRun.members).Pairwise g.Earlier
  uniform : ∀ run ∈ runs, ∀ x ∈ run.members, g.branchPath? t x = some run.path
  maximal : runs.IsChain fun run next => run.path ≠ next.path

/-- The last branch with a path before a branch took the same path as the branch. -/
def Follows (t : Trace) (g : Graph) (members : List NodeId) (x : NodeId) : Prop :=
  ∃ path, g.branchPath? t x = some path ∧
    ∃ y ∈ members, g.branchPath? t y = some path ∧ g.Earlier y x ∧
      ∀ z ∈ members, (g.branchPath? t z).isSome = true → g.Earlier y z → ¬ g.Earlier z x

theorem Earlier.asymm {y : NodeId} (before : g.Earlier x y) : ¬ g.Earlier y x := by
  intro after
  obtain rfl : x = y := Std.Antisymm.antisymm x y before after
  exact Std.Irrefl.irrefl x before

/-- The iterations that are grouped are the members with a path. -/
theorem mem_paths {members : List NodeId} {path : LoopPathId} :
    (path, x) ∈ members.filterMap (fun y => (g.branchPath? t y).map (·, y)) ↔
      x ∈ members ∧ g.branchPath? t x = some path := by
  simp only [List.mem_filterMap, Option.map_eq_some_iff, Prod.mk.injEq]
  constructor
  · rintro ⟨y, member, path', taken, rfl, rfl⟩
    exact ⟨member, taken⟩
  · rintro ⟨member, taken⟩
    exact ⟨x, member, path, taken, rfl, rfl⟩

namespace Filed

variable (filed : g.Filed)

include filed

/-- The branches with a path in a block come in the order of their events. -/
theorem pairwise_filter (t : Trace) (l : NodeId) :
    ((g.membersOf l).filter fun x => (g.branchPath? t x).isSome).Pairwise g.Earlier := by
  cases found : g.shape? l with
  | none =>
    rw [membersOf, found]
    exact List.Pairwise.nil
  | some s =>
    have place : ∀ {e y}, (e, y) ∈ s.members.toList → (g.branchPath? t y).isSome = true →
        g.place? y = some (.event e) := by
      intro e y listed declared
      have entry : g.member? l e = some y := member?_eq_some_iff.2
        ⟨s, found, Std.TreeMap.mem_toList_iff_getElem?_eq_some.1 listed⟩
      obtain ⟨s', found', rfl, -⟩ := filed.listed entry
      exact (isBranch_of_branchPath? declared).place?_eq found'
    rw [membersOf, found, Option.map_some, Option.getD_some, values_eq_map_toList, List.filter_map,
      List.pairwise_map]
    refine (Std.TreeMap.ordered_keys_toList.filter _).imp_of_mem ?_
    rintro ⟨e, y⟩ ⟨f, z⟩ listed listed' before
    obtain ⟨listed, declared⟩ := List.mem_filter.1 listed
    obtain ⟨listed', declared'⟩ := List.mem_filter.1 listed'
    have before : compare e.index f.index = .lt := before
    exact ⟨e, f, place listed declared, place listed' declared', Nat.compare_eq_lt.1 before⟩

theorem decomposed (t : Trace) (l : NodeId) :
    g.Decomposed t (g.membersOf l) (g.memberRuns t l) := by
  have joined := g.flatMap_memberRuns t l
  refine ⟨fun run member => (groupRuns_spec member).1, joined, ?_, fun run member x listed => ?_,
    isChain_groupRuns _⟩
  · rw [joined]
    exact filed.pairwise_filter t l
  · exact (mem_paths.1 ((groupRuns_spec member).2 x listed)).2

/-- A member of a block whose runs are up to date is redundant exactly if it follows on a branch of
the same path. -/
theorem isRedundant_iff (grouped : g.runsOf l = g.memberRuns t l) (member : x ∈ g.membersOf l) :
    ∃ redundant, g.isRedundant x = .ok redundant ∧
      (redundant = true ↔ g.Follows t (g.membersOf l) x) := by
  obtain ⟨e, entry⟩ := mem_membersOf_iff_member?.1 member
  obtain ⟨s, shape, -, owner⟩ := filed.listed entry
  obtain ⟨s', shape', -⟩ := member?_eq_some_iff.1 entry
  obtain ⟨m, found, -⟩ := exists_node?_of_shape? shape'
  refine ⟨_, isRedundant_of_owner? ((owner?_of_shape? shape).trans owner) found, ?_⟩
  -- the iterations are sorted by their events, so that each of them is there once
  have sorted := filed.pairwise_filter t l
  rw [← g.flatMap_memberRuns t l, memberRuns, flatMap_groupRuns] at sorted
  have nodup := sorted.imp fun {y z} (before : g.Earlier y z) (same : y = z) =>
    Std.Irrefl.irrefl z (same ▸ before)
  rw [grouped, memberRuns, any_groupRuns_iff nodup]
  have sorted := List.pairwise_map.1 sorted
  simp only [infix_pair_iff (fun before => Earlier.asymm before) sorted, mem_paths, Prod.forall]
  constructor
  · rintro ⟨path, y, ⟨isMember, taken'⟩, ⟨-, taken⟩, before, between⟩
    refine ⟨path, taken, y, isMember, taken', before, fun z isMember declared => ?_⟩
    obtain ⟨path', declared⟩ := Option.isSome_iff_exists.1 declared
    exact between path' z ⟨isMember, declared⟩
  · rintro ⟨path, taken, y, isMember, taken', before, between⟩
    refine ⟨path, y, ⟨isMember, taken'⟩, ⟨member, taken⟩, before, fun path' z listed => ?_⟩
    exact between z listed.1 (Option.isSome_iff_exists.2 ⟨path', listed.2⟩)

end Filed

/-- Regrouping the members of a block resolves their paths. -/
theorem resolved_of_recomputeRuns {m : Node} (found : g.node? l = some n)
    (regrouped : g.recomputeRuns t l = .ok g') (found' : g.node? x = some m)
    (member : x ∈ n.members.values) :
    ∃ m', g'.node? x = some m' ∧ m'.kind ≠ .branch .unresolved := by
  obtain rfl := recomputeRuns_eq found regrouped
  have resolved : (n.members.values.foldl (·.resolvePath t ·) g).node? x =
      some (m.resolvePath t.pathFrom?) := by
    rw [node?_foldl_resolvePath, if_pos member, found', Option.map_some]
  rw [regroup, node?_modify, resolved]
  split
  · exact ⟨_, rfl, fun unresolved => by cases unresolved⟩
  · exact ⟨_, rfl, m.kind_resolvePath_ne t.pathFrom?⟩

/-- Regrouping the members of a loop block gives it their decomposition and resolves their
paths. -/
theorem decomposed_of_recomputeRuns (filed : g.Filed) (faithful : g.Faithful t)
    (found : g.node? l = some n) (loop : n.kind.isLoop = true) :
    ∃ g' n' runs, g.recomputeRuns t l = .ok g' ∧ g'.node? l = some n' ∧ n'.kind = .loop runs ∧
      n'.members = n.members ∧ g'.Decomposed t n.members.values runs ∧
      ∀ x ∈ n.members.values, g'.loopPath t x = .ok (g', g'.branchPath? t x) ∧
        ∃ redundant, g'.isRedundant x = .ok redundant ∧
          (redundant = true ↔ g'.Follows t n.members.values x) := by
  have present : ∀ x ∈ n.members.values, ∃ m, g.node? x = some m := by
    intro x member
    obtain ⟨e, entry⟩ := mem_membersOf_iff_member?.1 (membersOf_of_node? found ▸ member)
    obtain ⟨s, shape, -⟩ := filed.listed entry
    obtain ⟨m, foundX, -⟩ := exists_node?_of_shape? shape
    exact ⟨m, foundX⟩
  obtain ⟨g', regrouped, -⟩ := recomputeRuns_alike found loop fun x member => by
    obtain ⟨m, foundX⟩ := present x member
    exact faithful.traceable foundX
  obtain ⟨alike, remembers', runs⟩ := recomputeRuns_spec found loop faithful.remembers regrouped
  have filed' : g'.Filed :=
    Edit.filed (.touch (retouched_of_recomputeRuns found loop regrouped)) filed
  obtain ⟨n', found', shape⟩ := alike.node? found
  have members : n'.members = n.members := congrArg Shape.members shape
  have kind : n'.kind = .loop (g'.memberRuns t l) := by
    have isLoop := (Node.isLoop_of_shape_eq shape).trans loop
    have kept := runs l
    rw [if_pos rfl, runsOf_of_node? found'] at kept
    rw [← kept]
    cases kind : n'.kind <;> simp_all [NodeKind.isLoop, NodeKind.runs]
  have listed : g'.membersOf l = n.members.values := by rw [membersOf_of_node? found', members]
  refine ⟨g', n', _, regrouped, found', kind, members, listed ▸ filed'.decomposed t l,
    fun x member => ⟨?_, listed ▸ filed'.isRedundant_iff ?_ (listed.symm ▸ member)⟩⟩
  · obtain ⟨m, foundX⟩ := present x member
    obtain ⟨m', foundX', resolved⟩ := resolved_of_recomputeRuns found regrouped foundX member
    exact loopPath_of_resolved remembers' foundX' resolved
  · rw [runs, if_pos rfl]

end Graph

namespace Answer

/-- Whatever a reader did with an answer, and whatever edits led on from there, as they do in the
middle of a request: regrouping the members of a loop block succeeds and gives the block their
decomposition into the longest runs of one path.  It leaves every path of a member known, so that
asking for it changes nothing.  A member is redundant from then on exactly if it has a path and the
last branch before it in the block that has one has the same. -/
theorem recomputeRuns_maximal (t : Trace) (c : Config) (counter : AnswerCounter)
    (actions : List Action) (a : Answer) (reports : List Report)
    (lived : (new t c counter).1.live actions = .ok (a, reports)) (g : Graph)
    (edits : Graph.Edits t a.graph g) (l : NodeId) (n : Node) (found : g.node l = .ok n)
    (loop : n.kind.isLoop = true) :
    ∃ g' n' runs, g.recomputeRuns t l = .ok g' ∧ g'.node l = .ok n' ∧ n'.kind = .loop runs ∧
      n'.members = n.members ∧ g'.Decomposed t n.members.values runs ∧
      ∀ x ∈ n.members.values, g'.loopPath t x = .ok (g', g'.branchPath? t x) ∧
        ∃ redundant, g'.isRedundant x = .ok redundant ∧
          (redundant = true ↔ g'.Follows t n.members.values x) := by
  obtain ⟨-, before⟩ := edits_of_live lived
  have edits : Graph.Edits t {} g := before.trans edits
  have faithful := edits.faithful (faithful_new t c counter).2
  obtain ⟨g', n', runs, regrouped, found', facts⟩ := Graph.decomposed_of_recomputeRuns
    (edits.filed Graph.filed_empty) faithful (Graph.node_eq_ok_iff.1 found) loop
  exact ⟨g', n', runs, regrouped, Graph.node_eq_ok_iff.2 found', facts⟩

/-- A loop whose branch is decided four times, each time but the last with another branch or itself
decided next.  The recording ends with an event whose control it does not have. -/
def detours : Trace where
  program :=
    { classes := #[{ id := ⟨0⟩, name := "Walker", superclass := none }]
      methods := #[
        { id := ⟨0⟩, declaringClass := ⟨0⟩, name := "walk", isStatic := true,
          instructions := #[⟨0⟩, ⟨1⟩] }]
      instructions := #[
        { id := ⟨0⟩, method := ⟨0⟩, position := 0, kind := .branch },
        { id := ⟨1⟩, method := ⟨0⟩, position := 1, kind := .branch, loopPaths := [
          { id := ⟨0⟩, branches := [⟨1⟩, ⟨0⟩] },
          { id := ⟨1⟩, branches := [⟨1⟩, ⟨1⟩] }] }] }
  events := #[
    { kind := .branch, instruction := ⟨1⟩ },
    { kind := .branch, instruction := ⟨0⟩, control := some ⟨0⟩ },
    { kind := .branch, instruction := ⟨1⟩, control := some ⟨0⟩ },
    { kind := .branch, instruction := ⟨0⟩, control := some ⟨2⟩ },
    { kind := .branch, instruction := ⟨1⟩, control := some ⟨2⟩ },
    { kind := .branch, instruction := ⟨1⟩, control := some ⟨4⟩ },
    { kind := .value, instruction := ⟨0⟩, control := some ⟨99⟩ }]
  ends := ∅

/-- The second decision repeats the path of the first one.  The branch between them has no path, and
does not count. -/
theorem recomputeRuns_maximal_detours :
    ∃ a reports n g' n', (new detours {} {}).1.live [.call (.explain ⟨4⟩), .call (.request ⟨5⟩),
        .call (.explain ⟨1⟩), .call (.explain ⟨2⟩)] = .ok (a, reports) ∧
      a.graph.node ⟨3⟩ = .ok n ∧ n.members.values = [⟨0⟩, ⟨5⟩, ⟨6⟩, ⟨2⟩, ⟨4⟩] ∧
      a.graph.recomputeRuns detours ⟨3⟩ = .ok g' ∧ g'.node ⟨3⟩ = .ok n' ∧
      n'.kind = .loop [⟨⟨0⟩, [⟨0⟩, ⟨6⟩]⟩, ⟨⟨1⟩, [⟨2⟩]⟩] ∧
      g'.Decomposed detours n.members.values [⟨⟨0⟩, [⟨0⟩, ⟨6⟩]⟩, ⟨⟨1⟩, [⟨2⟩]⟩] ∧
      g'.isRedundant ⟨6⟩ = .ok true ∧ g'.Follows detours n.members.values ⟨6⟩ ∧
      g'.isRedundant ⟨2⟩ = .ok false ∧ ¬ g'.Follows detours n.members.values ⟨2⟩ := by
  have seen : ((new detours {} {}).1.live [.call (.explain ⟨4⟩), .call (.request ⟨5⟩),
      .call (.explain ⟨1⟩), .call (.explain ⟨2⟩)]).toOption.map (fun session =>
        ((session.1.graph.node? ⟨3⟩).map fun n => (n.kind.isLoop, n.members.values),
          (session.1.graph.recomputeRuns detours ⟨3⟩).toOption.map fun g' =>
            ((g'.node? ⟨3⟩).map Node.kind, (g'.isRedundant ⟨6⟩).toOption,
              (g'.isRedundant ⟨2⟩).toOption))) =
      some (some (true, [⟨0⟩, ⟨5⟩, ⟨6⟩, ⟨2⟩, ⟨4⟩]),
        some (some (.loop [⟨⟨0⟩, [⟨0⟩, ⟨6⟩]⟩, ⟨⟨1⟩, [⟨2⟩]⟩]), some true, some false)) := by
    decide +kernel
  obtain ⟨⟨a, reports⟩, lived, seen⟩ := exists_ok_of_view seen
  obtain ⟨isLoop, regroups⟩ := Prod.mk.inj seen
  obtain ⟨n, found, isLoop⟩ := Option.map_eq_some_iff.1 isLoop
  obtain ⟨loop, members⟩ := Prod.mk.inj isLoop
  obtain ⟨g', n', runs, regrouped, found', kind, -, decomposed, facts⟩ :=
    recomputeRuns_maximal detours {} {} _ a reports lived a.graph .refl ⟨3⟩ n
      (Graph.node_eq_ok_iff.2 found) loop
  obtain ⟨-, second, isSecond, follows⟩ := facts ⟨6⟩ (by rw [members]; decide)
  obtain ⟨-, third, isThird, changes⟩ := facts ⟨2⟩ (by rw [members]; decide)
  rw [regrouped, Except.toOption, Option.map_some, Graph.node_eq_ok_iff.1 found', isSecond, isThird,
    Option.map_some, kind] at regroups
  simp only [Option.some.injEq, Prod.mk.injEq, NodeKind.loop.injEq, Except.toOption] at regroups
  obtain ⟨rfl, rfl, rfl⟩ := regroups
  exact ⟨a, reports, n, g', n', lived, Graph.node_eq_ok_iff.2 found, members, regrouped, found',
    kind, decomposed, isSecond, follows.1 rfl, isThird,
    fun both => Bool.false_ne_true (changes.2 both)⟩

end Answer

end Inquest
