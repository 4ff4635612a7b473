import Mathlib.Data.List.Chain
import Inquest.Proofs.Explanation.Nesting

/-!
# The runs of a loop block

A loop block keeps the *runs* of its iterations: the branches in it whose path is a declared one, in
the order of their events, cut where the path changes.  The runs are not computed when they are
asked for.  They are regrouped when a branch is put into the block, and at no other time; in
particular they stay as they are when a branch leaves the block.

## Main Definitions

* `Graph.runsOf` - the runs that are kept
* `Graph.memberRuns` - the runs of the members that there are
* `Graph.Remembers` - no branch remembers a wrong path

## Main Statements

* `flatMap_groupRuns`, `groupRuns_spec`, `isChain_groupRuns` - grouping cuts a list into the longest
  runs of one path
* `Graph.recomputeRuns_spec` - what regrouping does
* `Graph.attach_runs`, `Graph.enclosing_runs` - when the runs of a block change
-/

namespace Inquest

/-! ### Runs of one path -/

section GroupRuns

variable {iterations : List (LoopPathId × NodeId)} {run : LoopRun} {id : NodeId}

/-- The runs, one after the other, are the iterations. -/
theorem flatMap_groupRuns (iterations : List (LoopPathId × NodeId)) :
    (groupRuns iterations).flatMap LoopRun.members = iterations.map Prod.snd := by
  induction iterations with
  | nil => rfl
  | cons iteration rest ih =>
    obtain ⟨path, id⟩ := iteration
    rw [groupRuns, List.map_cons, ← ih]
    cases groupRuns rest with
    | nil => rfl
    | cons run runs =>
      show (if run.path = path then _ else _ : List LoopRun).flatMap LoopRun.members = _
      split <;> simp [List.flatMap_cons]

theorem groupRuns_spec (member : run ∈ groupRuns iterations) :
    run.members ≠ [] ∧ ∀ id ∈ run.members, (run.path, id) ∈ iterations := by
  induction iterations generalizing run with
  | nil => cases member
  | cons iteration rest ih =>
    obtain ⟨path, first⟩ := iteration
    have later : ∀ {run}, run ∈ groupRuns rest → run.members ≠ [] ∧
        ∀ id ∈ run.members, (run.path, id) ∈ (path, first) :: rest := fun member =>
      ⟨(ih member).1, fun id listed => List.mem_cons_of_mem _ ((ih member).2 id listed)⟩
    have single : ({ path, members := [first] } : LoopRun).members ≠ [] ∧
        ∀ id ∈ [first], (path, id) ∈ (path, first) :: rest :=
      ⟨List.cons_ne_nil _ _, fun id listed => List.mem_singleton.1 listed ▸ List.mem_cons_self⟩
    rw [groupRuns] at member
    cases grouped : groupRuns rest with
    | nil =>
      rw [grouped] at member
      cases List.mem_singleton.1 member
      exact single
    | cons next runs =>
      rw [grouped] at member
      have isNext : next ∈ groupRuns rest := grouped ▸ List.mem_cons_self
      simp only at member
      split at member
      · next same =>
        rcases List.mem_cons.1 member with rfl | member
        · refine ⟨List.cons_ne_nil _ _, fun id listed => ?_⟩
          rcases List.mem_cons.1 listed with rfl | listed
          · exact List.mem_cons_self
          · exact same ▸ (later isNext).2 id listed
        · exact later (grouped ▸ List.mem_cons_of_mem next member)
      · rcases List.mem_cons.1 member with rfl | member
        · exact single
        · exact later (grouped ▸ member)

/-- The runs are maximal: those next to each other have different paths. -/
theorem isChain_groupRuns (iterations : List (LoopPathId × NodeId)) :
    (groupRuns iterations).IsChain fun run next => run.path ≠ next.path := by
  induction iterations with
  | nil => exact List.isChain_nil
  | cons iteration rest ih =>
    obtain ⟨path, id⟩ := iteration
    rw [groupRuns]
    cases grouped : groupRuns rest with
    | nil => exact List.isChain_singleton _
    | cons run runs =>
      rw [grouped] at ih
      show (if run.path = path then _ else _ : List LoopRun).IsChain _
      split
      · next same =>
        cases runs with
        | nil => exact List.isChain_singleton _
        | cons next runs =>
          rw [List.isChain_cons_cons] at ih ⊢
          exact ⟨same ▸ ih.1, ih.2⟩
      · next other => exact List.isChain_cons_cons.2 ⟨Ne.symm other, ih⟩

/-- Iterations of one path make up one run. -/
theorem groupRuns_map (path : LoopPathId) (first : NodeId) (rest : List NodeId) :
    groupRuns ((first :: rest).map (path, ·)) = [{ path, members := first :: rest }] := by
  induction rest generalizing first with
  | nil => rfl
  | cons next rest ih =>
    rw [List.map_cons, groupRuns, ih]
    exact if_pos rfl

end GroupRuns

/-! ### What nodes know about iterations -/

/-- What is known about the path of a branch. -/
def NodeKind.memo? : NodeKind → Option PathMemo
  | .branch memo => some memo
  | _ => none

namespace Node

/-- What a node knows about iterations: the path of a branch, and the runs of a loop. -/
def laps (n : Node) : EventId × Option PathMemo × List LoopRun :=
  (n.event, n.kind.memo?, n.kind.runs)

theorem laps_noteDepth (n : Node) (block : NodeId) (depth : Nat) :
    (n.noteDepth block depth).laps = n.laps := by
  unfold noteDepth
  split
  · next thread =>
    split
    · simp [laps, thread, NodeKind.memo?, NodeKind.runs]
    · rfl
  · rfl

theorem runs_resolvePath (n : Node) (pathOf : EventId → Option LoopPathId) :
    (n.resolvePath pathOf).kind.runs = n.kind.runs := by
  unfold resolvePath
  split
  · next branch => simp [branch, NodeKind.runs]
  · rfl

theorem event_resolvePath (n : Node) (pathOf : EventId → Option LoopPathId) :
    (n.resolvePath pathOf).event = n.event := by
  unfold resolvePath
  split <;> rfl

/-- A branch that remembers the right path, if any, knows the right one when it is resolved. -/
theorem kind_resolvePath {n : Node} {pathOf : EventId → Option LoopPathId}
    (right : ∀ path, n.kind = .branch (.resolved path) → path = pathOf n.event) :
    (n.resolvePath pathOf).kind =
      if n.kind.isBranch then .branch (.resolved (pathOf n.event)) else n.kind := by
  cases kind : n.kind with
  | branch memo =>
    cases memo with
    | unresolved => simp [resolvePath, kind, NodeKind.isBranch]
    | resolved path =>
      rw [← right path kind]
      simp [resolvePath, kind, NodeKind.isBranch]
  | event | invocation _ | exception | startMethod | loop _ | thread _ _ _ =>
    simp [resolvePath, kind, NodeKind.isBranch]

end Node

namespace Graph

variable {g g' g'' : Graph} {t : Trace} {c : Config} {loose loose' : Option EventId}
variable {e f : EventId} {id b x l i anchor outer : NodeId} {n m : Node} {s : Shape}

/-- What the node of an identifier knows about iterations. -/
def laps? (g : Graph) (x : NodeId) : Option (EventId × Option PathMemo × List LoopRun) :=
  (g.node? x).map Node.laps

/-- The runs that are kept of a loop block. -/
def runsOf (g : Graph) (x : NodeId) : List LoopRun := ((g.laps? x).map (·.2.2)).getD []

theorem runsOf_of_node? (found : g.node? x = some n) : g.runsOf x = n.kind.runs := by
  rw [runsOf, laps?, found]
  rfl

/-- Whether a node is redundant can be read off the runs of the block that it belongs to. -/
theorem isRedundant_of_owner? (owned : g.owner? x = some b) (found : g.node? b = some m) :
    g.isRedundant x = .ok ((g.runsOf b).any fun run =>
      run.members.head? ≠ some x && x ∈ run.members) := by
  obtain ⟨n, found', owner⟩ := exists_node?_of_owner? owned
  simp only [isRedundant, node_eq_ok_iff.2 found', bind, Except.bind, owner,
    node_eq_ok_iff.2 found, runsOf_of_node? found]
  rfl

/-- Branches know the right path, if any. -/
def Remembers (t : Trace) (g : Graph) : Prop :=
  ∀ x e path runs, g.laps? x = some (e, some (.resolved path), runs) → path = t.pathFrom? e

theorem Remembers.right (remembers : g.Remembers t) (found : g.node? x = some n)
    (path : Option LoopPathId) (resolved : n.kind = .branch (.resolved path)) :
    path = t.pathFrom? n.event := by
  refine remembers x n.event path [] ?_
  rw [laps?, found, Option.map_some, Node.laps, resolved]
  rfl

/-- What is known about iterations is as it was. -/
def SameLaps (g g' : Graph) : Prop := ∀ x, g'.laps? x = g.laps? x

namespace SameLaps

theorem refl (g : Graph) : g.SameLaps g := fun _ => rfl

theorem trans (first : g.SameLaps g') (second : g'.SameLaps g'') : g.SameLaps g'' := fun x =>
  (second x).trans (first x)

theorem runsOf (same : g.SameLaps g') (x : NodeId) : g'.runsOf x = g.runsOf x := by
  rw [Graph.runsOf, Graph.runsOf, same x]

theorem remembers (same : g.SameLaps g') (remembers : g.Remembers t) : g'.Remembers t := by
  intro x e path runs known
  rw [same x] at known
  exact remembers x e path runs known

end SameLaps

theorem sameLaps_modify {f : Node → Node} (same : ∀ n, (f n).laps = n.laps) :
    g.SameLaps (g.modify id f) :=
  map_node?_modify fun n _ => same n

theorem sameLaps_link (g : Graph) (id b : NodeId) (e : EventId) : g.SameLaps (g.link id b e) :=
  map_node?_link (fun _ _ => rfl) fun _ _ => rfl

theorem sameLaps_of_detach (detached : g.detach id = .ok g') : g.SameLaps g' :=
  map_node?_detach (fun _ _ => rfl) detached

theorem sameLaps_of_setDepth {depth : Nat} (deepened : g.setDepth t id depth = .ok g') :
    g.SameLaps g' := by
  have set : g.SameLaps (g.modify id fun n => { n with depth }) := sameLaps_modify fun _ => rfl
  obtain ⟨-, -, -, -, ⟨-, rfl⟩ | ⟨root, -, rfl⟩⟩ := setDepth_cases deepened
  · exact set
  · exact set.trans (sameLaps_modify fun n => n.laps_noteDepth id depth)

theorem sameLaps_of_refreshDepths {count : Nat} {stack : List NodeId}
    (refreshed : refreshDepths t count stack g = .ok g') : g.SameLaps g' :=
  refreshDepths_induction (P := fun g' => g.SameLaps g') (.refl g)
    (fun before _ set => before.trans (sameLaps_of_setDepth set)) refreshed

/-! ### Regrouping -/

/-- The path of a branch. -/
def branchPath? (g : Graph) (t : Trace) (x : NodeId) : Option LoopPathId :=
  (g.shape? x).bind fun s => if s.kind.isBranch then t.pathFrom? s.anchor else none

theorem branchPath?_of_node? (found : g.node? x = some n) :
    g.branchPath? t x = if n.kind.isBranch then t.pathFrom? n.event else none := by
  rw [branchPath?, shape?_of_node? found, Option.bind_some, ← n.kind.isBranch_bare]
  rfl

/-- The members of a block, in the order of their events. -/
def membersOf (g : Graph) (x : NodeId) : List NodeId :=
  ((g.shape? x).map (·.members.values)).getD []

/-- The runs of the members of a block. -/
def memberRuns (g : Graph) (t : Trace) (x : NodeId) : List LoopRun :=
  groupRuns ((g.membersOf x).filterMap fun y => (g.branchPath? t y).map (·, y))

theorem membersOf_of_node? (found : g.node? x = some n) : g.membersOf x = n.members.values := by
  rw [membersOf, shape?_of_node? found]
  rfl

theorem mem_membersOf_iff_member? : x ∈ g.membersOf l ↔ ∃ e, g.member? l e = some x := by
  unfold membersOf member?
  cases g.shape? l with
  | none => simp
  | some s => exact mem_values

/-- The runs of the members, one after the other, are the members with a path. -/
theorem flatMap_memberRuns (g : Graph) (t : Trace) (x : NodeId) :
    (g.memberRuns t x).flatMap LoopRun.members =
      (g.membersOf x).filter fun y => (g.branchPath? t y).isSome := by
  rw [memberRuns, flatMap_groupRuns, List.map_filterMap, ← List.filterMap_eq_filter]
  refine List.filterMap_congr fun y _ => ?_
  cases path : g.branchPath? t y <;> simp [path, Option.guard]

theorem Alike.branchPath? (alike : g.Alike g') (x : NodeId) :
    g'.branchPath? t x = g.branchPath? t x := by
  rw [Graph.branchPath?, Graph.branchPath?, alike.shape?]

theorem Alike.memberRuns (alike : g.Alike g') (x : NodeId) :
    g'.memberRuns t x = g.memberRuns t x := by
  simp only [Graph.memberRuns, membersOf, alike.shape?, alike.branchPath?]

/-- Resolving the paths of some nodes finds the right ones. -/
theorem pathsOf_foldl_resolvePath (remembers : g.Remembers t) (ids : List NodeId) :
    (ids.foldl (·.resolvePath t ·) g).pathsOf ids =
      ids.filterMap fun x => (g.branchPath? t x).map (·, x) := by
  refine List.filterMap_congr fun x member => ?_
  show Option.map _ (((ids.foldl (·.resolvePath t ·) g).node? x).bind _) = _
  rw [node?_foldl_resolvePath, if_pos member]
  cases found : g.node? x with
  | none => rw [branchPath?, shape?, found]; rfl
  | some n =>
    rw [branchPath?_of_node? found, Option.map_some, Option.bind_some,
      Node.kind_resolvePath (remembers.right found)]
    split
    · rfl
    · next other =>
      cases kind : n.kind <;> simp_all [NodeKind.path?, NodeKind.isBranch]

theorem remembers_foldl_resolvePath (remembers : g.Remembers t) (ids : List NodeId) :
    (ids.foldl (·.resolvePath t ·) g).Remembers t := by
  intro x e path runs known
  rw [laps?, node?_foldl_resolvePath] at known
  split at known
  · rw [Option.map_map] at known
    obtain ⟨n, found, resolved⟩ := Option.map_eq_some_iff.1 known
    simp only [Function.comp, Node.laps, n.event_resolvePath,
      Node.kind_resolvePath (remembers.right found), Prod.mk.injEq] at resolved
    obtain ⟨rfl, memo, -⟩ := resolved
    split at memo
    · cases memo
      rfl
    · next other =>
      cases kind : n.kind <;> simp_all [NodeKind.memo?, NodeKind.isBranch]
  · exact remembers x e path runs known

theorem runsOf_foldl_resolvePath (t : Trace) (ids : List NodeId) (g : Graph) (x : NodeId) :
    (ids.foldl (·.resolvePath t ·) g).runsOf x = g.runsOf x := by
  rw [runsOf, laps?, node?_foldl_resolvePath]
  split
  · cases found : g.node? x with
    | none => rw [runsOf, laps?, found]; rfl
    | some n =>
      rw [runsOf_of_node? found]
      exact n.runs_resolvePath t.pathFrom?
  · rfl

/-- Regrouping the members of a loop block gives it their runs, and no other block changes. -/
theorem recomputeRuns_spec (found : g.node? id = some n) (loop : n.kind.isLoop = true)
    (remembers : g.Remembers t) (grouped : g.recomputeRuns t id = .ok g') :
    g.Alike g' ∧ g'.Remembers t ∧
      ∀ x, g'.runsOf x = if x = id then g'.memberRuns t x else g.runsOf x := by
  have alike := alike_of_recomputeRuns found loop grouped
  obtain rfl := recomputeRuns_eq found grouped
  have remembers' := remembers_foldl_resolvePath remembers n.members.values
  have runs := pathsOf_foldl_resolvePath remembers n.members.values
  have nodes : ∀ x, (g.regroup t id n.members.values).node? x = _ := fun x => node?_modify _ id _ x
  refine ⟨alike, ?_, fun x => ?_⟩
  · intro x e path runs known
    rw [laps?, nodes] at known
    split at known
    · obtain ⟨m, resolved, isLap⟩ := Option.map_eq_some_iff.1 known
      obtain ⟨m, -, rfl⟩ := Option.map_eq_some_iff.1 resolved
      cases isLap
    · exact remembers' x e path runs known
  · rw [alike.memberRuns, memberRuns, runsOf, laps?, nodes]
    split
    · next self =>
      subst self
      obtain ⟨m, found', -⟩ := (foldl_resolvePath_alike t n.members.values g).node? found
      rw [found', membersOf_of_node? found, ← runs]
      rfl
    · exact runsOf_foldl_resolvePath t n.members.values g x

/-- A node stands for a branch. -/
def IsBranch (g : Graph) (x : NodeId) : Prop := ∃ s, g.shape? x = some s ∧ s.kind.isBranch = true

theorem isBranch_of_node? (found : g.node? x = some n) : g.IsBranch x ↔ n.kind.isBranch = true := by
  rw [IsBranch, shape?_of_node? found, ← n.kind.isBranch_bare]
  constructor
  · rintro ⟨s, same, branch⟩
    cases same
    exact branch
  · exact fun branch => ⟨n.shape, rfl, branch⟩

/-- Putting a branch into a loop block regroups its members.  Nothing else changes any runs. -/
theorem attach_runs (found : g.node? id = some n) (found' : g.node? b = some m)
    (different : b ≠ id) (remembers : g.Remembers t) (attached : g.attach t id b = .ok g') :
    g'.Remembers t ∧
      ∀ x, g'.runsOf x = if x = b ∧ m.kind.isLoop = true ∧ n.kind.isBranch = true
        then g'.memberRuns t x else g.runsOf x := by
  obtain ⟨n', m', g₂, foundN, foundM, deepened, grouped⟩ := attach_cases attached
  obtain rfl := Option.some.inj (found.symm.trans foundN)
  obtain rfl := Option.some.inj (found'.symm.trans foundM)
  have linked := sameLaps_link g id b n.event
  have foundB : (g.link id b n.event).node? b =
      some { m with members := m.members.insert n.event id } := by
    rw [node?_link different, if_pos rfl, found', Option.map_some]
  -- regrouping comes last, when the depth of a block is set
  obtain ⟨same, m₂, foundB₂, isLoop⟩ : g.SameLaps g₂ ∧ ∃ m₂, g₂.node? b = some m₂ ∧
      m₂.kind.isLoop = m.kind.isLoop := by
    split at deepened
    · have found₁ : (g.link id b n.event).node? id = some { n with owner := some b } := by
        rw [node?_link different, if_neg different.symm, if_pos rfl, found, Option.map_some]
      obtain ⟨m₂, foundB₂, shape⟩ := (alike_of_setDepth deepened).node? foundB
      have isLoop := Node.isLoop_of_shape_eq shape
      exact ⟨linked.trans (sameLaps_of_setDepth deepened), m₂, foundB₂, isLoop⟩
    · cases deepened
      exact ⟨linked, _, foundB, rfl⟩
  split at grouped
  · next both =>
    rw [Bool.and_eq_true] at both
    obtain ⟨-, remembers', runs⟩ :=
      recomputeRuns_spec foundB₂ (isLoop.trans both.1) (same.remembers remembers) grouped
    refine ⟨remembers', fun x => ?_⟩
    rw [runs, same.runsOf]
    simp only [both, and_true]
  · next notBoth =>
    cases grouped
    rw [Bool.and_eq_true] at notBoth
    refine ⟨same.remembers remembers, fun x => ?_⟩
    rw [if_neg fun all => notBoth all.2, same.runsOf]

theorem SameOutline.isBranch (outline : g.SameOutline g') (x : NodeId) :
    g'.IsBranch x ↔ g.IsBranch x := by
  constructor
  · rintro ⟨s, found, branch⟩
    obtain ⟨s', found', kind, -⟩ := outline.symm.shape? found
    exact ⟨s', found', kind ▸ branch⟩
  · rintro ⟨s, found, branch⟩
    obtain ⟨s', found', kind, -⟩ := outline.shape? found
    exact ⟨s', found', kind ▸ branch⟩

theorem laps?_push (nodes : g'.nodes = g.nodes.push n) (x : NodeId) :
    g'.laps? x = if x = ⟨g.size⟩ then some n.laps else g.laps? x := by
  rw [laps?, node?_push nodes]
  split <;> rfl

/-- Appending a node that knows nothing about iterations changes no runs. -/
theorem push_runs (nodes : g'.nodes = g.nodes.push n) (bare : n.kind.runs = [])
    (unresolved : ∀ path, n.kind.memo? ≠ some (.resolved path)) (remembers : g.Remembers t) :
    g'.Remembers t ∧ ∀ x, g'.runsOf x = g.runsOf x := by
  constructor
  · intro x e path runs known
    rw [laps?_push nodes] at known
    split at known
    · simp only [Node.laps, Option.some.injEq, Prod.mk.injEq] at known
      exact absurd known.2.1 (unresolved path)
    · exact remembers x e path runs known
  · intro x
    rw [runsOf, laps?_push nodes]
    split
    · next isNew =>
      rw [isNew, runsOf, laps?, node?_size]
      exact bare
    · rfl

/-- Putting a loop block around an event: the new block groups the event if it is a branch, and no
other runs change. -/
theorem enclosing_runs {g₂ : Graph} (tidy : g.Tidy t c (some e)) (ordered : t.WellOrdered)
    (cached : g.Cached e) (iterates : t.loopOf? c e = some f) (unknown : g.loopBlocks[f]? = none)
    (known : g.nodeOf[f]? = some anchor) (owned : g.owner? anchor = some outer)
    (attached : (g.addLoop f).attach t ⟨g.size⟩ outer = .ok g₂)
    (rehomed : g₂.rehome t anchor ⟨g.size⟩ = .ok g') (remembers : g.Remembers t) :
    g'.Remembers t ∧ (∀ x, x ≠ ⟨g.size⟩ → g'.runsOf x = g.runsOf x) ∧
      (g.IsBranch anchor → g'.runsOf ⟨g.size⟩ = g'.memberRuns t ⟨g.size⟩) ∧
      (¬ g.IsBranch anchor → g'.runsOf ⟨g.size⟩ = []) := by
  obtain ⟨g₃, g₄, detached, joined, moved, moved₃, moved₄, enclosed, -, refreshed, alike⟩ :=
    enclosing_spec tidy ordered cached iterates unknown known owned attached rehomed
  obtain ⟨s, -, shape, -⟩ := tidy.shape?_of_event known
  have old := ne_size_of_shape? shape
  have appended := appended_addLoop g f
  obtain ⟨remembers₁, runs₁⟩ : (g.addLoop f).Remembers t ∧ _ :=
    push_runs (n := Node.structural f (.loop [])) rfl rfl nofun remembers
  -- the new block is no branch, so nothing is regrouped when it joins the outer block
  obtain ⟨remembers₂, runs₂⟩ : g₂.Remembers t ∧ ∀ x, g₂.runsOf x = (g.addLoop f).runsOf x := by
    obtain ⟨so, shapeO, -⟩ := tidy.owner_rank ordered shape owned
    obtain ⟨nO, foundO, -⟩ := exists_node?_of_shape? (appended.shape? shapeO)
    have foundN : (g.addLoop f).node? ⟨g.size⟩ = some (Node.structural f (.loop [])) :=
      (node?_push (n := Node.structural f (.loop [])) rfl ⟨g.size⟩).trans (if_pos rfl)
    obtain ⟨remembers₂, runs₂⟩ :=
      attach_runs foundN foundO (ne_size_of_shape? shapeO) remembers₁ attached
    refine ⟨remembers₂, fun x => ?_⟩
    rw [runs₂, if_neg]
    rintro ⟨-, -, branch⟩
    cases branch
  have same₃ := sameLaps_of_detach detached
  obtain ⟨s₃, shape₃, -⟩ := (moved.trans moved₃).outline.shape? (appended.shape? shape)
  obtain ⟨n₃, found₃, rfl⟩ := exists_node?_of_shape? shape₃
  obtain ⟨sN, shapeN, kindN, -⟩ := (moved.trans moved₃).outline.shape? appended.new
  obtain ⟨m₃, foundN, rfl⟩ := exists_node?_of_shape? shapeN
  obtain ⟨remembers₄, runs₄⟩ :=
    attach_runs found₃ foundN old.symm (same₃.remembers remembers₂) joined
  have same' := sameLaps_of_refreshDepths refreshed
  have isLoop : m₃.kind.isLoop = true := by
    rw [← m₃.kind.isLoop_bare]
    exact congrArg NodeKind.isLoop kindN
  have isBranch : n₃.kind.isBranch = true ↔ g.IsBranch anchor := by
    rw [← isBranch_of_node? found₃, (moved.trans moved₃).outline.isBranch, IsBranch, IsBranch,
      appended.old old]
  have runs : ∀ x, g₃.runsOf x = g.runsOf x := fun x => by rw [same₃.runsOf, runs₂, runs₁]
  refine ⟨same'.remembers remembers₄, fun x other => ?_, fun branch => ?_, fun notBranch => ?_⟩
  · rw [same'.runsOf, runs₄, if_neg fun all => other all.1, runs]
  · rw [same'.runsOf, runs₄, if_pos ⟨rfl, isLoop, isBranch.2 branch⟩, alike.memberRuns]
  · rw [same'.runsOf, runs₄, if_neg fun all => notBranch (isBranch.1 all.2.2), runs, runsOf, laps?,
      node?_size]
    rfl

end Graph

end Inquest
