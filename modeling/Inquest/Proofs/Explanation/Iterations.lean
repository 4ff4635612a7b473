import Mathlib.Data.List.Sort
import Inquest.Proofs.Explanation.Runs

/-!
# Which iterations a loop block shows

The runs of a loop block are brought up to date when a branch joins the block.  A branch that turns
out to start a loop of its own leaves the block again, for the block of that loop, and then nothing
is brought up to date: the branch stays in the runs until the next one joins.  So the runs show the
branches in the block and those that were *left behind*.

Who was left behind can be read off the graph.  The branch lies in the block of the loop that it
starts, which lies in the block that it left.  Nodes are numbered in the order in which they are
made, and while an event waits for its block no loop block is made but that of its own loop, so a
branch has joined the block after the other one left exactly if it is younger than the inner block.

## Main Definitions

* `Graph.LeftBehind`, `Graph.Counted` - the branches that the runs of a block show
* `Graph.Gathered`, `Graph.Grouped` - the invariant

## Main Statements

* `Graph.Grouped.adopted`, `Graph.Grouped.enclosed` - a joining branch and a new loop block keep the
  invariant
* `Answer.loop_runs_counted` - the runs in an answer, after any requests
-/

namespace Inquest

namespace Graph

variable {g g' : Graph} {t : Trace} {c : Config} {loose loose' : Option EventId}
variable {e f : EventId} {id b x y l i anchor outer : NodeId} {s : Shape} {path : LoopPathId}

/-! ### Outlines -/

/-- What a node stands for and where it is anchored. -/
def outline? (g : Graph) (x : NodeId) : Option (NodeKind × EventId) :=
  (g.shape? x).map fun s => (s.kind, s.anchor)

theorem place?_eq (g : Graph) (x : NodeId) :
    g.place? x = (g.outline? x).map fun o => o.1.place o.2 := by
  rw [outline?, Option.map_map]
  rfl

theorem isBranch_iff : g.IsBranch x ↔ ∃ o, g.outline? x = some o ∧ o.1.isBranch = true := by
  unfold IsBranch outline?
  cases g.shape? x <;> simp

theorem branchPath?_eq (g : Graph) (t : Trace) (x : NodeId) :
    g.branchPath? t x =
      (g.outline? x).bind fun o => if o.1.isBranch then t.pathFrom? o.2 else none := by
  unfold branchPath? outline?
  cases g.shape? x <;> rfl

theorem IsBranch.place?_eq (branch : g.IsBranch x) (found : g.shape? x = some s) :
    g.place? x = some (.event s.anchor) := by
  obtain ⟨s', found', branch⟩ := branch
  cases found.symm.trans found'
  rw [place?_of_shape? found, Shape.place]
  cases kind : s.kind <;> simp_all [NodeKind.place, NodeKind.isBranch]

theorem IsBranch.place? (branch : g.IsBranch x) : ∃ e, g.place? x = some (.event e) := by
  obtain ⟨s, found⟩ : ∃ s, g.shape? x = some s := branch.imp fun _ both => both.1
  exact ⟨s.anchor, branch.place?_eq found⟩

theorem isBranch_of_branchPath? (declared : (g.branchPath? t x).isSome = true) : g.IsBranch x := by
  obtain ⟨path, declared⟩ := Option.isSome_iff_exists.1 declared
  obtain ⟨s, found, declared⟩ := Option.bind_eq_some_iff.1 declared
  split at declared
  · next branch => exact ⟨s, found, branch⟩
  · cases declared

/-! ### Branches that left a block -/

/-- A branch belongs to a block. -/
def BranchIn (g : Graph) (l x : NodeId) : Prop := g.IsBranch x ∧ g.owner? x = some l

/-- A branch that starts a loop lies in the block of the loop, in a block that it has left. -/
def Moved (g : Graph) (l i x : NodeId) : Prop :=
  g.IsBranch x ∧ g.owner? x = some i ∧ g.owner? i = some l ∧
    ∃ e, g.place? x = some (.event e) ∧ g.place? i = some (.loop e)

/-- A branch has joined a block, and may have left it since. -/
def Joined (g : Graph) (l x : NodeId) : Prop := g.BranchIn l x ∨ ∃ i, g.Moved l i x

/-- A branch has left a block, and no branch has joined the block since: every one that ever joined
it is older than the loop block for which the branch left. -/
def LeftBehind (g : Graph) (l x : NodeId) : Prop :=
  ∃ i, g.Moved l i x ∧ ∀ y, g.Joined l y → y.index < i.index

/-- A branch is in a block, or was when the members of the block were grouped last. -/
def Counted (g : Graph) (l x : NodeId) : Prop := g.BranchIn l x ∨ g.LeftBehind l x

theorem Counted.isBranch (counted : g.Counted l x) : g.IsBranch x := by
  rcases counted with ⟨branch, -⟩ | ⟨i, ⟨branch, -⟩, -⟩
  · exact branch
  · exact branch

theorem Counted.owned (counted : g.Counted l x) : ∃ b, g.owner? x = some b := by
  rcases counted with ⟨-, owned⟩ | ⟨i, ⟨-, owned, -⟩, -⟩
  · exact ⟨l, owned⟩
  · exact ⟨i, owned⟩

/-- Which branches count depends on who joined and who left. -/
theorem counted_congr (branchIn : ∀ y, g'.BranchIn l y ↔ g.BranchIn l y)
    (moved : ∀ i y, g'.Moved l i y ↔ g.Moved l i y) (x : NodeId) :
    g'.Counted l x ↔ g.Counted l x := by
  simp only [Counted, LeftBehind, Joined, branchIn, moved]

/-! ### Blocks whose runs are in order -/

/-- The iterations in the runs of a block. -/
def iterations (g : Graph) (l : NodeId) : List NodeId := (g.runsOf l).flatMap LoopRun.members

/-- One node stands for an earlier event than another. -/
def Earlier (g : Graph) (x y : NodeId) : Prop :=
  ∃ e f, g.place? x = some (.event e) ∧ g.place? y = some (.event f) ∧ e < f

instance : Std.Irrefl g.Earlier where
  irrefl := by
    rintro x ⟨e, f, place, place', earlier⟩
    cases place.symm.trans place'
    exact Nat.lt_irrefl _ earlier

instance : Std.Antisymm g.Earlier where
  antisymm := by
    rintro x y ⟨e, f, place, place', earlier⟩ ⟨f', e', place₂', place₂, later⟩
    cases place.symm.trans place₂
    cases place'.symm.trans place₂'
    exact absurd earlier (Nat.lt_asymm later)

/-- The runs of a block are those of the branches that count, in the order of their events. -/
structure Gathered (t : Trace) (g : Graph) (l : NodeId) : Prop where
  mem : ∀ x, x ∈ g.iterations l ↔ g.Counted l x ∧ (g.branchPath? t x).isSome = true
  sorted : (g.iterations l).Pairwise g.Earlier
  runs : g.runsOf l =
    groupRuns ((g.iterations l).filterMap fun x => (g.branchPath? t x).map (·, x))

theorem Gathered.congr (gathered : g.Gathered t l) (runs : g'.runsOf l = g.runsOf l)
    (counted : ∀ x, g'.Counted l x ↔ g.Counted l x)
    (outline : ∀ {x b}, g.owner? x = some b → g'.outline? x = g.outline? x) :
    g'.Gathered t l := by
  have iterations : g'.iterations l = g.iterations l := by
    rw [Graph.iterations, Graph.iterations, runs]
  have outline : ∀ {x}, g.Counted l x → g'.outline? x = g.outline? x := by
    intro x counted
    obtain ⟨b, owned⟩ := counted.owned
    exact outline owned
  have paths : ∀ {x}, g.Counted l x → g'.branchPath? t x = g.branchPath? t x := by
    intro x counted
    rw [branchPath?_eq, branchPath?_eq, outline counted]
  refine ⟨fun x => ?_, ?_, ?_⟩
  · rw [iterations, gathered.mem, counted]
    exact and_congr_right fun counts => by rw [paths counts]
  · rw [iterations]
    refine gathered.sorted.imp_of_mem ?_
    rintro x y listed listed' ⟨e, f, place, place', earlier⟩
    have same := outline ((gathered.mem x).1 listed).1
    have same' := outline ((gathered.mem y).1 listed').1
    refine ⟨e, f, ?_, ?_, earlier⟩
    · rw [place?_eq, same, ← place?_eq, place]
    · rw [place?_eq, same', ← place?_eq, place']
  · refine runs.trans (gathered.runs.trans (congrArg groupRuns ?_))
    rw [iterations]
    refine List.filterMap_congr fun x listed => ?_
    rw [paths ((gathered.mem x).1 listed).1]

/-- The members of a block are the nodes of events that belong to it. -/
theorem Tidy.mem_membersOf (tidy : g.Tidy t c loose) :
    x ∈ g.membersOf l ↔ (∃ e : EventId, g.nodeOf[e]? = some x) ∧ g.owner? x = some l := by
  simp only [mem_membersOf_iff_member?, tidy.members, exists_and_right]

/-- A node with a path is a member of a block exactly if it is a branch in the block. -/
theorem Tidy.mem_membersOf_iff_branchIn (tidy : g.Tidy t c loose)
    (declared : (g.branchPath? t x).isSome = true) : x ∈ g.membersOf l ↔ g.BranchIn l x := by
  have branch := isBranch_of_branchPath? declared
  obtain ⟨e, place⟩ := branch.place?
  rw [tidy.mem_membersOf, BranchIn]
  exact ⟨fun listed => ⟨branch, listed.2⟩, fun within => ⟨⟨e, tidy.registered.2 place⟩, within.2⟩⟩

/-- The members of a block come in the order of their events. -/
theorem Tidy.pairwise_membersOf (tidy : g.Tidy t c loose) (l : NodeId) :
    (g.membersOf l).Pairwise g.Earlier := by
  cases found : g.shape? l with
  | none =>
    rw [membersOf, found]
    exact List.Pairwise.nil
  | some s =>
    have place : ∀ {e y}, (e, y) ∈ s.members.toList → g.place? y = some (.event e) := by
      intro e y listed
      have entry : g.member? l e = some y := by
        rw [member?, found]
        exact Std.TreeMap.mem_toList_iff_getElem?_eq_some.1 listed
      exact tidy.place?_of_event (tidy.members.1 entry).1
    rw [membersOf, found, Option.map_some, Option.getD_some, values_eq_map_toList,
      List.pairwise_map]
    refine Std.TreeMap.ordered_keys_toList.imp_of_mem ?_
    rintro ⟨e, y⟩ ⟨f, z⟩ listed listed' before
    have before : compare e.index f.index = .lt := before
    exact ⟨e, f, place listed, place listed', Nat.compare_eq_lt.1 before⟩

/-- The runs of a block are in order if they are those of its members, and nothing was left
behind. -/
theorem gathered_of_memberRuns (tidy : g.Tidy t c loose) (runs : g.runsOf l = g.memberRuns t l)
    (clean : ∀ x, ¬ g.LeftBehind l x) : g.Gathered t l := by
  have iterations : g.iterations l =
      (g.membersOf l).filter fun x => (g.branchPath? t x).isSome := by
    rw [Graph.iterations, runs, flatMap_memberRuns]
  refine ⟨fun x => ?_, ?_, ?_⟩
  · rw [iterations, List.mem_filter]
    refine and_congr_left fun declared => ?_
    rw [tidy.mem_membersOf_iff_branchIn declared]
    exact ⟨.inl, fun counted => counted.resolve_right (clean x)⟩
  · rw [iterations]
    exact (tidy.pairwise_membersOf l).filter _
  · rw [iterations, runs, memberRuns, List.filterMap_filter]
    refine congrArg groupRuns (List.filterMap_congr fun x _ => ?_)
    cases g.branchPath? t x <;> simp

/-! ### The invariant -/

/-- Branches know the right paths, and the runs of every loop block are in order. -/
structure Grouped (t : Trace) (c : Config) (loose : Option EventId) (g : Graph) : Prop where
  remembers : g.Remembers t
  gathered : ∀ {l f}, g.place? l = some (.loop f) → g.Gathered t l
  /-- The only loop block that can be made while an event is loose is that of its own loop. -/
  young : ∀ {e id i f}, loose = some e → g.nodeOf[e]? = some id → g.place? i = some (.loop f) →
    id.index < i.index → t.loopOf? c e = some f

theorem grouped_empty (t : Trace) (c : Config) : ({} : Graph).Grouped t c none := by
  refine ⟨fun x e path runs known => ?_, fun {l f} place => ?_, fun isLoose => ?_⟩
  · simp [laps?, node?] at known
  · simp [place?, shape?, node?] at place
  · cases isLoose

namespace Grouped

/-- A change of explanations does not matter. -/
theorem sameBodies (grouped : g.Grouped t c loose) (same : g.SameBodies g') :
    g'.Grouped t c loose := by
  have laps : g.SameLaps g' := same.map_node? Node.laps fun _ => rfl
  have outline : ∀ x, g'.outline? x = g.outline? x := fun x => by
    rw [outline?, outline?, same.shape?]
  have branch : ∀ x, g'.IsBranch x ↔ g.IsBranch x := fun x => by
    rw [IsBranch, IsBranch, same.shape?]
  refine ⟨laps.remembers grouped.remembers, fun {l f} place => ?_,
    fun {e id i f} isLoose known place => ?_⟩
  · rw [same.place?] at place
    refine (grouped.gathered place).congr (laps.runsOf l) (counted_congr ?_ ?_) fun _ => outline _
    · exact fun y => by simp only [BranchIn, branch, same.owner?]
    · exact fun i y => by simp only [Moved, branch, same.owner?, same.place?]
  · rw [same.nodeOf] at known
    rw [same.place?] at place
    exact grouped.young isLoose known place

/-- Appending a node that belongs nowhere, other than a loop block, changes no runs. -/
theorem appended (grouped : g.Grouped t c loose) (appended : g.Appended s g')
    (unowned : s.owner = none) (notLoop : ∀ first, s.place ≠ .loop first)
    (remembers : g'.Remembers t) (runs : ∀ x, g'.runsOf x = g.runsOf x)
    (young : ∀ {e id i f}, loose' = some e → g'.nodeOf[e]? = some id →
      g.place? i = some (.loop f) → id.index < i.index → t.loopOf? c e = some f) :
    g'.Grouped t c loose' := by
  have owner := appended.owner? unowned
  have shape : ∀ {x b}, g.owner? x = some b → g'.shape? x = g.shape? x := by
    intro x b owned
    exact appended.old (ne_size_of_owner? owned)
  have loop : ∀ {l f}, g'.place? l = some (.loop f) → g.place? l = some (.loop f) := by
    intro l f place
    obtain ⟨m, found, isLoop⟩ := exists_shape?_of_place? place
    rcases appended.shape?_cases found with ⟨-, rfl⟩ | old
    · exact absurd isLoop (notLoop f)
    · rw [place?_of_shape? old, isLoop]
  refine ⟨remembers, fun {l f} place => ?_,
    fun {e id i f} isLoose known place => young isLoose known (loop place)⟩
  refine (grouped.gathered (loop place)).congr (runs l) (counted_congr (fun y => ?_) fun i y => ?_)
    fun owned => by rw [outline?, outline?, shape owned]
  · simp only [BranchIn, owner]
    refine and_congr_left fun owned => ?_
    rw [IsBranch, IsBranch, shape owned]
  · simp only [Moved, owner]
    constructor
    · rintro ⟨branch, owned, within, e, place, place'⟩
      rw [IsBranch, shape owned] at branch
      rw [Graph.place?, shape owned] at place
      rw [Graph.place?, shape within] at place'
      exact ⟨branch, owned, within, e, place, place'⟩
    · rintro ⟨branch, owned, within, e, place, place'⟩
      rw [IsBranch, Graph.place?, shape owned, Graph.place?, shape within]
      exact ⟨branch, owned, within, e, place, place'⟩

theorem addEvent (grouped : g.Grouped t c none) (e : EventId) (kind : EventKind) :
    (g.addEvent t e kind).Grouped t c (some e) := by
  have fresh : ∀ (kind : EventKind) called, (NodeKind.ofEvent kind called).runs = [] ∧
      ∀ path, (NodeKind.ofEvent kind called).memo? ≠ some (.resolved path) := by
    intro kind called
    cases kind <;> exact ⟨rfl, nofun⟩
  obtain ⟨remembers, runs⟩ : (g.addEvent t e kind).Remembers t ∧ _ :=
    push_runs rfl (fresh kind _).1 (fresh kind _).2 grouped.remembers
  refine grouped.appended (appended_addEvent g t e kind) rfl (fun first place => ?_) remembers runs
    fun {e' id i f} isLoose known place younger => ?_
  · rw [Shape.place, NodeKind.place_ofEvent] at place
    cases place
  · -- the node of the event is the latest of all
    cases isLoose
    obtain rfl := Option.some.inj (known.symm.trans Std.TreeMap.getElem?_insert_self)
    obtain ⟨m, found, -⟩ := exists_shape?_of_place? place
    exact absurd (lt_size_of_shape? found) (Nat.not_lt.2 (Nat.le_of_lt younger))

theorem addThread (grouped : g.Grouped t c loose) (thread : ThreadId) (first : EventId) :
    (g.addThread thread first).Grouped t c loose := by
  obtain ⟨remembers, runs⟩ : (g.addThread thread first).Remembers t ∧ _ :=
    push_runs (n := Node.structural first (.thread thread 0 none)) rfl rfl nofun grouped.remembers
  exact grouped.appended (appended_addThread g thread first) rfl nofun remembers runs grouped.young

end Grouped

/-- The loose event is the only one to join a block, and nobody leaves one. -/
theorem adopting_branches (tidy : g.Tidy t c (some e)) (known : g.nodeOf[e]? = some id)
    (outline : g.SameOutline g')
    (owner : ∀ x, g'.owner? x = if x = id then some b else g.owner? x) :
    (∀ l y, g'.BranchIn l y ↔ g.BranchIn l y ∨ y = id ∧ l = b ∧ g.IsBranch id) ∧
      ∀ l i y, g'.Moved l i y ↔ g.Moved l i y := by
  have place := tidy.place?_of_event known
  have unowned : g.owner? id = none := by
    rw [tidy.owner place]
    exact if_pos rfl
  constructor
  · intro l y
    rw [BranchIn, BranchIn, outline.isBranch, owner]
    by_cases self : y = id
    · subst self
      rw [if_pos rfl, unowned, Option.some.injEq]
      exact ⟨fun both => .inr ⟨rfl, both.2.symm, both.1⟩, fun either =>
        either.elim (fun both => nomatch both.2) fun all => ⟨all.2.2, all.2.1.symm⟩⟩
    · rw [if_neg self]
      exact ⟨.inl, fun either => either.elim (fun both => both) fun all => absurd all.1 self⟩
  · intro l i y
    simp only [Moved, outline.isBranch, outline.place?, owner]
    have inner : ∀ {f}, g.place? i = some (.loop f) → i ≠ id := by
      rintro f isLoop rfl
      cases place.symm.trans isLoop
    constructor
    · rintro ⟨branch, owned, within, f, isEvent, isLoop⟩
      -- no loop starts with the loose event
      have other : y ≠ id := by
        rintro rfl
        cases place.symm.trans isEvent
        exact absurd rfl (tidy.keyed (tidy.registered.2 isLoop)).2.1
      rw [if_neg other] at owned
      rw [if_neg (inner isLoop)] at within
      exact ⟨branch, owned, within, f, isEvent, isLoop⟩
    · rintro ⟨branch, owned, within, f, isEvent, isLoop⟩
      have other : y ≠ id := by
        rintro rfl
        cases unowned.symm.trans owned
      rw [if_neg other, if_neg (inner isLoop)]
      exact ⟨branch, owned, within, f, isEvent, isLoop⟩

/-- When the loose event joins its block, the members of the block are grouped again if it is a
branch that joins a loop. -/
theorem Grouped.adopted (grouped : g.Grouped t c (some e)) (tidy : g.Tidy t c (some e))
    (ordered : t.WellOrdered) (known : g.nodeOf[e]? = some id) (target : g.target? t c e = some b)
    (attached : g.attach t id b = .ok g') : g'.Grouped t c none := by
  obtain ⟨n, m, r, node, isEvent, node', different, recorded, linked⟩ :=
    adopting_spec tidy ordered known target attached
  have tidy' := tidy.adopted ordered known target linked
  have found := shape?_of_node? node
  have found' := shape?_of_node? node'
  have outline := linked.outline found found' different
  obtain ⟨remembers, runs⟩ := attach_runs node node' different grouped.remembers attached
  obtain ⟨branchIn, moved⟩ :=
    adopting_branches tidy known outline (linked.owner? found found' different)
  refine ⟨remembers, fun {l f} isLoop => ?_, fun isLoose => nomatch isLoose⟩
  rw [outline.place?] at isLoop
  by_cases regrouped : l = b ∧ g.IsBranch id
  · obtain ⟨rfl, branch⟩ := regrouped
    have place : m.place = .loop f :=
      m.place_shape ▸ Option.some.inj ((place?_of_shape? found').symm.trans isLoop)
    refine gathered_of_memberRuns tidy' ?_ fun x => ?_
    · rw [runs, if_pos ⟨rfl, Node.isLoop_of_place place, (isBranch_of_node? node).1 branch⟩]
    -- every loop block within this one is older than the event
    rintro ⟨i, left, latest⟩
    have younger := latest id (.inl ((branchIn l id).2 (.inr ⟨rfl, rfl, branch⟩)))
    obtain ⟨-, -, within, first, -, isInner⟩ := (moved l i x).1 left
    have iterates := grouped.young rfl known isInner younger
    rw [target?_of_loopOf? recorded iterates] at target
    obtain rfl : i = l :=
      Option.some.inj ((tidy.registered (p := .loop first).2 isInner).symm.trans target)
    exact tidy.owner?_ne_self ordered within rfl
  · refine (grouped.gathered isLoop).congr ?_ (counted_congr (fun y => ?_) (moved l))
      fun _ => outline _
    · rw [runs, if_neg]
      rintro ⟨isBlock, -, branch⟩
      exact regrouped ⟨isBlock, (isBranch_of_node? node).2 branch⟩
    · rw [branchIn, or_iff_left fun all => regrouped all.2]

namespace Enclosed

variable (enclosed : g.Enclosed f anchor outer g')

include enclosed

theorem outline?_old (old : x ≠ ⟨g.size⟩) : g'.outline? x = g.outline? x := by
  obtain ⟨g₁, appended, rearranged⟩ := enclosed.appended
  refine (rearranged.outline x).trans ?_
  rw [appended.old old]
  rfl

/-- The new block is no branch. -/
theorem isBranch (x : NodeId) : g'.IsBranch x ↔ g.IsBranch x := by
  by_cases isNew : x = ⟨g.size⟩
  · subst isNew
    constructor
    · intro branch
      obtain ⟨e, place⟩ := branch.place?
      cases enclosed.place?_new.symm.trans place
    · rintro ⟨s, found, -⟩
      exact absurd rfl (ne_size_of_shape? found)
  · rw [isBranch_iff, isBranch_iff, enclosed.outline?_old isNew]

variable (tidy : g.Tidy t c loose) (ordered : t.WellOrdered)
variable (owned : g.owner? anchor = some outer)

include tidy ordered owned

theorem owner?_eq_new (inside : g'.owner? x = some ⟨g.size⟩) : x = anchor := by
  rw [enclosed.owner?] at inside
  split at inside
  · assumption
  · split at inside
    · exact absurd (Option.some.inj inside) (tidy.owner?_ne_size ordered owned)
    · exact absurd rfl (tidy.owner?_ne_size ordered inside)

variable (unknown : g.loopBlocks[f]? = none) (known : g.nodeOf[f]? = some anchor)

include unknown known

/-- The event that starts the loop is the only one to leave a block, for the new one. -/
theorem branches (old : l ≠ ⟨g.size⟩) :
    (∀ y, g'.BranchIn l y ↔ g.BranchIn l y ∧ y ≠ anchor) ∧
      ∀ i y, g'.Moved l i y ↔
        g.Moved l i y ∨ i = ⟨g.size⟩ ∧ y = anchor ∧ l = outer ∧ g.IsBranch anchor := by
  have place := tidy.place?_of_event known
  have isOld : ∀ {y}, g.IsBranch y → y ≠ ⟨g.size⟩ := by
    rintro y ⟨s, found, -⟩
    exact ne_size_of_shape? found
  have anchorOld := ne_size_of_owner? owned
  have notAnchor : ∀ {i e}, g.place? i = some (.loop e) → i ≠ anchor := by
    rintro i e isLoop rfl
    cases place.symm.trans isLoop
  constructor
  · intro y
    rw [BranchIn, BranchIn, enclosed.isBranch, enclosed.owner?, and_assoc]
    refine and_congr_right fun branch => ?_
    split
    · next isAnchor =>
      exact ⟨fun moved => absurd (Option.some.inj moved).symm old,
        fun both => absurd isAnchor both.2⟩
    · next other =>
      rw [if_neg (isOld branch)]
      exact ⟨fun owned => ⟨owned, other⟩, fun both => both.1⟩
  · intro i y
    rw [Moved, Moved, enclosed.isBranch, enclosed.owner?, enclosed.owner?]
    constructor
    · rintro ⟨branch, owned', within, e, isEvent, isLoop⟩
      rw [enclosed.place?_old (isOld branch)] at isEvent
      by_cases isAnchor : y = anchor
      · subst isAnchor
        rw [if_pos rfl, Option.some.injEq] at owned'
        subst owned'
        rw [if_neg anchorOld.symm, if_pos rfl, Option.some.injEq] at within
        exact .inr ⟨rfl, rfl, within.symm, branch⟩
      · rw [if_neg isAnchor, if_neg (isOld branch)] at owned'
        have inner := tidy.owner?_ne_size ordered owned'
        rw [enclosed.place?_old inner] at isLoop
        rw [if_neg (notAnchor isLoop), if_neg inner] at within
        exact .inl ⟨branch, owned', within, e, isEvent, isLoop⟩
    · rintro (⟨branch, owned', within, e, isEvent, isLoop⟩ | ⟨rfl, rfl, rfl, branch⟩)
      · have inner := tidy.owner?_ne_size ordered owned'
        have other : y ≠ anchor := by
          rintro rfl
          cases place.symm.trans isEvent
          cases unknown.symm.trans (tidy.registered (p := .loop f).2 isLoop)
        rw [if_neg other, if_neg (isOld branch), if_neg (notAnchor isLoop), if_neg inner,
          enclosed.place?_old (isOld branch), enclosed.place?_old inner]
        exact ⟨branch, owned', within, e, isEvent, isLoop⟩
      · rw [if_pos rfl, if_neg anchorOld.symm, if_pos rfl, enclosed.place?_old anchorOld,
          enclosed.place?_new]
        exact ⟨branch, rfl, rfl, f, place, rfl⟩

/-- The branches that count in a block are those that counted before: one that leaves the block is
left behind. -/
theorem counted (old : l ≠ ⟨g.size⟩) (x : NodeId) : g'.Counted l x ↔ g.Counted l x := by
  obtain ⟨branchIn, moved⟩ := enclosed.branches tidy ordered owned unknown known old
  have joined : ∀ y, g'.Joined l y ↔ g.Joined l y := by
    intro y
    simp only [Joined, branchIn, moved]
    constructor
    · rintro (⟨within, -⟩ | ⟨i, left | ⟨rfl, rfl, rfl, branch⟩⟩)
      · exact .inl within
      · exact .inr ⟨i, left⟩
      · exact .inl ⟨branch, owned⟩
    · rintro (within | ⟨i, left⟩)
      · by_cases isAnchor : y = anchor
        · subst isAnchor
          obtain rfl : outer = l := Option.some.inj (owned.symm.trans within.2)
          exact .inr ⟨⟨g.size⟩, .inr ⟨rfl, rfl, rfl, within.1⟩⟩
        · exact .inl ⟨within, isAnchor⟩
      · exact .inr ⟨i, .inl left⟩
  -- every branch is older than the new block
  have older : ∀ {y}, g.Joined l y → y.index < (⟨g.size⟩ : NodeId).index := by
    rintro y (⟨⟨s, found, -⟩, -⟩ | ⟨i, ⟨s, found, -⟩, -⟩)
    · exact lt_size_of_shape? found
    · exact lt_size_of_shape? found
  simp only [Counted, LeftBehind, joined, branchIn, moved]
  constructor
  · rintro (⟨within, -⟩ | ⟨i, left | ⟨rfl, rfl, rfl, branch⟩, latest⟩)
    · exact .inl within
    · exact .inr ⟨i, left, latest⟩
    · exact .inl ⟨branch, owned⟩
  · rintro (within | ⟨i, left, latest⟩)
    · by_cases isAnchor : x = anchor
      · subst isAnchor
        obtain rfl : outer = l := Option.some.inj (owned.symm.trans within.2)
        exact .inr ⟨⟨g.size⟩, .inr ⟨rfl, rfl, rfl, within.1⟩, fun y => older⟩
      · exact .inl ⟨within, isAnchor⟩
    · exact .inr ⟨i, .inl left, latest⟩

end Enclosed

/-- A loop block is put around the event that starts the loop.  The new block has the runs of its
one member, and those of the outer block stay. -/
theorem Grouped.enclosed {g₂ : Graph} (grouped : g.Grouped t c (some e))
    (tidy : g.Tidy t c (some e)) (ordered : t.WellOrdered) (cached : g.Cached e)
    (iterates : t.loopOf? c e = some f) (unknown : g.loopBlocks[f]? = none)
    (known : g.nodeOf[f]? = some anchor) (owned : g.owner? anchor = some outer)
    (attached : (g.addLoop f).attach t ⟨g.size⟩ outer = .ok g₂)
    (rehomed : g₂.rehome t anchor ⟨g.size⟩ = .ok g') : g'.Grouped t c (some e) := by
  obtain ⟨-, g₄, -, -, -, -, -, enclosed₄, tidy₄, -, alike⟩ :=
    enclosing_spec tidy ordered cached iterates unknown known owned attached rehomed
  have enclosed := enclosed₄.alike alike
  have tidy' := tidy₄.alike alike
  obtain ⟨remembers, runs, ofBranch, ofOther⟩ := enclosing_runs tidy ordered cached iterates unknown
    known owned attached rehomed grouped.remembers
  refine ⟨remembers, fun {l first} isLoop => ?_, fun {e' id i first} isLoose known' isLoop => ?_⟩
  · by_cases isNew : l = ⟨g.size⟩
    · subst isNew
      have only : ∀ {x}, g'.owner? x = some ⟨g.size⟩ → x = anchor :=
        enclosed.owner?_eq_new tidy ordered owned
      have place : g'.place? anchor = some (.event f) :=
        (enclosed.grows unknown).place? (tidy.place?_of_event known)
      have clean : ∀ x, ¬ g'.LeftBehind ⟨g.size⟩ x := by
        rintro x ⟨i, ⟨-, -, within, first', -, isInner⟩, -⟩
        rw [only within, place] at isInner
        cases isInner
      by_cases branch : g.IsBranch anchor
      · exact gathered_of_memberRuns tidy' (ofBranch branch) clean
      · have empty : g'.iterations ⟨g.size⟩ = [] := by
          rw [iterations, ofOther branch]
          rfl
        refine ⟨fun x => ?_, empty ▸ List.Pairwise.nil, ?_⟩
        · rw [empty]
          refine ⟨nofun, ?_⟩
          rintro ⟨⟨branch', within⟩ | left, -⟩
          · exact absurd ((enclosed.isBranch x).1 branch') (only within ▸ branch)
          · exact absurd left (clean x)
        · rw [empty, ofOther branch]
          rfl
    · rw [enclosed.place?_old isNew] at isLoop
      refine (grouped.gathered isLoop).congr (runs l isNew)
        (enclosed.counted tidy ordered owned unknown known isNew) fun owned' => ?_
      exact enclosed.outline?_old (ne_size_of_owner? owned')
  · rw [enclosed.nodeOf] at known'
    cases isLoose
    rcases enclosed.place?_cases isLoop with ⟨-, isNew⟩ | ⟨-, isLoop⟩
    · cases isNew
      exact fun _ => iterates
    · exact grouped.young rfl known' isLoop

/-- Changes one after the other keep the runs in order. -/
theorem Leads.grouped {Q : Graph → Graph → Prop} (leads : Leads t c Q loose g loose' g')
    (ordered : t.WellOrdered) (tidy : g.Tidy t c loose) (grouped : g.Grouped t c loose) :
    g'.Grouped t c loose' :=
  leads.preserves (P := fun loose g => g.Grouped t c loose) (fun grouped => grouped.sameBodies)
    (fun _ grouped _ _ => grouped.addEvent _ _) (fun _ grouped _ _ => grouped.addThread _ _)
    (fun tidy grouped => grouped.enclosed tidy ordered)
    (fun tidy grouped => grouped.adopted tidy ordered) tidy grouped

/-- The runs of a block show its members exactly if nothing with a path was left behind. -/
theorem Gathered.iterations_eq_iff (gathered : g.Gathered t l) (tidy : g.Tidy t c loose)
    (ordered : t.WellOrdered) :
    g.iterations l = (g.membersOf l).filter (fun x => (g.branchPath? t x).isSome) ↔
      ∀ x, g.LeftBehind l x → g.branchPath? t x = none := by
  constructor
  · intro same x left
    refine Option.not_isSome_iff_eq_none.1 fun declared => ?_
    have listed := (gathered.mem x).2 ⟨.inr left, declared⟩
    rw [same, List.mem_filter] at listed
    obtain ⟨-, owned⟩ := (tidy.mem_membersOf_iff_branchIn declared).1 listed.1
    obtain ⟨i, ⟨-, owned', within, -⟩, -⟩ := left
    obtain rfl := Option.some.inj (owned.symm.trans owned')
    exact tidy.owner?_ne_self ordered within rfl
  · intro clean
    refine gathered.sorted.eq_of_mem_iff ((tidy.pairwise_membersOf l).filter _) fun x => ?_
    rw [gathered.mem, List.mem_filter]
    refine and_congr_left fun declared => ?_
    rw [tidy.mem_membersOf_iff_branchIn declared]
    refine ⟨fun counted => counted.resolve_right fun left => ?_, .inl⟩
    rw [clean x left] at declared
    cases declared

end Graph

/-! ### Answers -/

namespace Answer

/-- Whatever is asked of a fresh answer, the runs of a loop block, one after the other, are the
branches with a path that are in the block or were left behind, in the order of their events.  The
members of a run share its path, and the paths of runs next to each other differ.  The runs show
the members of the block exactly if no branch with a path was left behind. -/
theorem loop_runs_counted (t : Trace) (c : Config) (ordered : t.WellOrdered)
    (counter : AnswerCounter) (calls : List Call)
    (inside : ∀ call ∈ calls, call.event.index < t.size) :
    ∃ a, (new t c counter).1.run calls = .ok a ∧
      ∀ l n runs, a.graph.node l = .ok n → n.kind = .loop runs →
        (∀ x, x ∈ runs.flatMap LoopRun.members ↔
          a.graph.Counted l x ∧ (a.graph.branchPath? t x).isSome = true) ∧
        (runs.flatMap LoopRun.members).Pairwise a.graph.Earlier ∧
        (∀ run ∈ runs, run.members ≠ [] ∧
          ∀ x ∈ run.members, a.graph.branchPath? t x = some run.path) ∧
        (runs.IsChain fun run next => run.path ≠ next.path) ∧
        (runs.flatMap LoopRun.members =
            n.members.values.filter (fun x => (a.graph.branchPath? t x).isSome) ↔
          ∀ x, a.graph.LeftBehind l x → a.graph.branchPath? t x = none) := by
  obtain ⟨a, succeeds, reached⟩ := (orderly_new t c counter).run ordered inside
  have grouped := (leads_of_run ordered inside succeeds).grouped ordered (Graph.tidy_empty t c)
    (Graph.grouped_empty t c)
  refine ⟨a, succeeds, fun l n runs found kind => ?_⟩
  have node := Graph.node_eq_ok_iff.1 found
  have place : a.graph.place? l = some (.loop n.event) := by
    rw [Graph.place?_of_node? node, Node.place, kind]
    rfl
  have gathered := grouped.gathered place
  have kept : a.graph.runsOf l = runs := by
    rw [Graph.runsOf_of_node? node, kind]
    rfl
  have iterations : a.graph.iterations l = runs.flatMap LoopRun.members := by
    rw [Graph.iterations, kept]
  have isGrouped := gathered.runs
  rw [kept] at isGrouped
  rw [← iterations]
  refine ⟨gathered.mem, gathered.sorted, fun run listed => ?_, ?_, ?_⟩
  · rw [isGrouped] at listed
    obtain ⟨nonempty, shared⟩ := groupRuns_spec listed
    refine ⟨nonempty, fun x member => ?_⟩
    obtain ⟨y, -, path⟩ := List.mem_filterMap.1 (shared x member)
    obtain ⟨path, declared, same⟩ := Option.map_eq_some_iff.1 path
    cases same
    exact declared
  · rw [isGrouped]
    exact isChain_groupRuns _
  · rw [← Graph.membersOf_of_node? node]
    exact gathered.iterations_eq_iff reached.tidy ordered

/-- A loop whose branch is decided twice, within a loop whose branch stands behind it. -/
def decidedInFront : Trace where
  program :=
    { classes := #[{ id := ⟨0⟩, name := "Table", superclass := none }]
      methods := #[
        { id := ⟨0⟩, declaringClass := ⟨0⟩, name := "run", isStatic := true,
          instructions := #[⟨0⟩, ⟨1⟩] }]
      instructions := #[
        { id := ⟨0⟩, method := ⟨0⟩, position := 0, kind := .branch,
          loopPaths := [{ id := ⟨0⟩, branches := [⟨0⟩] }] },
        { id := ⟨1⟩, method := ⟨0⟩, position := 1, kind := .branch }] }
  events := #[
    { kind := .branch, instruction := ⟨1⟩ },
    { kind := .branch, instruction := ⟨0⟩, control := some ⟨0⟩ },
    { kind := .branch, instruction := ⟨0⟩, control := some ⟨1⟩ }]
  ends := ∅

/-- The block of the inner loop has both decisions in one run, and these are the branches that
count in it. -/
theorem loop_runs_counted_decidedInFront :
    decidedInFront.WellOrdered ∧
      ∃ a, (new decidedInFront {} {}).1.run [.explain ⟨1⟩, .explain ⟨2⟩] = .ok a ∧
        ∃ l n, a.graph.node l = .ok n ∧ n.kind = .loop [{ path := ⟨0⟩, members := [⟨2⟩, ⟨4⟩] }] ∧
          ∀ x, x ∈ [⟨2⟩, ⟨4⟩] ↔
            a.graph.Counted l x ∧ (a.graph.branchPath? decidedInFront x).isSome = true := by
  have ordered : decidedInFront.WellOrdered := by decide +kernel
  have inside : ∀ call ∈ [Call.explain ⟨1⟩, Call.explain ⟨2⟩],
      call.event.index < decidedInFront.size := by decide +kernel
  have seen : ((new decidedInFront {} {}).1.run [.explain ⟨1⟩, .explain ⟨2⟩]).toOption.map (fun a =>
      (a.graph.node? ⟨5⟩).map (·.kind)) =
      some (some (.loop [{ path := ⟨0⟩, members := [⟨2⟩, ⟨4⟩] }])) := by decide +kernel
  obtain ⟨a, succeeds, seen⟩ := exists_ok_of_view seen
  obtain ⟨n, found, kind⟩ := Option.map_eq_some_iff.1 seen
  have found := Graph.node_eq_ok_iff.2 found
  obtain ⟨a', succeeds', blocks⟩ := loop_runs_counted decidedInFront {} ordered {} _ inside
  cases succeeds.symm.trans succeeds'
  exact ⟨ordered, a, succeeds, ⟨5⟩, n, found, kind, (blocks ⟨5⟩ n _ found kind).1⟩

/-- The first decision of the inner loop is still in the runs of the block around it, although it
belongs to the block of the inner loop. -/
theorem stale_run_decidedInFront :
    decidedInFront.WellOrdered ∧
      ∃ a, (new decidedInFront {} {}).1.run [.explain ⟨1⟩, .explain ⟨2⟩] = .ok a ∧
        ∃ l n x, a.graph.node l = .ok n ∧ n.kind = .loop [{ path := ⟨0⟩, members := [x] }] ∧
          x ∉ n.members.values ∧ a.graph.owner? x ≠ some l := by
  have ordered : decidedInFront.WellOrdered := by decide +kernel
  have seen : ((new decidedInFront {} {}).1.run [.explain ⟨1⟩, .explain ⟨2⟩]).toOption.map (fun a =>
      ((a.graph.node? ⟨3⟩).map fun n => (n.kind, n.members.values), a.graph.owner? ⟨2⟩)) =
      some (some (.loop [{ path := ⟨0⟩, members := [⟨2⟩] }], [⟨0⟩]), some ⟨5⟩) := by decide +kernel
  obtain ⟨a, succeeds, seen⟩ := exists_ok_of_view seen
  simp only [Prod.mk.injEq, Option.map_eq_some_iff] at seen
  obtain ⟨⟨n, found, kind, members⟩, owned⟩ := seen
  refine ⟨ordered, a, succeeds, ⟨3⟩, n, ⟨2⟩, Graph.node_eq_ok_iff.2 found, kind, ?_, ?_⟩
  · rw [members]
    decide
  · rw [owned]
    decide

end Answer

end Inquest
