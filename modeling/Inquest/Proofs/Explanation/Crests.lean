import Mathlib.Order.Bounds.Basic
import Inquest.Proofs.Explanation.Construction
import Inquest.Proofs.Explanation.Nesting

/-!
# The deepest block of a thread

The block of a thread is told of every depth that is set on the thread, and keeps the greatest one.
It is never told that a depth got less, so what it keeps is right only because no depth gets less:
a new loop block pushes what lies in it down, and nothing else that happens to a block changes its
depth.  A node that is no block has no depth at all, and every block but that of the thread lies
below another one, so the thread knows a deepest block as soon as there is another block on it.

## Main Definitions

* `Node.Grounded` - only blocks lie at a depth, and a deepest block does
* `Graph.Deepens` - no node got less deep
* `Graph.BlockOn` - a block whose event is on a thread

## Main Statements

* `Graph.Edits.grounded` - every node is grounded, whatever edits it is made up of
* `Graph.Measured.depth_le_enclosed` - a new loop block lifts no block
* `Graph.Leads.deepens` - changes one after the other lift no node
* `Graph.Measured.depth_pos` - only the block of a thread lies at the top
* `Answer.crest_isGreatest` - depths and crests in an answer, after any requests
-/

namespace Inquest

variable {t : Trace} {c : Config}

/-- The innermost block is not late. -/
theorem countLate_lt_length {blocks : List NodeId} (some : blocks ≠ []) :
    countLate blocks < blocks.length := by
  induction blocks with
  | nil => exact absurd rfl some
  | cons outer inner ih =>
    rw [countLate, List.length_cons]
    cases inner with
    | nil => simp [countLate]
    | cons next rest =>
      have below := ih (List.cons_ne_nil next rest)
      split <;> omega

/-! ### Grounded nodes -/

namespace Node

variable {n m : Node}

/-- A node that is no block lies nowhere, and a thread that knows a deepest block knows a depth. -/
structure Grounded (n : Node) : Prop where
  flat : n.isBlock = false → n.depth = 0
  crest : ∀ {greatest x}, n.kind.crest? = some (greatest, some x) → 0 < greatest

theorem Grounded.touched (touched : Touched t n m) (grounded : n.Grounded) : m.Grounded := by
  have isBlock : m.isBlock = n.isBlock := by
    rw [← m.isBlock_shape, touched.shape, n.isBlock_shape]
  cases touched with
  | explain same =>
    have depth : m.body.depth = n.body.depth := congrArg Node.depth same
    have kind : m.body.kind = n.body.kind := congrArg Node.kind same
    exact ⟨fun plain => depth.trans (grounded.flat (isBlock.symm.trans plain)),
      fun crest => grounded.crest ((congrArg NodeKind.crest? kind).symm.trans crest)⟩
  | deepen block depth =>
    refine ⟨fun plain => ?_, grounded.crest⟩
    cases block.symm.trans (isBlock.symm.trans plain)
  | note block depth =>
    refine ⟨fun plain => ?_, fun {greatest x} crest => ?_⟩
    · rw [n.depth_noteDepth]
      exact grounded.flat (isBlock.symm.trans plain)
    · rw [n.crest?_noteDepth] at crest
      obtain ⟨⟨before, deepest⟩, known, raised⟩ := Option.map_eq_some_iff.1 crest
      simp only [raise] at raised
      split at raised
      · cases raised
        omega
      · cases raised
        exact grounded.crest known
  | resolve =>
    refine ⟨fun plain => ?_, fun crest => ?_⟩
    · rw [n.depth_resolvePath]
      exact grounded.flat (isBlock.symm.trans plain)
    · rw [n.crest?_resolvePath] at crest
      exact grounded.crest crest
  | regroup loop runs =>
    refine ⟨fun plain => ?_, fun crest => ?_⟩
    · cases plain
    · cases crest

theorem Fresh.grounded (fresh : n.Fresh t) : n.Grounded := by
  cases fresh with
  | @event e r recorded called =>
    refine ⟨fun _ => rfl, fun crest => ?_⟩
    cases kind : r.kind <;> simp [kind, NodeKind.ofEvent, NodeKind.crest?] at crest
  | loop _ | thread _ _ =>
    refine ⟨fun plain => ?_, fun crest => ?_⟩
    · cases plain
    · cases crest

end Node

namespace Graph

variable {g g' : Graph} {Q : Graph → Graph → Prop} {loose : Option EventId}
variable {e f : EventId} {id b x root anchor outer : NodeId} {n : Node} {p : Place}
variable {thread : ThreadId} {steps : Nat}

/-! ### Changes as edits -/

theorem SameBodies.retouched (same : g.SameBodies g') : g.Retouched t g' := by
  intro x
  have bodies := same.body? x
  revert bodies
  cases g.node? x <;> cases g'.node? x <;> intro bodies <;>
    simp only [Option.map_none, Option.map_some, reduceCtorEq, Option.some.injEq] at bodies
  · exact .none
  · exact .some (.single (.explain bodies))

/-- Putting a loop block around an event is made up of edits. -/
theorem Edits.enclosed {g₂ : Graph} (edits : Edits t {} g)
    (attached : (g.addLoop f).attach t ⟨g.size⟩ outer = .ok g₂)
    (rehomed : g₂.rehome t anchor ⟨g.size⟩ = .ok g') : Edits t {} g' := by
  have added : Edits t {} (g.addLoop f) := edits.tail (.append (.loop f) rfl)
  have filed := added.filed filed_empty
  have loose : (g.addLoop f).Loose ⟨g.size⟩ := loose_of_push (t := t) (.loop f) rfl
  obtain ⟨edits₂, -⟩ := attach_edits (filed.free loose) attached
  obtain ⟨edits', -⟩ := rehome_edits (edits₂.filed filed) rehomed
  exact added.trans (edits₂.trans edits')

/-- The loose event joins its block by edits. -/
theorem Edits.adopted (edits : Edits t {} g) (tidy : g.Tidy t c (some e))
    (known : g.nodeOf[e]? = some id) (attached : g.attach t id b = .ok g') : Edits t {} g' := by
  obtain ⟨s, r, found, -⟩ := tidy.shape?_of_event known
  have owner := tidy.owner (tidy.place?_of_event known)
  rw [owner?_of_shape? found, ownerFor, if_pos rfl] at owner
  obtain ⟨edits', -⟩ := attach_edits ((edits.filed filed_empty).free ⟨s, found, owner⟩) attached
  exact edits.trans edits'

theorem Edits.grounded (edits : Edits t {} g) (found : g.node? x = some n) : n.Grounded :=
  edits.forall_node Node.Grounded.touched Node.Fresh.grounded
    (fun _ _ _ grounded => ⟨grounded.flat, grounded.crest⟩)
    (fun _ _ found => by cases found) x n found

theorem Edits.depthOf_eq_zero (edits : Edits t {} g) (plain : g.isBlock x = false) :
    g.depthOf x = 0 := by
  cases found : g.node? x with
  | none =>
    rw [depthOf, found]
    rfl
  | some n =>
    rw [depthOf_of_node? found]
    exact (edits.grounded found).flat ((isBlock_of_node? found).symm.trans plain)

/-! ### No depth gets less -/

/-- No node got less deep on the way from `g` to `g'`. -/
def Deepens (g g' : Graph) : Prop := ∀ x, g.depthOf x ≤ g'.depthOf x

/-- A new loop block lifts no block.  The induction is on the rank of the block: what lies in the
new block lies one level below its owner as before, and its owner was not lifted. -/
theorem Measured.depth_le_enclosed {g₂ : Graph} (measured : g.Measured t (some e))
    (tidy : g.Tidy t c (some e)) (ordered : t.WellOrdered) (cached : g.Cached e)
    (iterates : t.loopOf? c e = some f) (unknown : g.loopBlocks[f]? = none)
    (known : g.nodeOf[f]? = some anchor) (owned : g.owner? anchor = some outer)
    (attached : (g.addLoop f).attach t ⟨g.size⟩ outer = .ok g₂)
    (rehomed : g₂.rehome t anchor ⟨g.size⟩ = .ok g') (isBlock : g.isBlock x = true) :
    g.depthOf x ≤ g'.depthOf x := by
  obtain ⟨enclosed, -, depthNew, still, event⟩ := measured.enclosed_depths tidy ordered cached
    iterates unknown known owned attached rehomed
  induction ranked : g.rank x using Nat.strongRecOn generalizing x with
  | ind rank ih =>
    subst ranked
    obtain ⟨s, found, -⟩ := isBlock_iff.1 isBlock
    have old := ne_size_of_shape? found
    by_cases nested : ∃ e b, g.place? x = some (.event e) ∧ g.owner? x = some b
    · obtain ⟨e', b, place, owner⟩ := nested
      have depth' := fun {b'} (owner' : g'.owner? x = some b') =>
        event ((enclosed.place?_old old).trans place) ((enclosed.isBlock_old old).trans isBlock)
          owner'
      rw [measured.event place isBlock owner]
      by_cases isAnchor : x = anchor
      · subst isAnchor
        obtain rfl := Option.some.inj (owned.symm.trans owner)
        rw [depth' (by rw [enclosed.owner?, if_pos rfl]), depthNew]
        omega
      · obtain ⟨m, foundB, isBlockB, -⟩ := tidy.owner_rank ordered found owner
        have above := ih (g.rank b) (tidy.rank_lt ordered owner)
          (isBlock_iff.2 ⟨m, foundB, isBlockB⟩) rfl
        rw [depth' (by rw [enclosed.owner?, if_neg isAnchor, if_neg old, owner])]
        omega
    · refine Nat.le_of_eq (still x old fun e' place => ?_).symm
      exact Option.eq_none_iff_forall_ne_some.2 fun b owner => nested ⟨e', b, place, owner⟩

/-- The loose event lies nowhere before it joins its block, and no other depth changes then. -/
theorem Measured.deepens_adopted (measured : g.Measured t (some e)) (tidy : g.Tidy t c (some e))
    (ordered : t.WellOrdered) (known : g.nodeOf[e]? = some id) (target : g.target? t c e = some b)
    (attached : g.attach t id b = .ok g') : g.Deepens g' := by
  obtain ⟨n, m, r, found, rfl, -, different, recorded, -⟩ :=
    adopting_spec tidy ordered known target attached
  have deepened := attach_deepened found different recorded attached
  intro x
  split at deepened
  · rw [deepened.depthOf]
    split
    · next self =>
      rw [self, measured.fresh rfl known]
      exact Nat.zero_le _
    · exact Nat.le_refl _
  · exact Nat.le_of_eq (deepened.depthOf x).symm

/-- Whatever changes lead to, its depths are in order, it is made up of edits, and no depth got
less. -/
theorem Leads.deepens (leads : Leads t c Q none g loose g') (ordered : t.WellOrdered)
    (tidy : g.Tidy t c none) (measured : g.Measured t none) (edits : Edits t {} g) :
    g'.Measured t loose ∧ Edits t {} g' ∧ g.Deepens g' := by
  refine leads.preserves (P := fun loose g' => g'.Measured t loose ∧ Edits t {} g' ∧ g.Deepens g')
    ?_ ?_ ?_ ?_ ?_ tidy ⟨measured, edits, fun _ => Nat.le_refl _⟩
  · rintro loose g₁ g₂ ⟨measured, edits, deepens⟩ same
    exact ⟨measured.sameBodies same, edits.tail (.touch same.retouched),
      fun x => (deepens x).trans_eq (same.depths.depthOf x).symm⟩
  · rintro g₁ e r tidy ⟨measured, edits, deepens⟩ recorded -
    exact ⟨measured.addEvent tidy ordered r.kind, edits.tail (.append (.event recorded _) rfl),
      fun x => (deepens x).trans_eq (depthOf_push rfl rfl x).symm⟩
  · rintro loose g₁ thread first tidy ⟨measured, edits, deepens⟩ - unknown
    exact ⟨measured.addThread tidy unknown, edits.tail (.append (.thread first thread) rfl),
      fun x => (deepens x).trans_eq (depthOf_push rfl rfl x).symm⟩
  · rintro g₁ g₂ g₃ e f anchor outer tidy ⟨measured, edits, deepens⟩ cached iterates unknown known
      owned attached rehomed
    refine ⟨measured.enclosed tidy ordered cached iterates unknown known owned attached rehomed,
      edits.enclosed attached rehomed, fun x => (deepens x).trans ?_⟩
    cases isBlock : g₁.isBlock x with
    | true =>
      exact measured.depth_le_enclosed tidy ordered cached iterates unknown known owned attached
        rehomed isBlock
    | false =>
      rw [edits.depthOf_eq_zero isBlock]
      exact Nat.zero_le _
  · rintro g₁ g₂ e id b tidy ⟨measured, edits, deepens⟩ known target attached
    exact ⟨measured.adopted tidy ordered known target attached, edits.adopted tidy known attached,
      fun x => (deepens x).trans (measured.deepens_adopted tidy ordered known target attached x)⟩

/-! ### Only the block of a thread lies at the top -/

/-- On the way up from a node to one that is no loop block there are no more loop blocks than
steps. -/
theorem length_loopsAround_le (climbs : g.climb? steps x = some root)
    (plain : g.isLoopBlock root = false) : (g.loopsAround steps x).length ≤ steps := by
  induction steps generalizing x with
  | zero =>
    obtain rfl := Option.some.inj climbs
    rw [loopsAround, List.filter_singleton, plain]
    exact Nat.le_refl 0
  | succ steps ih =>
    obtain ⟨b, owner, climbs'⟩ := Option.bind_eq_some_iff.1 climbs
    have last := List.length_filter_le g.isLoopBlock [x]
    have above := ih climbs'
    rw [loopsAround_succ owner, List.length_append]
    exact Nat.add_le_add above last

theorem mem_loopsAround (isLoop : g.isLoopBlock x = true) (steps : Nat) :
    x ∈ g.loopsAround steps x := by
  have last : x ∈ [x].filter g.isLoopBlock :=
    List.mem_filter.2 ⟨List.mem_singleton_self x, isLoop⟩
  cases steps with
  | zero => exact last
  | succ steps => exact List.mem_append_right _ last

/-- A block that is not that of a thread does not lie at the top. -/
theorem Measured.depth_pos (measured : g.Measured t none) (tidy : g.Tidy t c none)
    (ordered : t.WellOrdered) (place : g.place? x = some p) (isBlock : g.isBlock x = true)
    (notThread : ∀ thread, p ≠ .thread thread) : 0 < g.depthOf x := by
  obtain ⟨b, owner⟩ := tidy.exists_owner?_of_place? place notThread
  cases p with
  | event e =>
    rw [measured.event place isBlock owner]
    exact Nat.succ_pos _
  | loop f =>
    obtain ⟨steps, root, thread, climbs, isRoot, -⟩ := tidy.climb_spec ordered place
    have depth := measured.loop place climbs (tidy.owner?_thread isRoot)
    have plain : g.isLoopBlock root = false := by rw [isLoopBlock, isRoot]
    have around := length_loopsAround_le climbs plain
    have late := countLate_lt_length
      (List.ne_nil_of_mem (mem_loopsAround (isLoopBlock_of_place? place) steps))
    omega
  | thread thread => exact absurd rfl (notThread thread)

/-! ### Blocks on a thread -/

/-- A node that is a block and whose event is on a thread. -/
structure BlockOn (t : Trace) (g : Graph) (thread : ThreadId) (x : NodeId) (n : Node) : Prop where
  found : g.node x = .ok n
  isBlock : n.isBlock = true
  onThread : t.thread n.event = .ok thread

/-- The event of a node is on the thread on which the node stands. -/
theorem Tidy.thread_eq_ok_iff (tidy : g.Tidy t c none) (found : g.node? x = some n) :
    t.thread n.event = .ok thread ↔ n.place.thread? t = some thread := by
  obtain ⟨r, recorded⟩ : ∃ r, t.record? n.event = some r :=
    tidy.recorded_anchor (shape?_of_node? found)
  have read : t.thread n.event = .ok r.thread := Trace.map_read_of_record? recorded Record.thread
  have anchored : (t.record? n.event).map Record.thread = some r.thread := by
    rw [recorded, Option.map_some]
  have stands : n.place.thread? t = some r.thread := by
    cases kind : n.kind with
    | thread thread' _ _ =>
      have place : n.place = .thread thread' := by
        rw [Node.place, kind]
        rfl
      obtain ⟨r', recorded', same⟩ :=
        Trace.record?_of_firstInThread? (tidy.thread_anchor found place)
      rw [Option.some.inj (recorded.symm.trans recorded'), same, place]
      rfl
    | event | invocation _ | branch _ | exception | startMethod | loop _ =>
      rw [Node.place, kind]
      exact anchored
  rw [read, stands, Except.ok.injEq, Option.some.injEq]

section Crest

variable {m : Node} {maxDepth : Nat} {deepest : Option NodeId} (measured : g.Measured t none)
variable (tidy : g.Tidy t c none) (found : g.node root = .ok m)
variable (kind : m.kind = .thread thread maxDepth deepest)

include kind found

theorem place?_of_kind_thread : g.place? root = some (.thread thread) := by
  rw [place?_of_node? (node_eq_ok_iff.1 found), Node.place, kind]
  rfl

theorem crest?_of_kind_thread : g.crest? root = some (maxDepth, deepest) := by
  rw [crest?_of_node? (node_eq_ok_iff.1 found), kind]
  rfl

include measured tidy

/-- The block of a thread is itself on the thread, at the top. -/
theorem Measured.blockOn_root : g.BlockOn t thread root m ∧ m.depth = 0 := by
  have isRoot := place?_of_kind_thread found kind
  have found' := node_eq_ok_iff.1 found
  refine ⟨⟨found, ?_, (tidy.thread_eq_ok_iff found').2 ?_⟩, ?_⟩
  · rw [Node.isBlock, kind]
    rfl
  · rw [Option.some.inj ((place?_of_node? found').symm.trans isRoot)]
    rfl
  · rw [← depthOf_of_node? found', measured.thread isRoot]

theorem Measured.depth_le_maxDepth (block : g.BlockOn t thread x n) : n.depth ≤ maxDepth := by
  have found' := node_eq_ok_iff.1 block.found
  rw [← depthOf_of_node? found']
  exact measured.crested.bound (place?_of_kind_thread found kind)
    (crest?_of_kind_thread found kind) (place?_of_node? found')
    ((tidy.thread_eq_ok_iff found').1 block.onThread)

theorem Measured.depth_deepest (reaches : deepest = some x) :
    ∃ n, g.BlockOn t thread x n ∧ n.depth = maxDepth := by
  obtain ⟨s, shape, isBlock, onThread, depth⟩ := measured.crested.reached
    (place?_of_kind_thread found kind) (reaches ▸ crest?_of_kind_thread found kind)
  obtain ⟨n, found', rfl⟩ := exists_node?_of_shape? shape
  rw [n.place_shape] at onThread
  exact ⟨n, ⟨node_eq_ok_iff.2 found', n.isBlock_shape.symm.trans isBlock,
    (tidy.thread_eq_ok_iff found').2 onThread⟩, (depthOf_of_node? found').symm.trans depth⟩

/-- As long as the block of a thread is alone, it keeps no deepest block: this would be itself, and
it lies at the top. -/
theorem Measured.deepest_eq_none (edits : Edits t {} g)
    (alone : ∀ x n, g.BlockOn t thread x n → x = root) : maxDepth = 0 ∧ deepest = none := by
  have crest := crest?_of_kind_thread found kind
  cases reaches : deepest with
  | none =>
    rw [reaches] at crest
    exact ⟨measured.crested.flat crest, rfl⟩
  | some x =>
    obtain ⟨n, block, depth⟩ := measured.depth_deepest tidy found kind reaches
    obtain rfl := alone x n block
    cases found.symm.trans block.found
    have top := (measured.blockOn_root tidy found kind).2
    rw [crest?_of_node? (node_eq_ok_iff.1 found), reaches] at crest
    have positive := (edits.grounded (node_eq_ok_iff.1 found)).crest crest
    omega

/-- As soon as there is another block on a thread, its block keeps a deepest one: the other block
lies below it. -/
theorem Measured.exists_deepest (ordered : t.WellOrdered) (block : g.BlockOn t thread x n)
    (other : x ≠ root) : ∃ y, deepest = some y := by
  have found' := node_eq_ok_iff.1 block.found
  have place := place?_of_node? found'
  have positive : 0 < g.depthOf x := by
    refine measured.depth_pos tidy ordered place ((isBlock_of_node? found').trans block.isBlock)
      fun thread' isThread => other ?_
    -- a thread has one block only
    have onThread := (tidy.thread_eq_ok_iff found').1 block.onThread
    rw [isThread, Place.thread?, Option.some.injEq] at onThread
    rw [isThread, onThread] at place
    exact tidy.unique place (place?_of_kind_thread found kind)
  have bound := measured.depth_le_maxDepth tidy found kind block
  rw [depthOf_of_node? found'] at positive
  cases reaches : deepest with
  | none =>
    have flat := measured.crested.flat (reaches ▸ crest?_of_kind_thread found kind)
    omega
  | some y => exact ⟨y, rfl⟩

end Crest

end Graph

/-! ### Answers -/

namespace Answer

/-- Whatever is asked of a fresh answer, and whatever is asked then, no node gets less deep.  The
block of a thread keeps the greatest depth of a block on the thread.  If there is another block on
the thread, it keeps one that reaches this depth, and otherwise the depth is zero and no block is
kept. -/
theorem crest_isGreatest (t : Trace) (c : Config) (ordered : t.WellOrdered)
    (counter : AnswerCounter) (calls more : List Call)
    (inside : ∀ call ∈ calls ++ more, call.event.index < t.size) :
    ∃ a a', (new t c counter).1.run calls = .ok a ∧ a.run more = .ok a' ∧
      (∀ x n, a.graph.node x = .ok n →
        ∃ n', a'.graph.node x = .ok n' ∧ n'.place = n.place ∧ n.depth ≤ n'.depth) ∧
      ∀ root m thread maxDepth deepest, a'.graph.node root = .ok m →
        m.kind = .thread thread maxDepth deepest →
        IsGreatest { depth | ∃ x n, a'.graph.BlockOn t thread x n ∧ n.depth = depth } maxDepth ∧
        ((∀ x n, a'.graph.BlockOn t thread x n → x = root) → maxDepth = 0 ∧ deepest = none) ∧
        ((∃ x n, a'.graph.BlockOn t thread x n ∧ x ≠ root) →
          ∃ x n, deepest = some x ∧ a'.graph.BlockOn t thread x n ∧ n.depth = maxDepth) := by
  have before : ∀ call ∈ calls, call.event.index < t.size := fun call member =>
    inside call (List.mem_append_left more member)
  have after : ∀ call ∈ more, call.event.index < t.size := fun call member =>
    inside call (List.mem_append_right calls member)
  obtain ⟨a, succeeds, reached⟩ := (orderly_new t c counter).run ordered before
  obtain ⟨a', succeeds', reached'⟩ := reached.toOrderly.run ordered after
  obtain ⟨measured, edits, -⟩ := (leads_of_run ordered before succeeds).deepens ordered
    (Graph.tidy_empty t c) (Graph.measured_empty t) .refl
  obtain ⟨measured', edits', deepens⟩ :=
    (reached.toOrderly.leads_of_run ordered after succeeds').deepens ordered reached.tidy measured
      edits
  have tidy' := reached'.tidy
  refine ⟨a, a', succeeds, succeeds', fun x n found => ?_,
    fun root m thread maxDepth deepest found kind => ?_⟩
  · have found := Graph.node_eq_ok_iff.1 found
    obtain ⟨s, shape, place⟩ := Graph.exists_shape?_of_place?
      (reached'.grows.place? (Graph.place?_of_node? found))
    obtain ⟨n', found', rfl⟩ := Graph.exists_node?_of_shape? shape
    have depth := deepens x
    rw [Graph.depthOf_of_node? found, Graph.depthOf_of_node? found'] at depth
    exact ⟨n', Graph.node_eq_ok_iff.2 found', n'.place_shape.symm.trans place, depth⟩
  · have alone := measured'.deepest_eq_none tidy' found kind edits'
    have others : (∃ x n, a'.graph.BlockOn t thread x n ∧ x ≠ root) →
        ∃ x n, deepest = some x ∧ a'.graph.BlockOn t thread x n ∧ n.depth = maxDepth := by
      rintro ⟨x, n, block, other⟩
      obtain ⟨y, reaches⟩ := measured'.exists_deepest tidy' found kind ordered block other
      obtain ⟨n', block', depth⟩ := measured'.depth_deepest tidy' found kind reaches
      exact ⟨y, n', reaches, block', depth⟩
    refine ⟨⟨?_, ?_⟩, alone, others⟩
    · by_cases lonely : ∀ x n, a'.graph.BlockOn t thread x n → x = root
      · obtain ⟨block, top⟩ := measured'.blockOn_root tidy' found kind
        exact ⟨root, m, block, top.trans (alone lonely).1.symm⟩
      · push Not at lonely
        obtain ⟨x, n, -, block, depth⟩ := others lonely
        exact ⟨x, n, block, depth⟩
    · rintro depth ⟨x, n, block, rfl⟩
      exact measured'.depth_le_maxDepth tidy' found kind block

/-- The outer of two loops is met last, and pushes the first decision down.  The block of the thread
keeps the depth of what lies in the inner loop, which is still the greatest one. -/
theorem crest_isGreatest_decidedWithin :
    decidedWithin.WellOrdered ∧
      ∃ a a', (new decidedWithin {} {}).1.run [.explain ⟨2⟩] = .ok a ∧
        a.run [.explain ⟨3⟩] = .ok a' ∧
        ∃ n n' m deepest, a.graph.node ⟨0⟩ = .ok n ∧ a'.graph.node ⟨0⟩ = .ok n' ∧
          n'.place = n.place ∧ n.depth = 1 ∧ n'.depth = 2 ∧
          a'.graph.node ⟨1⟩ = .ok m ∧ m.kind = .thread ⟨0⟩ 3 deepest ∧
          IsGreatest { depth | ∃ x n, a'.graph.BlockOn decidedWithin ⟨0⟩ x n ∧ n.depth = depth } 3 ∧
          ∃ x n, deepest = some x ∧ a'.graph.BlockOn decidedWithin ⟨0⟩ x n ∧ n.depth = 3 := by
  have ordered : decidedWithin.WellOrdered := by decide +kernel
  have inside : ∀ call ∈ [Call.explain ⟨2⟩] ++ [.explain ⟨3⟩],
      call.event.index < decidedWithin.size := by decide +kernel
  have early : ((new decidedWithin {} {}).1.run [.explain ⟨2⟩]).toOption.map (fun a =>
      (a.graph.node? ⟨0⟩).map (·.depth)) = some (some 1) := by decide +kernel
  have late : (((new decidedWithin {} {}).1.run [.explain ⟨2⟩]).bind
      (·.run [.explain ⟨3⟩])).toOption.map (fun a =>
        ((a.graph.node? ⟨0⟩).map fun n => (n.depth, n.isBlock, n.event),
          (a.graph.node? ⟨1⟩).map (·.kind))) =
      some (some (2, true, ⟨0⟩), some (.thread ⟨0⟩ 3 (some ⟨2⟩))) := by decide +kernel
  obtain ⟨a, a', succeeds, succeeds', deepens, crests⟩ :=
    crest_isGreatest decidedWithin {} ordered {} _ _ inside
  rw [succeeds, Except.bind, succeeds'] at late
  rw [succeeds] at early
  obtain ⟨n, found, depth⟩ := Option.map_eq_some_iff.1 (Option.some.inj early)
  obtain ⟨⟨n₁, found₁, seen⟩, m, foundM, kind⟩ := by
    simpa only [Except.toOption, Option.map_some, Option.some.injEq, Prod.mk.injEq,
      Option.map_eq_some_iff] using late
  obtain ⟨n', found', place, -⟩ := deepens ⟨0⟩ n (Graph.node_eq_ok_iff.2 found)
  cases found₁.symm.trans (Graph.node_eq_ok_iff.1 found')
  obtain ⟨depth', isBlock, event⟩ := seen
  have block : a'.graph.BlockOn decidedWithin ⟨0⟩ ⟨0⟩ n₁ :=
    ⟨found', isBlock, by rw [event]; rfl⟩
  have foundM := Graph.node_eq_ok_iff.2 foundM
  obtain ⟨greatest, -, others⟩ := crests ⟨1⟩ m ⟨0⟩ 3 _ foundM kind
  exact ⟨ordered, a, a', succeeds, succeeds', n, n₁, m, _, Graph.node_eq_ok_iff.2 found, found',
    place, depth, depth', foundM, kind, greatest, others ⟨⟨0⟩, n₁, block, by decide⟩⟩

end Answer

end Inquest
