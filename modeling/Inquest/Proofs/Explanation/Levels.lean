import Inquest.Proofs.Explanation.Depths
import Inquest.Proofs.Explanation.Extension

/-!
# The depths that a graph keeps

A graph keeps a depth for every block, and a thread block keeps its *crest*: the greatest depth that
it was told of, and the block that was the first to reach it.  Both change only when the depth of a
block is set, which happens when the block is attached and when the depths under a block are brought
up to date.  The walk that brings them up to date goes along the members.  It meets every node but
the first one as a member of a block that it has met, and it meets every member that is a block.

## Main Definitions

* `Graph.depthOf`, `Graph.crest?` - what is kept about depths
* `Graph.Deepened` - the depth of one block was set
* `Graph.Crested` - thread blocks know the greatest depth on their thread
* `Graph.Sweep` - a walk that brings depths up to date, under way

## Main Statements

* `Graph.attach_deepened` - attaching a block sets its depth, and no other
* `Graph.Crested.deepened` - a crest is right as long as no depth gets less
* `Graph.Crested.attached` - attaching a node keeps the crests right
* `Graph.refreshDepths_spec` - what the walk does to depths
-/

namespace Inquest

/-- The greatest depth that a thread block was told of, and the first block that reached it. -/
def NodeKind.crest? : NodeKind → Option (Nat × Option NodeId)
  | .thread _ maxDepth deepest => some (maxDepth, deepest)
  | _ => none

theorem NodeKind.isLoop_bare (kind : NodeKind) : kind.bare.isLoop = kind.isLoop := by
  cases kind <;> rfl

/-- The crest of a thread that is told of a block of some depth. -/
def raise (id : NodeId) (depth : Nat) (crest : Nat × Option NodeId) : Nat × Option NodeId :=
  if crest.1 < depth then (depth, some id) else crest

namespace Node

theorem crest?_noteDepth (n : Node) (block : NodeId) (depth : Nat) :
    (n.noteDepth block depth).kind.crest? = n.kind.crest?.map (raise block depth) := by
  unfold noteDepth
  cases kind : n.kind with
  | thread thread greatest deepest =>
    show (if greatest < depth then _ else n).kind.crest? =
      some (raise block depth (greatest, deepest))
    by_cases deeper : greatest < depth
    · rw [if_pos deeper, raise, if_pos deeper]
      rfl
    · rw [if_neg deeper, raise, if_neg deeper, kind]
      rfl
  | event | invocation _ | branch _ | exception | startMethod | loop _ =>
    simp [kind, NodeKind.crest?]

theorem depth_noteDepth (n : Node) (block : NodeId) (depth : Nat) :
    (n.noteDepth block depth).depth = n.depth := by
  unfold noteDepth
  split
  · split <;> rfl
  · rfl

theorem crest?_resolvePath (n : Node) (pathOf : EventId → Option LoopPathId) :
    (n.resolvePath pathOf).kind.crest? = n.kind.crest? := by
  unfold resolvePath
  split
  · next branch => rw [branch]; rfl
  · rfl

theorem depth_resolvePath (n : Node) (pathOf : EventId → Option LoopPathId) :
    (n.resolvePath pathOf).depth = n.depth := by
  unfold resolvePath
  split <;> rfl

theorem isLoop_of_shape_eq {n n' : Node} (same : n'.shape = n.shape) :
    n'.kind.isLoop = n.kind.isLoop := by
  have bare : n'.kind.bare = n.kind.bare := congrArg Shape.kind same
  rw [← n'.kind.isLoop_bare, bare, n.kind.isLoop_bare]

theorem crest?_of_isLoop {n : Node} (loop : n.kind.isLoop = true) : n.kind.crest? = none := by
  cases kind : n.kind <;> simp_all [NodeKind.crest?, NodeKind.isLoop]

end Node

namespace Graph

variable {g g' g'' : Graph} {t : Trace} {c : Config} {loose : Option EventId}
variable {e : EventId} {id b x root current : NodeId} {n m : Node} {s : Shape} {r : Record}
variable {thread : ThreadId} {depth : Nat}

/-! ### What is kept about depths -/

/-- The depth that is kept of a node. -/
def depthOf (g : Graph) (x : NodeId) : Nat := ((g.node? x).map Node.depth).getD 0

/-- The crest that is kept of a thread block. -/
def crest? (g : Graph) (x : NodeId) : Option (Nat × Option NodeId) :=
  ((g.node? x).map fun n => n.kind.crest?).join

theorem depthOf_of_node? (found : g.node? x = some n) : g.depthOf x = n.depth := by
  rw [depthOf, found, Option.map_some, Option.getD_some]

theorem crest?_of_node? (found : g.node? x = some n) : g.crest? x = n.kind.crest? := by
  rw [crest?, found, Option.map_some, Option.join_some]

section Membership

variable {β : Type} {view : Node → β}
  (lists : ∀ (n : Node) (members : Std.TreeMap EventId NodeId), view { n with members } = view n)

include lists

/-- A view that shows neither owners nor members does not change when a node joins a block. -/
theorem map_node?_link (owners : ∀ (n : Node) (owner : Option NodeId),
    view { n with owner } = view n) (x : NodeId) :
    ((g.link id b e).node? x).map view = (g.node? x).map view :=
  (map_node?_modify (fun _ _ => lists _ _) x).trans (map_node?_modify (fun _ _ => owners _ _) x)

/-- A view that does not show members does not change when a node leaves its block. -/
theorem map_node?_detach (detached : g.detach id = .ok g') (x : NodeId) :
    (g'.node? x).map view = (g.node? x).map view := by
  obtain ⟨n, -, ⟨-, rfl⟩ | ⟨b, -, rfl⟩⟩ := detach_cases detached
  · rfl
  · exact map_node?_modify (fun _ _ => lists _ _) x

end Membership

/-- What is kept about depths is as it was. -/
structure SameDepths (g g' : Graph) : Prop where
  depthOf : ∀ x, g'.depthOf x = g.depthOf x
  crest? : ∀ x, g'.crest? x = g.crest? x

namespace SameDepths

theorem refl (g : Graph) : g.SameDepths g := ⟨fun _ => rfl, fun _ => rfl⟩

theorem trans (first : g.SameDepths g') (second : g'.SameDepths g'') : g.SameDepths g'' :=
  ⟨fun x => (second.depthOf x).trans (first.depthOf x),
    fun x => (second.crest? x).trans (first.crest? x)⟩

end SameDepths

theorem sameDepths_modify {f : Node → Node} (same : ∀ n, g.node? id = some n →
    (f n).depth = n.depth ∧ (f n).kind.crest? = n.kind.crest?) : g.SameDepths (g.modify id f) := by
  constructor <;> intro x
  · rw [depthOf, depthOf, map_node?_modify fun n found => (same n found).1]
  · rw [crest?, crest?, map_node?_modify fun n found => (same n found).2]

theorem sameDepths_link (g : Graph) (id b : NodeId) (e : EventId) :
    g.SameDepths (g.link id b e) := by
  constructor <;> intro x
  · rw [depthOf, depthOf, map_node?_link (fun _ _ => rfl) fun _ _ => rfl]
  · rw [crest?, crest?, map_node?_link (fun _ _ => rfl) fun _ _ => rfl]

theorem sameDepths_of_detach (detached : g.detach id = .ok g') : g.SameDepths g' := by
  constructor <;> intro x
  · rw [depthOf, depthOf, map_node?_detach (fun _ _ => rfl) detached]
  · rw [crest?, crest?, map_node?_detach (fun _ _ => rfl) detached]

theorem node?_size (g : Graph) : g.node? ⟨g.size⟩ = none :=
  Array.getElem?_eq_none (Nat.le_refl _)

theorem depthOf_size (g : Graph) : g.depthOf ⟨g.size⟩ = 0 := by
  rw [depthOf, node?_size]
  rfl

/-- A node that lies nowhere yet changes no depth when it is appended. -/
theorem depthOf_push (nodes : g'.nodes = g.nodes.push n) (flat : n.depth = 0) (x : NodeId) :
    g'.depthOf x = g.depthOf x := by
  rw [depthOf, depthOf, node?_push nodes]
  split
  · next isNew =>
    rw [isNew, node?_size, Option.map_some, Option.getD_some, flat]
    rfl
  · rfl

theorem crest?_push (nodes : g'.nodes = g.nodes.push n) (x : NodeId) :
    g'.crest? x = if x = ⟨g.size⟩ then n.kind.crest? else g.crest? x := by
  rw [crest?, node?_push nodes]
  split <;> rfl

/-! ### The runs of a loop -/

theorem sameDepths_foldl_resolvePath (t : Trace) (ids : List NodeId) (g : Graph) :
    g.SameDepths (ids.foldl (·.resolvePath t ·) g) := by
  induction ids generalizing g with
  | nil => exact .refl g
  | cons id rest ih =>
    have first : g.SameDepths (g.resolvePath t id) :=
      sameDepths_modify fun n _ => ⟨n.depth_resolvePath _, n.crest?_resolvePath _⟩
    exact first.trans (ih _)

/-- Regrouping the members of a loop changes no depth. -/
theorem sameDepths_of_recomputeRuns (found : g.node? id = some n) (loop : n.kind.isLoop = true)
    (grouped : g.recomputeRuns t id = .ok g') : g.SameDepths g' := by
  obtain rfl := recomputeRuns_eq found grouped
  have resolved := sameDepths_foldl_resolvePath t n.members.values g
  refine resolved.trans (sameDepths_modify fun m found' => ⟨rfl, ?_⟩)
  -- the block had no crest before, so it has none now
  have before := resolved.crest? id
  rw [crest?_of_node? found', crest?_of_node? found, Node.crest?_of_isLoop loop] at before
  exact before.symm

/-! ### Setting a depth -/

/-- The graph `g'` is `g` with the depth of one block set, of which its thread was told. -/
structure Deepened (g : Graph) (id : NodeId) (thread : ThreadId) (depth : Nat) (g' : Graph) :
    Prop where
  depthOf : ∀ x, g'.depthOf x = if x = id then depth else g.depthOf x
  crest? : ∀ x, g'.crest? x =
    if g.threadBlocks[thread]? = some x then (g.crest? x).map (raise id depth) else g.crest? x

theorem Deepened.congr_right (deepened : g.Deepened id thread depth g')
    (same : g'.SameDepths g'') : g.Deepened id thread depth g'' :=
  ⟨fun x => (same.depthOf x).trans (deepened.depthOf x),
    fun x => (same.crest? x).trans (deepened.crest? x)⟩

theorem Deepened.congr_left (same : g.SameDepths g') (tables : g'.threadBlocks = g.threadBlocks)
    (deepened : g'.Deepened id thread depth g'') : g.Deepened id thread depth g'' := by
  constructor <;> intro x
  · rw [deepened.depthOf, same.depthOf]
  · rw [deepened.crest?, same.crest?, tables]

theorem crest?_modify_noteDepth (g : Graph) (root x : NodeId) :
    (g.modify root (·.noteDepth id depth)).crest? x =
      if x = root then (g.crest? x).map (raise id depth) else g.crest? x := by
  rw [crest?, node?_modify]
  split
  · cases found : g.node? x with
    | none => rw [crest?, found]; rfl
    | some n =>
      rw [crest?_of_node? found, ← n.crest?_noteDepth]
      rfl
  · rfl

/-- Setting the depth of a block changes no other depth. -/
theorem deepened_of_setDepth (found : g.node? id = some n) (recorded : t.record? n.event = some r)
    (deepened : g.setDepth t id depth = .ok g') : g.Deepened id r.thread depth g' := by
  have found' := node?_modify_self ({ · with depth }) found
  have depths : ∀ x, (g.modify id fun n => { n with depth }).depthOf x =
      if x = id then depth else g.depthOf x := by
    intro x
    split
    · next self => rw [self, depthOf_of_node? found']
    · next other => rw [depthOf, depthOf, node?_modify_of_ne _ other]
  have crests : ∀ x, (g.modify id fun n => { n with depth }).crest? x = g.crest? x := by
    intro x
    rw [crest?, crest?, map_node?_modify]
    intro n _
    rfl
  obtain ⟨n', r', foundN, recorded', told⟩ := setDepth_cases deepened
  cases found.symm.trans foundN
  cases recorded.symm.trans recorded'
  obtain ⟨known, rfl⟩ | ⟨root, known, rfl⟩ := told
  · refine ⟨depths, fun x => ?_⟩
    rw [known, if_neg (nofun : ¬ none = some x), crests]
  · constructor <;> intro x
    · rw [← depths, depthOf, depthOf, map_node?_modify fun m _ => m.depth_noteDepth id depth]
    · rw [known, crest?_modify_noteDepth, crests]
      simp only [Option.some.injEq, eq_comm]

/-! ### Attaching a node -/

theorem node?_link (different : b ≠ id) (e : EventId) (x : NodeId) :
    (g.link id b e).node? x =
      if x = b then (g.node? x).map fun m => { m with members := m.members.insert e id }
      else if x = id then (g.node? x).map fun n => { n with owner := some b }
      else g.node? x := by
  show ((g.modify id _).modify b _).node? x = _
  rw [node?_modify, node?_modify]
  split
  · next isBlock => rw [if_neg (isBlock ▸ different)]
  · rfl

/-- Attaching a block sets its depth, and no other; attaching a node that is no block sets none. -/
theorem attach_deepened (found : g.node? id = some n) (different : b ≠ id)
    (recorded : t.record? n.event = some r) (attached : g.attach t id b = .ok g') :
    if n.isBlock then g.Deepened id r.thread (g.depthOf b + 1) g' else g.SameDepths g' := by
  obtain ⟨n', m, g₂, found', foundB, deepened, grouped⟩ := attach_cases attached
  obtain rfl := Option.some.inj (found.symm.trans found')
  have linked := sameDepths_link g id b n.event
  have found₁ : (g.link id b n.event).node? id = some { n with owner := some b } := by
    rw [node?_link different, if_neg different.symm, if_pos rfl, found, Option.map_some]
  have foundB₁ : (g.link id b n.event).node? b =
      some { m with members := m.members.insert n.event id } := by
    rw [node?_link different, if_pos rfl, foundB, Option.map_some]
  -- regrouping comes last, and touches no depth
  have regrouped : (g.link id b n.event).Alike g₂ → g₂.SameDepths g' := by
    intro alike
    split at grouped
    · next loop =>
      obtain ⟨m₂, foundB₂, same⟩ := alike.node? foundB₁
      have isLoop : m₂.kind.isLoop = true :=
        (Node.isLoop_of_shape_eq same).trans (Bool.and_eq_true_iff.1 loop).1
      exact sameDepths_of_recomputeRuns foundB₂ isLoop grouped
    · cases grouped
      exact .refl _
  split at deepened
  · next isBlock =>
    rw [if_pos isBlock, depthOf_of_node? foundB]
    have set : (g.link id b n.event).Deepened id r.thread (m.depth + 1) g₂ :=
      deepened_of_setDepth found₁ recorded deepened
    exact (set.congr_left linked rfl).congr_right (regrouped (alike_of_setDepth deepened))
  · next notBlock =>
    cases deepened
    rw [if_neg notBlock]
    exact linked.trans (regrouped (.refl _))

/-! ### Crests -/

/-- Every thread block knows the greatest depth on its thread, and a block that reaches it unless
it is zero. -/
structure Crested (t : Trace) (g : Graph) : Prop where
  bound : ∀ {root thread greatest deepest x p}, g.place? root = some (.thread thread) →
    g.crest? root = some (greatest, deepest) → g.place? x = some p → p.thread? t = some thread →
    g.depthOf x ≤ greatest
  flat : ∀ {root greatest}, g.crest? root = some (greatest, none) → greatest = 0
  reached : ∀ {root thread greatest x}, g.place? root = some (.thread thread) →
    g.crest? root = some (greatest, some x) → ∃ s, g.shape? x = some s ∧ s.isBlock = true ∧
      s.place.thread? t = some thread ∧ g.depthOf x = greatest

theorem SameOutline.symm (outline : g.SameOutline g') : g'.SameOutline g := fun x =>
  (outline x).symm

theorem SameOutline.block (outline : g.SameOutline g') (found : g.shape? x = some s) :
    ∃ s', g'.shape? x = some s' ∧ s'.isBlock = s.isBlock ∧ s'.place = s.place := by
  obtain ⟨s', found', kind, anchor⟩ := outline.shape? found
  refine ⟨s', found', congrArg NodeKind.isBlock kind, ?_⟩
  rw [Shape.place, Shape.place, kind, anchor]

theorem SameOutline.isBlock (outline : g.SameOutline g') (x : NodeId) :
    g'.isBlock x = g.isBlock x := by
  refine Bool.eq_iff_iff.2 ?_
  rw [isBlock_iff, isBlock_iff]
  constructor
  · rintro ⟨s, found, isBlock⟩
    obtain ⟨s', found', same, -⟩ := outline.symm.block found
    exact ⟨s', found', same.trans isBlock⟩
  · rintro ⟨s, found, isBlock⟩
    obtain ⟨s', found', same, -⟩ := outline.block found
    exact ⟨s', found', same.trans isBlock⟩

/-- The crest of a thread is as it was, or was raised. -/
theorem Deepened.crest_cases (deepened : g.Deepened id thread depth g')
    (registered : ∀ {p x}, g.at? p = some x ↔ g.place? x = some p) {thread' : ThreadId}
    {crest : Nat × Option NodeId} (isRoot : g.place? root = some (.thread thread'))
    (known : g'.crest? root = some crest) :
    ∃ before, g.crest? root = some before ∧
      (thread' = thread ∧ crest = raise id depth before ∨ thread' ≠ thread ∧ crest = before) := by
  have stands : g.threadBlocks[thread']? = some root := registered.2 isRoot
  rw [deepened.crest?] at known
  split at known
  · next same =>
    obtain ⟨before, known, raised⟩ := Option.map_eq_some_iff.1 known
    have isRoot' := registered (p := .thread thread).1 same
    obtain rfl := Place.thread.inj (Option.some.inj (isRoot.symm.trans isRoot'))
    exact ⟨before, known, .inl ⟨rfl, raised.symm⟩⟩
  · next other =>
    refine ⟨crest, known, .inr ⟨?_, rfl⟩⟩
    rintro rfl
    exact other stands

namespace Crested

/-- The block that reaches the crest of a thread is still one when depths have changed. -/
theorem reached_outline {greatest : Nat} (crested : g.Crested t) (outline : g.SameOutline g')
    (isRoot : g.place? root = some (.thread thread))
    (known : g.crest? root = some (greatest, some x)) :
    ∃ s, g'.shape? x = some s ∧ s.isBlock = true ∧ s.place.thread? t = some thread ∧
      g.depthOf x = greatest := by
  obtain ⟨s, found, isBlock, onThread, depth⟩ := crested.reached isRoot known
  obtain ⟨s', found', isBlock', place'⟩ := outline.block found
  exact ⟨s', found', isBlock'.trans isBlock, place' ▸ onThread, depth⟩

theorem congr (crested : g.Crested t) (outline : g.SameOutline g') (same : g.SameDepths g') :
    g'.Crested t := by
  constructor
  · intro root thread greatest deepest x p place crest place' onThread
    rw [outline.place?] at place place'
    rw [same.crest?] at crest
    rw [same.depthOf]
    exact crested.bound place crest place' onThread
  · intro root greatest crest
    rw [same.crest?] at crest
    exact crested.flat crest
  · intro root thread greatest x place crest
    rw [outline.place?] at place
    rw [same.crest?] at crest
    obtain ⟨s, found, isBlock, onThread, depth⟩ := crested.reached_outline outline place crest
    exact ⟨s, found, isBlock, onThread, (same.depthOf x).trans depth⟩

/-- Setting the depth of a block keeps the crests right, if the block did not lie deeper before. -/
theorem deepened (crested : g.Crested t)
    (registered : ∀ {p x}, g.at? p = some x ↔ g.place? x = some p) (outline : g.SameOutline g')
    (found : g.shape? id = some s) (isBlock : s.isBlock = true)
    (onThread : s.place.thread? t = some thread) (mono : g.depthOf id ≤ depth)
    (deepened : g.Deepened id thread depth g') : g'.Crested t := by
  obtain ⟨s', found', isBlock', place'⟩ := outline.block found
  -- a node on another thread is not the block
  have apart : ∀ {x p thread'}, g'.place? x = some p → p.thread? t = some thread' →
      thread' ≠ thread → x ≠ id := by
    rintro x p thread' place onThread' other rfl
    rw [place?_of_shape? found', place', Option.some.injEq] at place
    exact other (Option.some.inj (onThread'.symm.trans (place ▸ onThread)))
  constructor
  · intro root thread' greatest deepest x p isRoot crest place onThread'
    rw [outline.place?] at isRoot
    have place₀ := (outline.place? x).symm.trans place
    rw [deepened.depthOf]
    obtain ⟨⟨before, deepest'⟩, known, ⟨rfl, raised⟩ | ⟨other, same⟩⟩ :=
      deepened.crest_cases registered isRoot crest
    · have below := crested.bound isRoot known place₀ onThread'
      simp only [raise] at raised
      split at raised <;> cases raised <;> split <;> omega
    · cases same
      rw [if_neg (apart place onThread' other)]
      exact crested.bound isRoot known place₀ onThread'
  · intro root greatest crest
    rw [deepened.crest?] at crest
    split at crest
    · obtain ⟨⟨before, deepest'⟩, known, raised⟩ := Option.map_eq_some_iff.1 crest
      simp only [raise] at raised
      split at raised
      · cases raised
      · cases raised
        exact crested.flat known
    · exact crested.flat crest
  · intro root thread' greatest x isRoot crest
    rw [outline.place?] at isRoot
    rw [deepened.depthOf]
    obtain ⟨⟨before, deepest'⟩, known, ⟨rfl, raised⟩ | ⟨other, same⟩⟩ :=
      deepened.crest_cases registered isRoot crest
    · simp only [raise] at raised
      split at raised
      · cases raised
        exact ⟨s', found', isBlock'.trans isBlock, place' ▸ onThread, if_pos rfl⟩
      · next notDeeper =>
        cases raised
        obtain ⟨sx, foundX, isBlockX, onThreadX, depthX⟩ :=
          crested.reached_outline outline isRoot known
        refine ⟨sx, foundX, isBlockX, onThreadX, ?_⟩
        split
        · next self =>
          rw [self] at depthX
          omega
        · exact depthX
    · cases same
      obtain ⟨sx, foundX, isBlockX, onThreadX, depthX⟩ :=
        crested.reached_outline outline isRoot known
      refine ⟨sx, foundX, isBlockX, onThreadX, ?_⟩
      rw [if_neg (apart (place?_of_shape? foundX) onThreadX other), depthX]

/-- Attaching a node keeps the crests right, if the node did not lie deeper before.  A block then
lies one level below the block that it is attached to, and nothing else moves. -/
theorem attached (crested : g.Crested t)
    (registered : ∀ {p x}, g.at? p = some x ↔ g.place? x = some p) (outline : g.SameOutline g')
    (found : g.node? id = some n) (different : b ≠ id) (recorded : t.record? n.event = some r)
    (onThread : n.shape.place.thread? t = some r.thread)
    (mono : n.isBlock = true → g.depthOf id ≤ g.depthOf b + 1)
    (attached : g.attach t id b = .ok g') :
    g'.Crested t ∧
      ∀ x, g'.depthOf x = if x = id ∧ n.isBlock = true then g.depthOf b + 1 else g.depthOf x := by
  have deepened := attach_deepened found different recorded attached
  split at deepened
  · next isBlock =>
    refine ⟨crested.deepened registered outline (shape?_of_node? found)
      (n.isBlock_shape.trans isBlock) onThread (mono isBlock) deepened, fun x => ?_⟩
    simp only [deepened.depthOf, isBlock, and_true]
  · next notBlock =>
    refine ⟨crested.congr outline deepened, fun x => ?_⟩
    rw [deepened.depthOf, if_neg fun both => notBlock both.2]

/-- Appending a node that lies nowhere yet keeps the crests right.  If the node is a thread block,
there must be no depths on the thread. -/
theorem appended (crested : g.Crested t) (appended : g.Appended s g')
    (depths : ∀ x, g'.depthOf x = g.depthOf x) (fresh : g.depthOf ⟨g.size⟩ = 0)
    (crests : ∀ x, x ≠ ⟨g.size⟩ → g'.crest? x = g.crest? x)
    (new : ∀ {crest}, g'.crest? ⟨g.size⟩ = some crest → crest = (0, none))
    (bare : ∀ {thread x p}, s.place = .thread thread → g.place? x = some p →
      p.thread? t = some thread → g.depthOf x = 0) : g'.Crested t := by
  have old : ∀ {x p}, x ≠ ⟨g.size⟩ → g'.place? x = some p → g.place? x = some p := by
    intro x p old place
    rwa [Graph.place?, appended.old old] at place
  constructor
  · intro root thread greatest deepest x p isRoot crest place onThread
    rw [depths]
    by_cases isNew : x = ⟨g.size⟩
    · rw [isNew, fresh]
      exact Nat.zero_le _
    · have place := old isNew place
      by_cases newRoot : root = ⟨g.size⟩
      · subst newRoot
        rw [place?_of_shape? appended.new, Option.some.injEq] at isRoot
        rw [bare isRoot place onThread]
        exact Nat.zero_le _
      · rw [crests root newRoot] at crest
        exact crested.bound (old newRoot isRoot) crest place onThread
  · intro root greatest crest
    by_cases newRoot : root = ⟨g.size⟩
    · cases new (newRoot ▸ crest)
      rfl
    · rw [crests root newRoot] at crest
      exact crested.flat crest
  · intro root thread greatest x isRoot crest
    by_cases newRoot : root = ⟨g.size⟩
    · cases new (newRoot ▸ crest)
    · rw [crests root newRoot] at crest
      obtain ⟨s', found, isBlock, onThread, depth⟩ := crested.reached (old newRoot isRoot) crest
      exact ⟨s', appended.shape? found, isBlock, onThread, (depths x).trans depth⟩

end Crested

/-! ### The walk -/

theorem Alike.outline (alike : g.Alike g') : g.SameOutline g' := fun x => by rw [alike.shape?]

theorem Alike.member? (alike : g.Alike g') (b : NodeId) (e : EventId) :
    g'.member? b e = g.member? b e := by
  rw [Graph.member?, Graph.member?, alike.shape?]

/-- Setting the depths of several blocks that did not lie deeper before. -/
theorem foldlM_setDepth_spec {ids : List NodeId} (tidy : g.Tidy t c loose)
    (isEvent : ∀ x ∈ ids, ∃ e : EventId, g.nodeOf[e]? = some x)
    (isBlock : ∀ x ∈ ids, g.isBlock x = true)
    (mono : ∀ x ∈ ids, g.depthOf x ≤ depth) (crested : g.Crested t)
    (folded : ids.foldlM (fun g id => g.setDepth t id depth) g = .ok g') :
    g.Alike g' ∧ g'.Crested t ∧ ∀ x, g'.depthOf x = if x ∈ ids then depth else g.depthOf x := by
  induction ids generalizing g with
  | nil =>
    cases folded
    exact ⟨.refl _, crested, fun x => by rw [if_neg List.not_mem_nil]⟩
  | cons id rest ih =>
    rw [List.foldlM_cons] at folded
    obtain ⟨g₁, first, folded⟩ := bind_eq_ok_iff.1 folded
    obtain ⟨e, known⟩ := isEvent id List.mem_cons_self
    obtain ⟨s, r, shape, place, rfl, recorded, -⟩ := tidy.shape?_of_event known
    obtain ⟨n, found, rfl⟩ := exists_node?_of_shape? shape
    have recorded : t.record? n.event = some r := recorded
    have alike := alike_of_setDepth first
    have set := deepened_of_setDepth found recorded first
    have onThread : n.shape.place.thread? t = some r.thread := by
      rw [place]
      exact congrArg (Option.map Record.thread) recorded
    obtain ⟨s', shape', isBlock'⟩ := isBlock_iff.1 (isBlock id List.mem_cons_self)
    obtain rfl := Option.some.inj (shape.symm.trans shape')
    have crested₁ := crested.deepened tidy.registered alike.outline shape isBlock' onThread
      (mono id List.mem_cons_self) set
    have mono₁ : ∀ x ∈ rest, g₁.depthOf x ≤ depth := by
      intro x listed
      rw [set.depthOf]
      split
      · exact Nat.le_refl _
      · exact mono x (List.mem_cons_of_mem id listed)
    obtain ⟨alike', crested', depths⟩ := ih (tidy.alike alike)
      (fun x listed => by rw [alike.nodeOf]; exact isEvent x (List.mem_cons_of_mem id listed))
      (fun x listed => (alike.outline.isBlock x).trans (isBlock x (List.mem_cons_of_mem id listed)))
      mono₁ crested₁ folded
    refine ⟨alike.trans alike', crested', fun x => ?_⟩
    rw [depths, set.depthOf]
    by_cases listed : x ∈ rest
    · rw [if_pos listed, if_pos (List.mem_cons_of_mem id listed)]
    · rw [if_neg listed]
      by_cases self : x = id
      · rw [if_pos self, if_pos (self ▸ List.mem_cons_self)]
      · rw [if_neg self, if_neg fun member => (List.mem_cons.1 member).elim self listed]

/-- A walk that started in `g₀` and has come to `g`: the blocks it has looked into, and those it has
still to look into. -/
structure Sweep (t : Trace) (g₀ : Graph) (root : NodeId) (processed stack : List NodeId)
    (g : Graph) : Prop where
  descent : g.Descent root processed stack
  met : root ∈ stack ++ processed
  alike : g₀.Alike g
  crested : g.Crested t
  /-- No block lies deeper than below the block that lists it. -/
  slack : ∀ {b e x}, g.member? b e = some x → g.isBlock x = true → g.depthOf x ≤ g.depthOf b + 1
  /-- What was not met lies where it lay. -/
  unmet : ∀ {x}, x ∉ stack ++ processed → g.depthOf x = g₀.depthOf x
  origin : g.depthOf root = g₀.depthOf root
  /-- What was met lies below the block as a member of which it was met. -/
  below : ∀ x ∈ stack ++ processed, x = root ∨
    ∃ b ∈ processed, ∃ e, g.member? b e = some x ∧ g.depthOf x = g.depthOf b + 1
  /-- Every member of a block that was looked into was met. -/
  closed : ∀ b ∈ processed, ∀ {e x}, g.member? b e = some x → g.isBlock x = true →
    x ∈ stack ++ processed

namespace Sweep

variable {g₀ : Graph} {processed stack rest : List NodeId}

theorem start (inside : root.index < g.size) (crested : g.Crested t)
    (slack : ∀ {b e x}, g.member? b e = some x → g.isBlock x = true →
      g.depthOf x ≤ g.depthOf b + 1) : g.Sweep t root [] [root] g := by
  refine ⟨.start inside, List.mem_singleton_self root, .refl g, crested, slack, fun _ => rfl, rfl,
    fun x met => .inl (List.mem_singleton.1 met), nofun⟩

/-- The walk looks into one more block. -/
theorem step (sweep : g₀.Sweep t root processed (current :: rest) g) (tidy : g.Tidy t c loose)
    (ordered : t.WellOrdered) (found : g.node? current = some n)
    (deepened : (n.members.values.filter g.isBlock).foldlM
      (fun g id => g.setDepth t id (n.depth + 1)) g = .ok g') :
    g₀.Sweep t root (current :: processed) ((n.members.values.filter g.isBlock).reverse ++ rest)
      g' := by
  obtain ⟨nodup, owned⟩ := tidy.nested_spec found g.isBlock
  have listed : ∀ {x}, x ∈ n.members.values.filter g.isBlock ↔
      (∃ e, g.member? current e = some x) ∧ g.isBlock x = true := by
    intro x
    rw [List.mem_filter, mem_values]
    simp only [member?, shape?_of_node? found, Option.bind_some]
    rfl
  have descent := sweep.descent.step tidy ordered nodup owned
  have depth : g.depthOf current = n.depth := depthOf_of_node? found
  obtain ⟨alike, crested, depths⟩ := foldlM_setDepth_spec tidy
    (fun x member => by
      obtain ⟨⟨e, entry⟩, -⟩ := listed.1 member
      exact ⟨e, (tidy.members.1 entry).1⟩)
    (fun x member => (listed.1 member).2)
    (fun x member => by
      obtain ⟨⟨e, entry⟩, isBlock⟩ := listed.1 member
      exact depth ▸ sweep.slack entry isBlock)
    sweep.crested deepened
  -- what is met by now are the members of the block and what was met before
  have disjoint : ∀ {x}, x ∈ current :: rest ++ processed →
      x ∉ n.members.values.filter g.isBlock := by
    intro x old member
    have nodup := descent.nodup
    rw [List.append_assoc, List.nodup_append'] at nodup
    exact nodup.2.2 (List.mem_reverse.2 member) (List.perm_middle.mem_iff.2 old)
  have met : ∀ {x},
      x ∈ (n.members.values.filter g.isBlock).reverse ++ rest ++ current :: processed ↔
        x ∈ n.members.values.filter g.isBlock ∨ x ∈ current :: rest ++ processed := by
    intro x
    rw [List.append_assoc, List.mem_append, List.mem_reverse, List.perm_middle.mem_iff]
    rfl
  have old : ∀ {x}, x ∈ current :: rest ++ processed → g'.depthOf x = g.depthOf x := by
    intro x member
    rw [depths, if_neg (disjoint member)]
  have isCurrent : g'.depthOf current = n.depth :=
    (old (List.mem_append_left _ List.mem_cons_self)).trans depth
  refine ⟨descent.alike alike, met.2 (.inr sweep.met), sweep.alike.trans alike, crested,
    fun {b e x} entry isBlock => ?_, fun {x} unmet => ?_, (old sweep.met).trans sweep.origin,
    fun x member => ?_, fun b member {e x} entry isBlock => ?_⟩
  · rw [alike.member?] at entry
    rw [alike.outline.isBlock] at isBlock
    by_cases member : x ∈ n.members.values.filter g.isBlock
    · -- the block that lists a node is unique
      have same := (tidy.members.1 entry).2
      rw [owned x member, Option.some.injEq] at same
      subst same
      rw [depths, if_pos member, isCurrent]
    · have before := sweep.slack entry isBlock
      rw [depths, if_neg member, depths]
      split
      · next member' =>
        obtain ⟨⟨e', entry'⟩, isBlock'⟩ := listed.1 member'
        have slack := sweep.slack entry' isBlock'
        omega
      · exact before
  · rw [met, not_or] at unmet
    rw [depths, if_neg unmet.1]
    exact sweep.unmet unmet.2
  · rcases met.1 member with member | member
    · obtain ⟨⟨e, entry⟩, -⟩ := listed.1 member
      refine .inr ⟨current, List.mem_cons_self, e, (alike.member? current e).trans entry, ?_⟩
      rw [depths, if_pos member, isCurrent]
    · refine (sweep.below x member).imp_right ?_
      rintro ⟨b, left, e, entry, below⟩
      refine ⟨b, List.mem_cons_of_mem current left, e, (alike.member? b e).trans entry, ?_⟩
      rw [old member, old (List.mem_append_right _ left), below]
  · rw [alike.member?] at entry
    rw [alike.outline.isBlock] at isBlock
    refine met.2 ?_
    rcases List.mem_cons.1 member with rfl | left
    · exact .inl (listed.2 ⟨⟨e, entry⟩, isBlock⟩)
    · exact .inr (sweep.closed b left entry isBlock)

end Sweep

/-- The walk that brings depths up to date, from its start to its end. -/
theorem refreshDepths_spec {g₀ : Graph} (ordered : t.WellOrdered) (tidy : g₀.Tidy t c loose)
    {count : Nat} {stack processed : List NodeId} (sweep : g₀.Sweep t root processed stack g)
    (refreshed : refreshDepths t count stack g = .ok g') :
    ∃ met, g₀.Sweep t root met [] g' := by
  induction count generalizing g stack processed with
  | zero =>
    obtain ⟨rfl, rfl⟩ | ⟨left, -, -, -, -, impossible, -⟩ := refreshDepths_cases refreshed
    · exact ⟨processed, sweep⟩
    · cases impossible
  | succ count ih =>
    obtain ⟨rfl, rfl⟩ | ⟨left, current, rest, n, g₁, same, rfl, found, deepened, refreshed⟩ :=
      refreshDepths_cases refreshed
    · exact ⟨processed, sweep⟩
    · cases same
      exact ih (sweep.step (tidy.alike sweep.alike) ordered found deepened) refreshed

end Graph

end Inquest
