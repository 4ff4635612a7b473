import Mathlib.Logic.Relation
import Inquest.Proofs.Explanation.History
import Inquest.Proofs.Explanation.Levels

/-!
# What graphs are built of

The nodes of a graph are edited in four ways.  A node is appended, as nobody has seen it; a node
that no block lists joins a block; a node leaves its block; and a node is touched, which means that
its explanation, its depth or something derived from its members changes, but not where it belongs.
Everything that a reader can do is made up of such edits, for every trace.  A control need not be
earlier than its event, and a request may place an event in the middle of placing another one.  The
node that is being placed belongs to no block then, and no edit in between changes this.

What every edit preserves holds of every graph that is met, also in the middle of a request.  In
particular a node that a block lists belongs to this block.

## Main Definitions

* `Node.Touched`, `Node.Fresh` - a change of a node in place, and a node as it is appended
* `Graph.Edit`, `Graph.Edits` - one edit, and edits one after the other
* `Graph.Filed` - what a block lists belongs to it
* `Graph.Work` - edits that leave every node alone that belongs to no block

## Main Statements

* `Graph.Edits.forall_node` - what holds of fresh nodes and what touching preserves, all nodes have
* `Graph.Edits.filed` - edits keep the members of blocks in order
* `Graph.place_work`, `Graph.explain_work`, `Graph.request_work` - requests are made up of edits
* `Answer.work_of_live` - so is all that a reader does
-/

namespace Inquest

variable {t : Trace} {c : Config}

/-! ### Changes of a node -/

namespace Node

variable {n m : Node}

/-- A change of a node that does not concern where the node belongs. -/
inductive Touched (t : Trace) : Node → Node → Prop
  /-- The explanation changes. -/
  | explain {n m : Node} (same : m.body = n.body) : Touched t n m
  /-- The depth of a block is set. -/
  | deepen {n : Node} (isBlock : n.isBlock = true) (depth : Nat) : Touched t n { n with depth }
  /-- A thread block is told of a depth. -/
  | note (n : Node) (block : NodeId) (depth : Nat) : Touched t n (n.noteDepth block depth)
  /-- The path of a branch is resolved. -/
  | resolve (n : Node) : Touched t n (n.resolvePath t.pathFrom?)
  /-- The runs of a loop are regrouped. -/
  | regroup {n : Node} (loop : n.kind.isLoop = true) (runs : List LoopRun) :
      Touched t n { n with kind := .loop runs }

/-- Changes of a node one after the other. -/
abbrev Touches (t : Trace) : Node → Node → Prop := Relation.ReflTransGen (Touched t)

theorem Touched.shape (touched : Touched t n m) : m.shape = n.shape := by
  cases touched with
  | explain same =>
    show m.body.shape = n.body.shape
    rw [same]
  | deepen _ depth => exact (n.sameAs_depth depth).1
  | note block depth => exact (n.sameAs_noteDepth block depth).1
  | resolve => exact (n.sameAs_resolvePath t.pathFrom?).1
  | regroup loop runs => exact (n.sameAs_runs loop runs).1

theorem Touches.shape (touches : Touches t n m) : m.shape = n.shape := by
  induction touches with
  | refl => rfl
  | tail _ touched ih => exact touched.shape.trans ih

/-- A node as it is appended: the node of a recorded event, a loop block or a thread block. -/
inductive Fresh (t : Trace) : Node → Prop
  | event {e : EventId} {r : Record} (recorded : t.record? e = some r) (called : Bool) :
      Fresh t { event := e, kind := .ofEvent r.kind called }
  | loop (first : EventId) : Fresh t (.structural first (.loop []))
  | thread (anchor : EventId) (thread : ThreadId) :
      Fresh t (.structural anchor (.thread thread 0 none))

theorem Fresh.shape (fresh : Fresh t n) : n.shape.owner = none ∧ n.shape.members = ∅ := by
  cases fresh <;> exact ⟨rfl, rfl⟩

end Node

namespace Graph

variable {g g' g'' : Graph} {nested : Placing} {e : EventId} {id b x : NodeId} {n : Node}

/-! ### Edits -/

/-- The nodes of `g'` are those of `g`, touched any number of times. -/
def Retouched (t : Trace) (g g' : Graph) : Prop :=
  ∀ x, Option.Rel (Node.Touches t) (g.node? x) (g'.node? x)

/-- No block lists a node. -/
def Free (g : Graph) (x : NodeId) : Prop := ∀ b e, g.member? b e ≠ some x

/-- One edit of the nodes of a graph. -/
inductive Edit (t : Trace) : Graph → Graph → Prop
  /-- Nodes are touched. -/
  | touch {g g' : Graph} (touched : g.Retouched t g') : Edit t g g'
  /-- A node is appended. -/
  | append {g g' : Graph} {n : Node} (fresh : n.Fresh t) (nodes : g'.nodes = g.nodes.push n) :
      Edit t g g'
  /-- A node that no block lists joins a block. -/
  | link {g : Graph} {id b : NodeId} {n : Node} (found : g.node? id = some n) (free : g.Free id) :
      Edit t g (g.link id b n.event)
  /-- A node leaves its block. -/
  | detach {g g' : Graph} {id : NodeId} (detached : g.detach id = .ok g') : Edit t g g'

/-- Edits one after the other. -/
abbrev Edits (t : Trace) : Graph → Graph → Prop := Relation.ReflTransGen (Edit t)

namespace Retouched

theorem refl (g : Graph) : g.Retouched t g := fun x => by
  cases g.node? x with
  | none => exact .none
  | some n => exact .some .refl

theorem trans (first : g.Retouched t g') (second : g'.Retouched t g'') : g.Retouched t g'' := by
  intro x
  have first := first x
  have second := second x
  revert first second
  cases g.node? x <;> cases g'.node? x <;> cases g''.node? x <;> intro first second <;>
    cases first <;> cases second
  · exact .none
  · next first second => exact .some (first.trans second)

theorem modify {f : Node → Node} (touched : ∀ n, g.node? id = some n → Node.Touched t n (f n)) :
    g.Retouched t (g.modify id f) := by
  intro x
  rw [node?_modify]
  split
  · next self =>
    subst self
    cases found : g.node? x with
    | none => exact .none
    | some n => exact .some (.single (touched n found))
  · exact refl g x

theorem shape? (retouched : g.Retouched t g') (x : NodeId) : g'.shape? x = g.shape? x := by
  have touched := retouched x
  unfold Graph.shape?
  revert touched
  cases g.node? x <;> cases g'.node? x <;> intro touched <;> cases touched
  · rfl
  · next touches => exact congrArg some touches.shape

end Retouched

/-- What holds of all nodes still does when one of them has changed that keeps it. -/
theorem forall_node_modify {P : Node → Prop} {f : Node → Node} (kept : ∀ n, P n → P (f n))
    (start : ∀ x n, g.node? x = some n → P n) : ∀ x n, (g.modify id f).node? x = some n → P n := by
  intro x n found
  rw [node?_modify] at found
  split at found
  · obtain ⟨m, found', rfl⟩ := Option.map_eq_some_iff.1 found
    exact kept m (start x m found')
  · exact start x n found

/-- Every node has a property that fresh nodes have, that touching preserves and that has nothing to
do with where a node belongs. -/
theorem Edits.forall_node {P : Node → Prop}
    (touched : ∀ {n m}, Node.Touched t n m → P n → P m) (fresh : ∀ {n}, n.Fresh t → P n)
    (moved : ∀ (n : Node) (owner : Option NodeId) (members : Std.TreeMap EventId NodeId),
      P n → P { n with owner, members })
    (edits : Edits t g g') (start : ∀ x n, g.node? x = some n → P n) :
    ∀ x n, g'.node? x = some n → P n := by
  induction edits with
  | refl => exact start
  | @tail g₁ g₂ _ edit ih =>
    cases edit with
    | touch retouched =>
      intro x m found
      have touches := retouched x
      rw [found] at touches
      cases found' : g₁.node? x with
      | none =>
        rw [found'] at touches
        cases touches
      | some n =>
        rw [found'] at touches
        obtain ⟨touches⟩ := touches
        exact touches.rec (ih x n found') fun _ touch kept => touched touch kept
    | append isFresh nodes =>
      intro x m found
      rw [node?_push nodes] at found
      split at found
      · cases found
        exact fresh isFresh
      · exact ih x m found
    | link =>
      exact forall_node_modify (fun n kept => moved n n.owner _ kept)
        (forall_node_modify (fun n kept => moved n _ n.members kept) ih)
    | detach detached =>
      obtain ⟨n, -, ⟨-, rfl⟩ | ⟨b, -, rfl⟩⟩ := detach_cases detached
      · exact ih
      · exact forall_node_modify (fun n kept => moved n n.owner _ kept) ih

/-! ### What blocks list -/

/-- What a block lists belongs to it, and is listed under its event. -/
structure Filed (g : Graph) : Prop where
  listed : ∀ {b e x}, g.member? b e = some x →
    ∃ s, g.shape? x = some s ∧ s.anchor = e ∧ s.owner = some b

/-- A node belongs to no block. -/
def Loose (g : Graph) (x : NodeId) : Prop := ∃ s, g.shape? x = some s ∧ s.owner = none

theorem Filed.free (filed : g.Filed) (loose : g.Loose x) : g.Free x := by
  intro b e entry
  obtain ⟨s, found, -, owner⟩ := filed.listed entry
  obtain ⟨s', found', owner'⟩ := loose
  cases found.symm.trans found'
  cases owner.symm.trans owner'

theorem member?_eq_some_iff : g.member? b e = some x ↔
    ∃ s, g.shape? b = some s ∧ s.members[e]? = some x :=
  Option.bind_eq_some_iff

theorem shape?_link (g : Graph) (id b : NodeId) (e : EventId) (x : NodeId) :
    (g.link id b e).shape? x = (g.shape? x).map fun s =>
      { s with
        owner := if x = id then some b else s.owner
        members := if x = b then s.members.insert e id else s.members } := by
  have nodes : (g.link id b e).node? x = ((g.modify id _).modify b _).node? x := rfl
  rw [Graph.shape?, nodes, node?_modify, node?_modify, Graph.shape?]
  cases g.node? x with
  | none => split <;> split <;> rfl
  | some n => split <;> split <;> rfl

theorem shape?_erase (g : Graph) (b : NodeId) (e : EventId) (x : NodeId) :
    (g.modify b fun m => { m with members := m.members.erase e }).shape? x =
      (g.shape? x).map fun s =>
        { s with members := if x = b then s.members.erase e else s.members } := by
  rw [Graph.shape?, node?_modify, Graph.shape?]
  cases g.node? x with
  | none => split <;> rfl
  | some n => split <;> rfl

/-- What blocks list when an entry has been taken out. -/
theorem member?_erase {b' : NodeId} {e' : EventId}
    (entry : (g.modify b fun m => { m with members := m.members.erase e }).member? b' e' =
      some x) : g.member? b' e' = some x ∧ ¬ (b' = b ∧ e' = e) := by
  obtain ⟨s', found', entry⟩ := member?_eq_some_iff.1 entry
  rw [shape?_erase] at found'
  obtain ⟨s, found, rfl⟩ := Option.map_eq_some_iff.1 found'
  simp only at entry
  split at entry
  · rw [Std.TreeMap.getElem?_erase] at entry
    split at entry
    · cases entry
    · next other =>
      exact ⟨member?_eq_some_iff.2 ⟨s, found, entry⟩,
        fun both => other (Ident.compare_eq_iff.2 both.2.symm)⟩
  · next other => exact ⟨member?_eq_some_iff.2 ⟨s, found, entry⟩, fun both => other both.1⟩

theorem Edit.filed (edit : Edit t g g') (filed : g.Filed) : g'.Filed := by
  refine ⟨fun {b e x} entry => ?_⟩
  cases edit with
  | touch retouched =>
    rw [member?, retouched.shape?] at entry
    obtain ⟨s, found, listed⟩ := filed.listed entry
    exact ⟨s, (retouched.shape? x).trans found, listed⟩
  | @append _ n fresh nodes =>
    have shapes : ∀ y, g'.shape? y = if y = ⟨g.size⟩ then some n.shape else g.shape? y := by
      intro y
      rw [Graph.shape?, node?_push nodes]
      split <;> rfl
    rw [member?, shapes] at entry
    split at entry
    · rw [Option.bind_some, fresh.shape.2, Std.TreeMap.getElem?_emptyc] at entry
      cases entry
    · obtain ⟨s, found, listed⟩ := filed.listed entry
      refine ⟨s, ?_, listed⟩
      rw [shapes, if_neg (ne_size_of_shape? found), found]
  | @link id b' n found free =>
    obtain ⟨s', found', entry⟩ := member?_eq_some_iff.1 entry
    rw [shape?_link] at found'
    obtain ⟨s, foundB, rfl⟩ := Option.map_eq_some_iff.1 found'
    simp only at entry
    -- an old entry is not that of the node, which no block lists
    have old : s.members[e]? = some x → ∃ s, (g.link id b' n.event).shape? x = some s ∧
        s.anchor = e ∧ s.owner = some b := by
      intro entry
      have entry : g.member? b e = some x := member?_eq_some_iff.2 ⟨s, foundB, entry⟩
      obtain ⟨s, foundX, anchor, owner⟩ := filed.listed entry
      have other : x ≠ id := fun self => free b e (self ▸ entry)
      refine ⟨_, (shape?_link g id b' n.event x).trans (congrArg _ foundX), anchor, ?_⟩
      simp only [if_neg other, owner]
    split at entry
    · next isBlock =>
      rw [Ident.getElem?_insert] at entry
      split at entry
      · next isNew =>
        cases entry
        refine ⟨_, (shape?_link g x b' n.event x).trans (congrArg _ (shape?_of_node? found)),
          isNew.symm, ?_⟩
        simp only [if_pos, isBlock]
      · exact old entry
    · exact old entry
  | detach detached =>
    obtain ⟨n, found, ⟨-, rfl⟩ | ⟨b', -, rfl⟩⟩ := detach_cases detached
    · exact filed.listed entry
    · obtain ⟨entry, -⟩ := member?_erase entry
      obtain ⟨s, found, anchor, owner⟩ := filed.listed entry
      exact ⟨_, (shape?_erase g b' n.event x).trans (congrArg _ found), anchor, owner⟩

/-- Edits keep the members of blocks in order. -/
theorem Edits.filed (edits : Edits t g g') (filed : g.Filed) : g'.Filed := by
  induction edits with
  | refl => exact filed
  | tail _ edit ih => exact edit.filed ih

theorem filed_empty : ({} : Graph).Filed := by
  refine ⟨fun entry => ?_⟩
  obtain ⟨s, found, -⟩ := member?_eq_some_iff.1 entry
  cases found

/-- No block lists a node that has left its block. -/
theorem Filed.free_of_detach (filed : g.Filed) (detached : g.detach id = .ok g') : g'.Free id := by
  obtain ⟨n, found, ⟨owner, rfl⟩ | ⟨b, owner, rfl⟩⟩ := detach_cases detached
  · exact filed.free ⟨n.shape, shape?_of_node? found, owner⟩
  · intro b' e entry
    obtain ⟨entry, other⟩ := member?_erase entry
    obtain ⟨s, found', anchor, owner'⟩ := filed.listed entry
    cases (shape?_of_node? found).symm.trans found'
    exact other ⟨Option.some.inj (owner'.symm.trans owner), anchor.symm⟩

/-! ### Operations on blocks -/

/-- Setting the depth of a block touches nodes only. -/
theorem retouched_of_setDepth {depth : Nat} (isBlock : g.isBlock id = true)
    (deepened : g.setDepth t id depth = .ok g') : g.Retouched t g' := by
  have set : g.Retouched t (g.modify id fun n => { n with depth }) :=
    .modify fun n found => .deepen ((isBlock_of_node? found).symm.trans isBlock) depth
  obtain ⟨-, -, -, -, ⟨-, rfl⟩ | ⟨root, -, rfl⟩⟩ := setDepth_cases deepened
  · exact set
  · exact set.trans (.modify fun n _ => .note n id depth)

/-- Bringing depths up to date touches nodes only. -/
theorem retouched_of_refreshDepths {count : Nat} {stack : List NodeId}
    (refreshed : refreshDepths t count stack g = .ok g') : g.Retouched t g' :=
  refreshDepths_induction (P := fun g' => g.Retouched t g') (.refl g)
    (fun before isBlock set => before.trans (retouched_of_setDepth isBlock set)) refreshed

/-- Regrouping the members of a loop touches nodes only. -/
theorem retouched_of_recomputeRuns (found : g.node? id = some n) (loop : n.kind.isLoop = true)
    (grouped : g.recomputeRuns t id = .ok g') : g.Retouched t g' := by
  obtain rfl := recomputeRuns_eq found grouped
  have resolved : g.Retouched t (n.members.values.foldl (·.resolvePath t ·) g) :=
    List.foldlRecOn _ _ (.refl g) fun _ before _ _ =>
      before.trans (.modify fun m _ => .resolve m)
  refine resolved.trans (.modify fun m found' => .regroup ?_ _)
  have same := resolved.shape? id
  rw [shape?_of_node? found', shape?_of_node? found, Option.some.injEq] at same
  exact (Node.isLoop_of_shape_eq same).trans loop

theorem Loose.retouched (loose : g.Loose x) (retouched : g.Retouched t g') : g'.Loose x := by
  obtain ⟨s, found, owner⟩ := loose
  exact ⟨s, (retouched.shape? x).trans found, owner⟩

/-- Attaching a node that no block lists is made up of edits, and no other node gets an owner. -/
theorem attach_edits (free : g.Free id) (attached : g.attach t id b = .ok g') :
    Edits t g g' ∧ ∀ x, x ≠ id → g.Loose x → g'.Loose x := by
  obtain ⟨n, m, g₂, found, found', deepened, grouped⟩ := attach_cases attached
  have linked := fun x => shape?_link g id b n.event x
  have deepened : (g.link id b n.event).Retouched t g₂ := by
    split at deepened
    · next isBlock =>
      refine retouched_of_setDepth ?_ deepened
      rw [isBlock_of_shape? ((linked id).trans (congrArg _ (shape?_of_node? found)))]
      exact n.isBlock_shape.trans isBlock
    · cases deepened
      exact .refl _
  have grouped : g₂.Retouched t g' := by
    split at grouped
    · next loop =>
      have shape := (deepened.shape? b).trans
        ((linked b).trans (congrArg _ (shape?_of_node? found')))
      obtain ⟨m₂, found₂, same⟩ := exists_node?_of_shape? shape
      refine retouched_of_recomputeRuns found₂ ?_ grouped
      rw [← m₂.kind.isLoop_bare, show m₂.kind.bare = m.kind.bare from congrArg Shape.kind same,
        m.kind.isLoop_bare]
      exact (Bool.and_eq_true_iff.1 loop).1
    · cases grouped
      exact .refl _
  have touched := deepened.trans grouped
  refine ⟨.tail (.single (.link found free)) (.touch touched), fun x other loose => ?_⟩
  obtain ⟨s, foundX, owner⟩ := loose
  refine Loose.retouched ⟨_, (linked x).trans (congrArg _ foundX), ?_⟩ touched
  simp only [if_neg other, owner]

/-- Moving a node to another block is made up of edits, and no other node gets an owner. -/
theorem rehome_edits (filed : g.Filed) (rehomed : g.rehome t id b = .ok g') :
    Edits t g g' ∧ ∀ x, x ≠ id → g.Loose x → g'.Loose x := by
  unfold rehome at rehomed
  obtain ⟨g₁, detached, rehomed⟩ := bind_eq_ok_iff.1 rehomed
  obtain ⟨g₂, attached, refreshed⟩ := bind_eq_ok_iff.1 rehomed
  obtain ⟨edits, unowned⟩ := attach_edits (filed.free_of_detach detached) attached
  have touched := retouched_of_refreshDepths refreshed
  refine ⟨.tail (.head (.detach detached) edits) (.touch touched), fun x other loose => ?_⟩
  refine (unowned x other ?_).retouched touched
  obtain ⟨n, -, ⟨-, rfl⟩ | ⟨b', -, rfl⟩⟩ := detach_cases detached
  · exact loose
  · obtain ⟨s, foundX, owner⟩ := loose
    exact ⟨_, (shape?_erase g b' n.event x).trans (congrArg _ foundX), owner⟩

/-! ### Placing events -/

/-- Edits that leave every node alone that belongs to no block. -/
structure Work (t : Trace) (g g' : Graph) : Prop where
  edits : Edits t g g'
  loose : ∀ x, g.Loose x → g'.Loose x

/-- Placing events is work. -/
def Works (t : Trace) (nested : Placing) : Prop :=
  ∀ {g e g' id}, g.Filed → nested g e = .ok (g', id) → g.Work t g'

namespace Work

theorem refl (g : Graph) : g.Work t g := ⟨.refl, fun _ loose => loose⟩

theorem trans (first : g.Work t g') (second : g'.Work t g'') : g.Work t g'' :=
  ⟨first.edits.trans second.edits, fun x loose => second.loose x (first.loose x loose)⟩

theorem filed (work : g.Work t g') (filed : g.Filed) : g'.Filed := work.edits.filed filed

theorem touch (retouched : g.Retouched t g') : g.Work t g' :=
  ⟨.single (.touch retouched), fun _ loose => loose.retouched retouched⟩

theorem append (fresh : n.Fresh t) (nodes : g'.nodes = g.nodes.push n) : g.Work t g' := by
  refine ⟨.single (.append fresh nodes), fun x loose => ?_⟩
  obtain ⟨s, found, owner⟩ := loose
  refine ⟨s, ?_, owner⟩
  rw [Graph.shape?, node?_push nodes, if_neg (ne_size_of_shape? found)]
  exact found

end Work

theorem loose_of_push (fresh : n.Fresh t) (nodes : g'.nodes = g.nodes.push n) :
    g'.Loose ⟨g.size⟩ := by
  refine ⟨n.shape, ?_, fresh.shape.1⟩
  rw [shape?, node?_push nodes, if_pos rfl, Option.map_some]

theorem Loose.ne_size (loose : g.Loose x) : x ≠ ⟨g.size⟩ := by
  obtain ⟨s, found, -⟩ := loose
  exact ne_size_of_shape? found

theorem threadBlock_work {thread : ThreadId} (made : g.threadBlock t thread e = (g', b)) :
    g.Work t g' := by
  unfold threadBlock at made
  split at made
  · cases made
    exact .refl _
  · cases made
    exact .append (.thread _ thread) rfl

/-- A new loop block is attached while it belongs to no block, and the node that moves into it
belongs to one. -/
theorem loopBlock_work (works : Works t nested) (filed : g.Filed)
    (made : g.loopBlock t nested e = .ok (g', b)) : g.Work t g' := by
  obtain ⟨rfl, -⟩ | ⟨g₁, anchor, n, -, placed, found, rfl, made⟩ := loopBlock_steps made
  · exact .refl _
  · have placed := works filed placed
    have added : g₁.Work t (g₁.addLoop e) := .append (.loop e) rfl
    obtain ⟨-, rfl⟩ | ⟨outer, g₂, owner, attached, rehomed⟩ := made
    · exact placed.trans added
    · have filed₂ : (g₁.addLoop e).Filed := (placed.trans added).filed filed
      have loose : (g₁.addLoop e).Loose ⟨g₁.size⟩ := loose_of_push (t := t) (.loop e) rfl
      obtain ⟨edits₂, unowned₂⟩ := attach_edits (filed₂.free loose) attached
      obtain ⟨edits₃, unowned₃⟩ := rehome_edits (edits₂.filed filed₂) rehomed
      refine placed.trans ⟨added.edits.trans (edits₂.trans edits₃), fun x loose => ?_⟩
      have notAnchor : x ≠ anchor := by
        rintro rfl
        obtain ⟨s, found', owner'⟩ := loose
        cases (shape?_of_node? found).symm.trans found'
        cases owner.symm.trans owner'
      exact unowned₃ x notAnchor (unowned₂ x loose.ne_size (added.loose x loose))

theorem controlBlock_work (works : Works t nested) (filed : g.Filed)
    (made : g.controlBlock t nested e = .ok (g', b)) : g.Work t g' := by
  obtain ⟨rfl, -⟩ | ⟨g₁, id, n, g₂, -, placed, -, rfl, found⟩ := controlBlock_steps made
  · exact .refl _
  · have left : g.Work t { g₁ with unexplainedControls := id :: g₁.unexplainedControls } :=
      (works filed placed).trans (.touch (Retouched.refl g₁))
    have work : g.Work t g₂ := by
      obtain ⟨-, rfl⟩ | ⟨thread, -, -, found⟩ := found
      · exact left
      · exact left.trans (threadBlock_work found)
    exact work.trans (.touch (Retouched.refl g₂))

theorem blockFor_work (works : Works t nested) (filed : g.Filed)
    (made : g.blockFor t c nested e = .ok (g', b)) : g.Work t g' := by
  obtain ⟨r, -, ⟨-, made⟩ | ⟨k, head, g₁, b₁, thread, -, -, found, -, chosen⟩⟩ :=
    blockFor_cases made
  · exact threadBlock_work made
  · have work : g.Work t g₁ := by
      cases head with
      | none => exact controlBlock_work works filed found
      | some first => exact loopBlock_work works filed found
    split at chosen
    · cases chosen
      exact work
    · exact work.trans (threadBlock_work chosen)

/-- The node of an event belongs to no block until its block is found, and is attached then. -/
theorem create_work (works : Works t nested) (filed : g.Filed)
    (created : g.create t c nested e = .ok g') : g.Work t g' := by
  obtain ⟨r, g₁, block, recorded, found, attached⟩ := create_cases created
  have fresh : Node.Fresh t _ := .event recorded (r.kind.isInvocation && t.startsNext e)
  have added : g.Work t (g.addEvent t e r.kind) := .append fresh rfl
  have placed : (g.addEvent t e r.kind).Work t g₁ := blockFor_work works (added.filed filed) found
  have loose : (g.addEvent t e r.kind).Loose ⟨g.size⟩ := loose_of_push fresh rfl
  have work := added.trans placed
  obtain ⟨edits, unowned⟩ :=
    attach_edits ((work.filed filed).free (placed.loose _ loose)) attached
  exact ⟨work.edits.trans edits, fun x loose => unowned x loose.ne_size (work.loose x loose)⟩

/-- Placing an event is made up of edits, however deep the placements are nested. -/
theorem works_placeWithin (t : Trace) (c : Config) (depth : Nat) :
    Works t (placeWithin t c depth) := by
  induction depth with
  | zero =>
    intro g e g' id filed placed
    cases known : g.nodeOf[e]? with
    | some _ =>
      rw [hits_placeWithin t c _ known] at placed
      cases placed
      exact .refl _
    | none =>
      simp only [placeWithin, known] at placed
      cases placed
  | succ depth ih =>
    intro g e g' id filed placed
    cases known : g.nodeOf[e]? with
    | some _ =>
      rw [hits_placeWithin t c _ known] at placed
      cases placed
      exact .refl _
    | none =>
      rw [placeWithin_succ known] at placed
      obtain ⟨order, -, placed⟩ := bind_eq_ok_iff.1 placed
      obtain ⟨g₁, made, placed⟩ := bind_eq_ok_iff.1 placed
      obtain ⟨_, -, placed⟩ := bind_eq_ok_iff.1 placed
      cases placed
      refine foldlM_induction (P := fun g' => g.Work t g') (.refl g) ?_ made
      intro e' g₂ g₃ _ before step
      by_cases cached : g₂.Cached e'
      · rw [ensure_of_cached cached] at step
        cases step
        exact before
      · rw [ensure_of_not_cached cached] at step
        exact before.trans (create_work ih (before.filed filed) step)

/-! ### Explaining nodes -/

theorem place_work (filed : g.Filed) (placed : g.place t c e = .ok (g', id)) : g.Work t g' :=
  works_placeWithin t c (t.size + 1) filed placed

theorem causeFor_work (filed : g.Filed) {d : Dependency} {cause : Cause}
    (found : g.causeFor t c d = .ok (g', cause)) : g.Work t g' := by
  unfold causeFor at found
  split at found <;>
  · obtain ⟨source, -, found⟩ := bind_eq_ok_iff.1 found
    obtain ⟨⟨g₁, node⟩, placed, found⟩ := bind_eq_ok_iff.1 found
    cases found
    exact place_work filed placed

theorem gather_work (filed : g.Filed) {ds : List Dependency} {causes : List Cause}
    (gathered : g.gather t c ds = .ok (g', causes)) : g.Work t g' := by
  induction ds generalizing g causes with
  | nil =>
    cases gathered
    exact .refl _
  | cons d rest ih =>
    obtain ⟨⟨g₁, cause⟩, found, gathered⟩ := bind_eq_ok_iff.1 gathered
    obtain ⟨⟨g₂, others⟩, gathered', gathered⟩ := bind_eq_ok_iff.1 gathered
    cases gathered
    have work := causeFor_work filed found
    exact work.trans (ih (work.filed filed) gathered')

theorem explainNode_work (filed : g.Filed) {fresh : List NodeId}
    (explained : g.explainNode t c id = .ok (g', fresh)) : g.Work t g' := by
  unfold explainNode at explained
  obtain ⟨n, -, explained⟩ := bind_eq_ok_iff.1 explained
  obtain ⟨r, -, explained⟩ := bind_eq_ok_iff.1 explained
  obtain ⟨⟨g₁, causes⟩, gathered, explained⟩ := bind_eq_ok_iff.1 explained
  obtain ⟨_, -, explained⟩ := bind_eq_ok_iff.1 explained
  cases explained
  have begun : g.Work t (g.modify id fun n => { n with status := .inProgress }) :=
    .touch (.modify fun _ _ => .explain rfl)
  have work := begun.trans (gather_work (begun.filed filed) gathered)
  exact work.trans (.touch (.modify fun _ _ => .explain rfl))

theorem explainPending_work (filed : g.Filed) {count : Nat} {pending : List NodeId}
    (worked : explainPending t c count pending g = .ok g') : g.Work t g' :=
  explainPending_induction (P := fun g' => g.Work t g') (.refl g)
    (fun before => before.trans (.touch (Retouched.refl _)))
    (fun before _ explained => before.trans (explainNode_work (before.filed filed) explained))
    worked

theorem explain_work (filed : g.Filed) (explained : g.explain t c e = .ok (g', id)) :
    g.Work t g' := by
  obtain ⟨⟨g₁, id'⟩, placed, explained⟩ := bind_eq_ok_iff.1 explained
  obtain ⟨g₂, worked, explained⟩ := bind_eq_ok_iff.1 explained
  cases explained
  have work := place_work filed placed
  exact work.trans (explainPending_work (work.filed filed) worked)

theorem request_work (filed : g.Filed) (requested : g.request t c e = .ok (g', id)) :
    g.Work t g' := by
  obtain ⟨⟨g₁, id'⟩, placed, requested⟩ := bind_eq_ok_iff.1 requested
  have work := place_work filed placed
  cases controls : g₁.unexplainedControls with
  | nil =>
    simp only [controls] at requested
    cases requested
    exact work
  | cons latest others =>
    simp only [controls] at requested
    obtain ⟨g₂, worked, requested⟩ := bind_eq_ok_iff.1 requested
    cases requested
    have begun : g.Work t { g₁ with unexplainedControls := others } :=
      work.trans (.touch (Retouched.refl g₁))
    exact begun.trans (explainPending_work (begun.filed filed) worked)

end Graph

namespace Answer

variable {a a' : Answer}

/-! ### Sessions -/

/-- A request is made up of edits. -/
theorem work_of_perform {call : Call} {deliveries : List Delivery} (filed : a.graph.Filed)
    (performed : a.perform call = .ok (a', deliveries)) :
    a'.trace = a.trace ∧ a.graph.Work a.trace a'.graph := by
  have concluded : ∀ {g : Graph}, a.graph.Work a.trace g →
      a.graph.Work a.trace g.flush.1 := fun work => work.trans (.touch (Graph.Retouched.refl _))
  have explained : ∀ {e : EventId} {outcome : Outcome NodeId}, a.explain e = .ok outcome →
      outcome.answer.trace = a.trace ∧ a.graph.Work a.trace outcome.answer.graph := by
    intro e outcome succeeds
    obtain ⟨⟨graph, id⟩, explained, same⟩ := bind_eq_ok_iff.1 succeeds
    cases same
    exact ⟨rfl, concluded (Graph.explain_work filed explained)⟩
  cases call with
  | explain e =>
    obtain ⟨outcome, succeeds, same⟩ := map_eq_ok_iff.1 performed
    cases same
    exact explained succeeds
  | request e =>
    obtain ⟨outcome, succeeds, same⟩ := map_eq_ok_iff.1 performed
    cases same
    obtain ⟨⟨graph, id⟩, requested, same⟩ := bind_eq_ok_iff.1 succeeds
    cases same
    exact ⟨rfl, concluded (Graph.request_work filed requested)⟩
  | terminals e =>
    obtain ⟨outcome, succeeds, same⟩ := map_eq_ok_iff.1 performed
    cases same
    obtain ⟨outcome', succeeds', found⟩ := bind_eq_ok_iff.1 succeeds
    obtain ⟨terminals, -, found⟩ := bind_eq_ok_iff.1 found
    cases found
    exact explained succeeds'

/-- So is any action. -/
theorem work_of_act {action : Action} {report : Report} (filed : a.graph.Filed)
    (acted : a.act action = .ok (a', report)) :
    a'.trace = a.trace ∧ a.graph.Work a.trace a'.graph := by
  cases action with
  | call asked =>
    obtain ⟨deliveries, performed, -⟩ := act_call_eq_ok acted
    exact work_of_perform filed performed
  | take | listen | prioritize _ =>
    cases acted
    exact ⟨rfl, .touch (Graph.Retouched.refl a.graph)⟩
  | follow id =>
    obtain ⟨a₁, acted', same | resolved⟩ := exists_act_follow a id
    · cases acted.symm.trans acted'
      rw [same]
      exact ⟨rfl, .refl _⟩
    · cases acted.symm.trans acted'
      rw [resolved]
      exact ⟨rfl, .touch (.modify fun n _ => .resolve n)⟩

/-- All that a reader does is made up of edits. -/
theorem work_of_live {actions : List Action} {reports : List Report} (filed : a.graph.Filed)
    (lived : a.live actions = .ok (a', reports)) :
    a'.trace = a.trace ∧ a.graph.Work a.trace a'.graph := by
  induction actions generalizing a reports with
  | nil =>
    cases lived
    exact ⟨rfl, .refl _⟩
  | cons action rest ih =>
    obtain ⟨a₁, report, others, acted, lived', -⟩ := live_cons_eq_ok lived
    obtain ⟨trace, work⟩ := work_of_act filed acted
    obtain ⟨trace', work'⟩ := ih (work.filed filed) lived'
    rw [trace] at trace' work'
    exact ⟨trace', work.trans work'⟩

/-- A graph that a session leads to is made up of edits of the empty graph. -/
theorem edits_of_live {counter : AnswerCounter} {actions : List Action} {reports : List Report}
    (lived : (new t c counter).1.live actions = .ok (a, reports)) :
    a.trace = t ∧ Graph.Edits t {} a.graph := by
  obtain ⟨trace, work⟩ := work_of_live Graph.filed_empty lived
  exact ⟨trace, work.edits⟩

end Answer

end Inquest
