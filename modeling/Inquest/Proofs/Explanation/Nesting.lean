import Inquest.Proofs.Explanation.Contents
import Inquest.Proofs.Explanation.History
import Inquest.Proofs.Explanation.Levels

/-!
# How deep a block lies

The depth of a block is kept, not computed.  A loop block that is made late pushes everything under
the event that starts the loop one level down, and the walk that brings the depths up to date goes
along the members.  No block lists a loop block, so the walk passes by the loop blocks that were
made before: a loop block keeps the depth that it got when it was made, and what lies in it keeps
its distance to it.

So the depth that is kept falls short of the nesting by the *late* loop blocks, those around a block
that were made after a loop block within them.  Blocks are numbered in the order in which they are
made, so the late ones can be read off the way up.

## Main Definitions

* `Graph.loopsAround` - the loop blocks on the way up from a block
* `countLate` - how many of them were made after one within them
* `Graph.Leveled`, `Graph.Measured` - the invariant

## Main Statements

* `Graph.Leveled.depth_add` - depth and late loop blocks make up the nesting
* `Graph.Measured.enclosed` - a new loop block keeps the invariant
* `Answer.depth_add_countLate` - the depths in an answer, after any requests
-/

namespace Inquest

/-! ### Late loop blocks -/

/-- The number of blocks, listed from the outside in, that were made after one within them. -/
def countLate : List NodeId → Nat
  | [] => 0
  | outer :: inner => (if ∃ b ∈ inner, b.index < outer.index then 1 else 0) + countLate inner

/-- The latest block of all is late itself if there is one within it, and makes no other block
late. -/
theorem countLate_insert {outside inside : List NodeId} {a : NodeId}
    (latest : ∀ b ∈ outside ++ inside, b.index < a.index) :
    countLate (outside ++ a :: inside) =
      countLate (outside ++ inside) + if inside = [] then 0 else 1 := by
  induction outside with
  | nil =>
    have late : (∃ b ∈ inside, b.index < a.index) ↔ inside ≠ [] := by
      constructor
      · rintro ⟨b, member, -⟩ rfl
        exact List.not_mem_nil member
      · intro some
        obtain ⟨b, member⟩ := List.exists_mem_of_ne_nil inside some
        exact ⟨b, member, latest b member⟩
    rw [List.nil_append, List.nil_append, countLate, Nat.add_comm]
    simp only [late, ne_eq, ite_not]
  | cons outer rest ih =>
    have latest' : ∀ b ∈ rest ++ inside, b.index < a.index := fun b member =>
      latest b (List.mem_cons_of_mem outer member)
    have outerLate : (∃ b ∈ rest ++ a :: inside, b.index < outer.index) ↔
        ∃ b ∈ rest ++ inside, b.index < outer.index := by
      have below := latest outer List.mem_cons_self
      constructor
      · rintro ⟨b, member, before⟩
        refine ⟨b, ?_, before⟩
        rcases List.mem_append.1 member with member | member
        · exact List.mem_append_left _ member
        · rcases List.mem_cons.1 member with rfl | member
          · omega
          · exact List.mem_append_right _ member
      · rintro ⟨b, member, before⟩
        refine ⟨b, ?_, before⟩
        rcases List.mem_append.1 member with member | member
        · exact List.mem_append_left _ member
        · exact List.mem_append_right _ (List.mem_cons_of_mem a member)
    rw [List.cons_append, List.cons_append, countLate, countLate, ih latest', ← Nat.add_assoc]
    simp only [outerLate]

/-- No block is late exactly if they were made from the outside in. -/
theorem countLate_eq_zero_iff {blocks : List NodeId} :
    countLate blocks = 0 ↔ blocks.Pairwise fun outer inner => outer.index ≤ inner.index := by
  induction blocks with
  | nil => simp [countLate]
  | cons outer inner ih =>
    rw [countLate, Nat.add_eq_zero_iff, ih, List.pairwise_cons]
    refine and_congr_left fun _ => ?_
    constructor
    · intro onTime b member
      refine Nat.le_of_not_lt fun before => ?_
      rw [if_pos ⟨b, member, before⟩] at onTime
      cases onTime
    · intro before
      rw [if_neg]
      rintro ⟨b, member, after⟩
      exact absurd after (Nat.not_lt.2 (before b member))

namespace Graph

variable {g g' : Graph} {t : Trace} {c : Config} {loose loose' : Option EventId}
variable {e f : EventId} {id b x root anchor outer : NodeId} {n m : Node} {p : Place} {s : Shape}
variable {r : Record} {steps : Nat}

/-! ### The way up -/

/-- Whether a node is a loop block. -/
def isLoopBlock (g : Graph) (x : NodeId) : Bool :=
  match g.place? x with
  | some (.loop _) => true
  | _ => false

/-- The loop blocks that are met from a node on by going to the owner a number of times, the
outermost first. -/
def loopsAround (g : Graph) : Nat → NodeId → List NodeId
  | 0, x => [x].filter g.isLoopBlock
  | steps + 1, x => (g.owner? x).elim [] (g.loopsAround steps) ++ [x].filter g.isLoopBlock

theorem loopsAround_succ (owned : g.owner? x = some b) (steps : Nat) :
    g.loopsAround (steps + 1) x = g.loopsAround steps b ++ [x].filter g.isLoopBlock := by
  rw [loopsAround, owned, Option.elim_some]

theorem isLoopBlock_of_place? (place : g.place? x = some (.loop f)) : g.isLoopBlock x = true := by
  rw [isLoopBlock, place]

theorem lt_size_of_isLoopBlock (isLoop : g.isLoopBlock x = true) : x.index < g.size := by
  unfold isLoopBlock at isLoop
  cases place : g.place? x with
  | none =>
    rw [place] at isLoop
    cases isLoop
  | some p =>
    obtain ⟨s, found, -⟩ := exists_shape?_of_place? place
    exact lt_size_of_shape? found

theorem lt_size_of_mem_loopsAround (member : b ∈ g.loopsAround steps x) : b.index < g.size := by
  have last : ∀ {y}, b ∈ [y].filter g.isLoopBlock → b.index < g.size := fun member =>
    lt_size_of_isLoopBlock (List.mem_filter.1 member).2
  induction steps generalizing x with
  | zero => exact last member
  | succ steps ih =>
    rw [loopsAround] at member
    rcases List.mem_append.1 member with member | member
    · cases owner : g.owner? x with
      | none =>
        rw [owner] at member
        exact absurd member List.not_mem_nil
      | some y =>
        rw [owner] at member
        exact ih member
    · exact last member

/-- The way up depends on owners only, and the loop blocks on it on what the nodes stand for. -/
theorem climb?_congr (owners : ∀ x, g'.owner? x = g.owner? x) : g'.climb? = g.climb? := by
  funext steps
  induction steps with
  | zero => rfl
  | succ steps ih =>
    funext x
    rw [climb?, climb?, owners, ih]

theorem loopsAround_congr (owners : ∀ x, g'.owner? x = g.owner? x)
    (loops : ∀ x, g'.isLoopBlock x = g.isLoopBlock x) : g'.loopsAround = g.loopsAround := by
  have same : g'.isLoopBlock = g.isLoopBlock := funext loops
  funext steps
  induction steps with
  | zero =>
    funext x
    rw [loopsAround, loopsAround, same]
  | succ steps ih =>
    funext x
    rw [loopsAround, loopsAround, owners, ih, same]

/-! ### Depths and nesting -/

/-- The depths fit the owners.  A thread block lies at the top, the node of an event one level below
its owner, and a loop block as deep as it is nested but for the late loop blocks around it. -/
structure Leveled (g : Graph) : Prop where
  thread : ∀ {x thread}, g.place? x = some (.thread thread) → g.depthOf x = 0
  event : ∀ {x e b}, g.place? x = some (.event e) → g.isBlock x = true → g.owner? x = some b →
    g.depthOf x = g.depthOf b + 1
  loop : ∀ {x f steps root}, g.place? x = some (.loop f) → g.climb? steps x = some root →
    g.owner? root = none → g.depthOf x + countLate (g.loopsAround steps x) = steps

/-- Every block but a loose one lies as deep as it is nested but for the late loop blocks around
it.  The induction is on the way up. -/
theorem Leveled.depth_add (leveled : g.Leveled) (tidy : g.Tidy t c loose) (ordered : t.WellOrdered)
    (idle : ∀ {x e id}, loose = some e → g.nodeOf[e]? = some id → g.owner? x ≠ some id)
    (place : g.place? x = some p) (notLoose : ∀ e, loose = some e → p ≠ .event e)
    (isBlock : g.isBlock x = true) (climbs : g.climb? steps x = some root)
    (isRoot : g.owner? root = none) : g.depthOf x + countLate (g.loopsAround steps x) = steps := by
  induction steps generalizing x p with
  | zero =>
    obtain rfl := Option.some.inj climbs
    cases p with
    | loop f => exact leveled.loop place climbs isRoot
    | event e =>
      obtain ⟨b, owned⟩ := tidy.exists_owner? (tidy.registered.2 place)
        fun same => notLoose e same rfl
      rw [isRoot] at owned
      cases owned
    | thread thread =>
      rw [leveled.thread place, loopsAround, List.filter_singleton, isLoopBlock, place]
      rfl
  | succ steps ih =>
    obtain ⟨b, owned, climbs'⟩ := Option.bind_eq_some_iff.1 climbs
    cases p with
    | loop f => exact leveled.loop place climbs isRoot
    | event e =>
      obtain ⟨s, found, -⟩ := exists_shape?_of_place? place
      obtain ⟨m, foundB, isBlockB, -⟩ := tidy.owner_rank ordered found owned
      have placeB := place?_of_shape? foundB
      have notLooseB : ∀ e, loose = some e → m.place ≠ .event e := by
        intro e same isEvent
        rw [isEvent] at placeB
        exact idle same (tidy.registered.2 placeB) owned
      have above := ih placeB notLooseB (isBlock_iff.2 ⟨m, foundB, isBlockB⟩) climbs'
      have noLoop : [x].filter g.isLoopBlock = [] := by
        rw [List.filter_singleton, isLoopBlock, place]
        rfl
      rw [loopsAround_succ owned, noLoop, List.append_nil, leveled.event place isBlock owned]
      omega
    | thread thread =>
      rw [tidy.owner place] at owned
      cases owned

/-- The depths of a graph are in order, with crests. -/
structure Measured (t : Trace) (loose : Option EventId) (g : Graph) : Prop extends Leveled g where
  crested : g.Crested t
  /-- There is a block for every thread on which a node has found its place. -/
  rooted : ∀ {x p thread}, g.place? x = some p → (∀ e, loose = some e → p ≠ .event e) →
    p.thread? t = some thread → ∃ root, g.threadBlocks[thread]? = some root
  /-- Nothing belongs to the loose event. -/
  idle : ∀ {x e id}, loose = some e → g.nodeOf[e]? = some id → g.owner? x ≠ some id
  /-- The loose event lies nowhere yet. -/
  fresh : ∀ {e id}, loose = some e → g.nodeOf[e]? = some id → g.depthOf id = 0

/-! ### Changes of explanations -/

namespace SameBodies

variable (same : g.SameBodies g')

include same

/-- A view of nodes that does not depend on explanations is as it was. -/
theorem map_node? {β : Type} (view : Node → β) (bodies : ∀ n : Node, view n.body = view n)
    (x : NodeId) : (g'.node? x).map view = (g.node? x).map view := by
  have map := congrArg (Option.map view) (same.body? x)
  simp only [Option.map_map] at map
  have composed : view ∘ Node.body = view := funext bodies
  rwa [composed] at map

theorem shape? (x : NodeId) : g'.shape? x = g.shape? x := same.map_node? Node.shape (fun _ => rfl) x

theorem place? (x : NodeId) : g'.place? x = g.place? x := by
  rw [Graph.place?, Graph.place?, same.shape?]

theorem owner? (x : NodeId) : g'.owner? x = g.owner? x := by
  rw [Graph.owner?, Graph.owner?, same.shape?]

theorem isBlock (x : NodeId) : g'.isBlock x = g.isBlock x :=
  Bool.eq_iff_iff.2 (by rw [isBlock_iff, isBlock_iff, same.shape?])

theorem isLoopBlock (x : NodeId) : g'.isLoopBlock x = g.isLoopBlock x := by
  rw [Graph.isLoopBlock, Graph.isLoopBlock, same.place?]

theorem depths : g.SameDepths g' := by
  constructor <;> intro x
  · rw [depthOf, depthOf, same.map_node? Node.depth fun _ => rfl]
  · rw [crest?, crest?, same.map_node? (fun n => n.kind.crest?) fun _ => rfl]

end SameBodies

theorem Measured.sameBodies (measured : g.Measured t loose) (same : g.SameBodies g') :
    g'.Measured t loose := by
  have depths := same.depths
  refine ⟨⟨fun {x thread} place => ?_, fun {x e b} place isBlock owned => ?_,
    fun {x f steps root} place climbs isRoot => ?_⟩,
    measured.crested.congr (fun x => by rw [same.shape?]) depths,
    fun {x p thread} place notLoose onThread => ?_, fun {x e id} isLoose known => ?_,
    fun {e id} isLoose known => ?_⟩
  · rw [same.place?] at place
    rw [depths.depthOf]
    exact measured.thread place
  · rw [same.place?] at place
    rw [same.isBlock] at isBlock
    rw [same.owner?] at owned
    rw [depths.depthOf, depths.depthOf]
    exact measured.event place isBlock owned
  · rw [same.place?] at place
    rw [climb?_congr same.owner?] at climbs
    rw [same.owner?] at isRoot
    rw [depths.depthOf, loopsAround_congr same.owner? same.isLoopBlock]
    exact measured.loop place climbs isRoot
  · rw [same.place?] at place
    rw [same.threadBlocks]
    exact measured.rooted place notLoose onThread
  · rw [same.nodeOf] at known
    rw [same.owner?]
    exact measured.idle isLoose known
  · rw [same.nodeOf] at known
    rw [depths.depthOf]
    exact measured.fresh isLoose known

/-! ### Appended nodes -/

theorem Appended.place?_old (appended : g.Appended s g') (old : x ≠ ⟨g.size⟩) :
    g'.place? x = g.place? x := by
  rw [place?, place?, appended.old old]

/-- A node that belongs nowhere and is no loop block can be appended. -/
theorem Leveled.appended (leveled : g.Leveled) (appended : g.Appended s g')
    (unowned : s.owner = none) (notLoop : ∀ first, s.place ≠ .loop first)
    (depths : ∀ x, g'.depthOf x = g.depthOf x) : g'.Leveled := by
  have owners := appended.owner? unowned
  have missing : g.place? ⟨g.size⟩ = none := by rw [place?, shape?, node?_size]; rfl
  have place : g'.place? ⟨g.size⟩ = some s.place := place?_of_shape? appended.new
  have loops : ∀ x, g'.isLoopBlock x = g.isLoopBlock x := by
    intro x
    by_cases old : x = ⟨g.size⟩
    · rw [old, isLoopBlock, isLoopBlock, missing, place]
      cases isLoop : s.place with
      | loop first => exact absurd isLoop (notLoop first)
      | event e => rfl
      | thread thread => rfl
    · rw [isLoopBlock, isLoopBlock, appended.place?_old old]
  constructor
  · intro x thread isThread
    rw [depths]
    by_cases old : x = ⟨g.size⟩
    · rw [old, depthOf_size]
    · rw [appended.place?_old old] at isThread
      exact leveled.thread isThread
  · intro x e b isEvent isBlock owned
    have old : x ≠ ⟨g.size⟩ := by
      rintro rfl
      rw [owner?_of_shape? appended.new, unowned] at owned
      cases owned
    rw [appended.place?_old old] at isEvent
    rw [isBlock_iff, appended.old old, ← isBlock_iff] at isBlock
    rw [owners] at owned
    rw [depths, depths]
    exact leveled.event isEvent isBlock owned
  · intro x f steps root isLoop climbs isRoot
    have old : x ≠ ⟨g.size⟩ := by
      rintro rfl
      rw [place, Option.some.injEq] at isLoop
      exact notLoop f isLoop
    rw [appended.place?_old old] at isLoop
    rw [climb?_congr owners] at climbs
    rw [owners] at isRoot
    rw [depths, loopsAround_congr owners loops]
    exact leveled.loop isLoop climbs isRoot

theorem Tidy.ne_size_of_event (tidy : g.Tidy t c loose) (known : g.nodeOf[e]? = some x) :
    x ≠ ⟨g.size⟩ := by
  obtain ⟨s, r, found, -⟩ := tidy.shape?_of_event known
  exact ne_size_of_shape? found

/-- Nothing belongs to a node that is yet to be made. -/
theorem Tidy.owner?_ne_size (tidy : g.Tidy t c loose) (ordered : t.WellOrdered)
    (owned : g.owner? x = some b) : b ≠ ⟨g.size⟩ := by
  obtain ⟨s, found⟩ := exists_shape?_of_owner? owned
  obtain ⟨m, found', -⟩ := tidy.owner_rank ordered found owned
  exact ne_size_of_shape? found'

/-- An event gets a node. -/
theorem Measured.addEvent (measured : g.Measured t none) (tidy : g.Tidy t c none)
    (ordered : t.WellOrdered) (kind : EventKind) :
    (g.addEvent t e kind).Measured t (some e) := by
  have appended := appended_addEvent g t e kind
  have isEvent : Shape.place
      { kind := .ofEvent kind (kind.isInvocation && t.startsNext e), anchor := e } =
        .event e := NodeKind.place_ofEvent _ _ e
  have depths : ∀ x, (g.addEvent t e kind).depthOf x = g.depthOf x := depthOf_push rfl rfl
  have crests : ∀ x, (g.addEvent t e kind).crest? x = if x = ⟨g.size⟩ then _ else g.crest? x :=
    crest?_push rfl
  have known : (g.addEvent t e kind).nodeOf[e]? = some ⟨g.size⟩ := Std.TreeMap.getElem?_insert_self
  refine ⟨measured.toLeveled.appended appended rfl (by rw [isEvent]; nofun) depths,
    measured.crested.appended appended depths (depthOf_size g)
      (fun x old => by rw [crests, if_neg old]) (fun {crest} new => ?_) (by rw [isEvent]; nofun),
    fun {x p thread} place notLoose onThread => ?_, fun {x e' id} isLoose known' owned => ?_,
    fun {e' id} isLoose known' => ?_⟩
  · rw [crests, if_pos rfl] at new
    cases kind <;> cases new
  · have old : x ≠ ⟨g.size⟩ := by
      rintro rfl
      rw [place?_of_shape? appended.new, isEvent, Option.some.injEq] at place
      exact notLoose e rfl place.symm
    rw [appended.place?_old old] at place
    exact measured.rooted place nofun onThread
  · obtain rfl := Option.some.inj isLoose
    obtain rfl := Option.some.inj (known.symm.trans known')
    rw [appended.owner? rfl] at owned
    exact tidy.owner?_ne_size ordered owned rfl
  · obtain rfl := Option.some.inj isLoose
    obtain rfl := Option.some.inj (known.symm.trans known')
    rw [depths, depthOf_size]

/-- A thread gets a block. -/
theorem Measured.addThread {thread : ThreadId} {first : EventId} (measured : g.Measured t loose)
    (tidy : g.Tidy t c loose) (unknown : g.threadBlocks[thread]? = none) :
    (g.addThread thread first).Measured t loose := by
  have appended := appended_addThread g thread first
  have depths : ∀ x, (g.addThread thread first).depthOf x = g.depthOf x := depthOf_push rfl rfl
  have crests : ∀ x, (g.addThread thread first).crest? x =
      if x = ⟨g.size⟩ then some (0, none) else g.crest? x :=
    crest?_push (n := Node.structural first (.thread thread 0 none)) rfl
  have grows := appended.grows unknown
  refine ⟨measured.toLeveled.appended appended rfl nofun depths,
    measured.crested.appended appended depths (depthOf_size g)
      (fun x old => by rw [crests, if_neg old]) (fun {crest} new => ?_)
      (fun {thread' x p} isThread place onThread => ?_),
    fun {x p thread'} place notLoose onThread => ?_, fun {x e id} isLoose known => ?_,
    fun {e id} isLoose known => ?_⟩
  · rw [crests, if_pos rfl] at new
    exact (Option.some.inj new).symm
  · -- only the loose event can be on a thread without a block
    obtain rfl := Place.thread.inj isThread
    by_cases isLoose : ∃ e, loose = some e ∧ p = .event e
    · obtain ⟨e, isLoose, rfl⟩ := isLoose
      exact measured.fresh isLoose (tidy.registered.2 place)
    · obtain ⟨root, known⟩ := measured.rooted place
        (fun e same isEvent => isLoose ⟨e, same, isEvent⟩) onThread
      rw [unknown] at known
      cases known
  · by_cases old : x = ⟨g.size⟩
    · subst old
      rw [place?_of_shape? appended.new, Option.some.injEq] at place
      subst place
      obtain rfl := Option.some.inj onThread
      exact ⟨⟨g.size⟩, Std.TreeMap.getElem?_insert_self⟩
    · rw [appended.place?_old old] at place
      obtain ⟨root, known⟩ := measured.rooted place notLoose onThread
      exact ⟨root, grows.at? (p := .thread thread') known⟩
  · rw [appended.owner? rfl]
    exact measured.idle isLoose known
  · rw [depths]
    exact measured.fresh isLoose known

/-! ### The loose event finds its block -/

/-- The way up from any other node does not lead through a node that owns nothing. -/
theorem climb?_of_idle (owners : ∀ x, g'.owner? x = if x = id then some b else g.owner? x)
    (idle : ∀ x, g.owner? x ≠ some id) (loops : ∀ x, g'.isLoopBlock x = g.isLoopBlock x)
    (other : x ≠ id) (steps : Nat) :
    g'.climb? steps x = g.climb? steps x ∧ g'.loopsAround steps x = g.loopsAround steps x := by
  have same : g'.isLoopBlock = g.isLoopBlock := funext loops
  induction steps generalizing x with
  | zero => exact ⟨rfl, by rw [loopsAround, loopsAround, same]⟩
  | succ steps ih =>
    have owner : g'.owner? x = g.owner? x := by rw [owners, if_neg other]
    rw [climb?, climb?, loopsAround, loopsAround, owner, same]
    cases above : g.owner? x with
    | none => exact ⟨rfl, rfl⟩
    | some y =>
      have notSelf : y ≠ id := by
        rintro rfl
        exact idle x above
      obtain ⟨climbs, around⟩ := ih notSelf
      exact ⟨climbs, by rw [Option.elim_some, Option.elim_some, around]⟩

/-- The loose event joins its block. -/
theorem Measured.adopted (measured : g.Measured t (some e)) (tidy : g.Tidy t c (some e))
    (ordered : t.WellOrdered) (known : g.nodeOf[e]? = some id) (target : g.target? t c e = some b)
    (attached : g.attach t id b = .ok g') : g'.Measured t none := by
  obtain ⟨n, m, r, found, rfl, foundB, different, recorded, linked⟩ :=
    adopting_spec tidy ordered known target attached
  have outline := linked.outline (shape?_of_node? found) (shape?_of_node? foundB) different
  have owners := linked.owner? (shape?_of_node? found) (shape?_of_node? foundB) different
  have place := tidy.place?_of_event known
  have idle : ∀ x, g.owner? x ≠ some id := fun x => measured.idle rfl known
  have loops : ∀ x, g'.isLoopBlock x = g.isLoopBlock x := fun x => by
    rw [isLoopBlock, isLoopBlock, outline.place?]
  have onThread : n.shape.place.thread? t = some r.thread := by
    rw [Option.some.inj ((place?_of_shape? (shape?_of_node? found)).symm.trans place)]
    exact congrArg (Option.map Record.thread) recorded
  obtain ⟨crested, depth⟩ := measured.crested.attached tidy.registered outline found different
    recorded onThread (fun _ => by rw [measured.fresh rfl known]; exact Nat.zero_le _) attached
  have depths : ∀ x, x ≠ id → g'.depthOf x = g.depthOf x := fun x other => by
    rw [depth, if_neg fun both => other both.1]
  refine ⟨⟨fun {x thread} isThread => ?_, fun {x e b'} isEvent isBlock owned => ?_,
    fun {x f steps root} isLoop climbs isRoot => ?_⟩, crested,
    fun {x p thread} place' _ onThread' => ?_, nofun, nofun⟩
  · rw [outline.place?] at isThread
    rw [depths x]
    · exact measured.thread isThread
    · rintro rfl
      cases place.symm.trans isThread
  · rw [outline.place?] at isEvent
    rw [outline.isBlock] at isBlock
    rw [owners] at owned
    split at owned
    · next self =>
      subst self
      obtain rfl := Option.some.inj owned
      rw [isBlock_of_node? found] at isBlock
      rw [depths b different, depth, if_pos ⟨rfl, isBlock⟩]
    · next other =>
      have notSelf : b' ≠ id := by
        rintro rfl
        exact idle x owned
      rw [depths x other, depths b' notSelf]
      exact measured.event isEvent isBlock owned
  · rw [outline.place?] at isLoop
    have other : x ≠ id := by
      rintro rfl
      cases place.symm.trans isLoop
    obtain ⟨climbs', around⟩ := climb?_of_idle owners idle loops other steps
    rw [owners] at isRoot
    split at isRoot
    · cases isRoot
    · rw [depths x other, around]
      exact measured.loop isLoop (climbs'.symm.trans climbs) isRoot
  · rw [outline.place?] at place'
    rw [linked.threadBlocks]
    by_cases self : p = .event n.event
    · -- the event is on the thread of its block, which has found its place
      subst self
      obtain ⟨q, placeB, onThreadB⟩ := tidy.target?_thread ordered recorded target
      have same : some r.thread = some thread :=
        (congrArg (Option.map Record.thread) recorded).symm.trans onThread'
      obtain rfl := Option.some.inj same
      refine measured.rooted placeB (fun e isLoose isEvent => different ?_) onThreadB
      obtain rfl := Option.some.inj isLoose
      exact tidy.unique (isEvent ▸ placeB) place
    · refine measured.rooted place' (fun e isLoose isEvent => self ?_) onThread'
      rw [isEvent, Option.some.inj isLoose]

/-! ### A loop gets a block -/

namespace Enclosed

theorem alike {g₄ : Graph} (enclosed : g.Enclosed f anchor outer g₄) (alike : g₄.Alike g') :
    g.Enclosed f anchor outer g' := by
  obtain ⟨g₁, appended, rearranged⟩ := enclosed.appended
  refine ⟨⟨g₁, appended, rearranged.trans ⟨alike.toKeeps, alike.outline⟩⟩, fun x => ?_,
    fun x e => ?_⟩
  · rw [Graph.owner?, alike.shape?]
    exact enclosed.owner? x
  · rw [alike.member?]
    exact enclosed.member? x e

variable (enclosed : g.Enclosed f anchor outer g')

include enclosed

theorem place?_new : g'.place? ⟨g.size⟩ = some (.loop f) := by
  obtain ⟨g₁, appended, rearranged⟩ := enclosed.appended
  rw [rearranged.outline.place?, place?_of_shape? appended.new]
  rfl

theorem place?_old (old : x ≠ ⟨g.size⟩) : g'.place? x = g.place? x := by
  obtain ⟨g₁, appended, rearranged⟩ := enclosed.appended
  rw [rearranged.outline.place?, appended.place?_old old]

theorem owner?_new (old : anchor ≠ ⟨g.size⟩) : g'.owner? ⟨g.size⟩ = some outer := by
  rw [enclosed.owner?, if_neg old.symm, if_pos rfl]

theorem isBlock_old (old : x ≠ ⟨g.size⟩) : g'.isBlock x = g.isBlock x := by
  obtain ⟨g₁, appended, rearranged⟩ := enclosed.appended
  rw [rearranged.outline.isBlock]
  exact Bool.eq_iff_iff.2 (by rw [isBlock_iff, isBlock_iff, appended.old old])

theorem isLoopBlock (x : NodeId) :
    g'.isLoopBlock x = if x = ⟨g.size⟩ then true else g.isLoopBlock x := by
  split
  · next isNew => rw [isNew, isLoopBlock_of_place? enclosed.place?_new]
  · next old => rw [Graph.isLoopBlock, Graph.isLoopBlock, enclosed.place?_old old]

end Enclosed

section Enclosing

variable (tidy : g.Tidy t c loose) (ordered : t.WellOrdered)
variable (owned : g.owner? anchor = some outer) (enclosed : g.Enclosed f anchor outer g')

include tidy ordered enclosed

/-- What comes before the event that starts the loop is as it was on the whole way up. -/
theorem climb?_above (above : g.rank x < g.rank anchor) (old : x ≠ ⟨g.size⟩) (steps : Nat) :
    g'.climb? steps x = g.climb? steps x ∧ g'.loopsAround steps x = g.loopsAround steps x := by
  have last : ∀ {y}, y ≠ ⟨g.size⟩ → [y].filter g'.isLoopBlock = [y].filter g.isLoopBlock := by
    intro y old
    rw [List.filter_singleton, List.filter_singleton, enclosed.isLoopBlock, if_neg old]
  induction steps generalizing x with
  | zero => exact ⟨rfl, last old⟩
  | succ steps ih =>
    have other : x ≠ anchor := by
      rintro rfl
      exact Nat.lt_irrefl _ above
    have owner : g'.owner? x = g.owner? x := by rw [enclosed.owner?, if_neg other, if_neg old]
    rw [climb?, climb?, loopsAround, loopsAround, owner, last old]
    cases known : g.owner? x with
    | none => exact ⟨rfl, rfl⟩
    | some y =>
      obtain ⟨climbs, around⟩ := ih (Nat.lt_trans (tidy.rank_lt ordered known) above)
        (tidy.owner?_ne_size ordered known)
      exact ⟨climbs, by rw [Option.elim_some, Option.elim_some, around]⟩

include owned

/-- The way up from a node is as it was, or leads through the new block, one step longer than
before.  From a loop block the new block is not the first one to be met. -/
theorem climb?_cases (old : x ≠ ⟨g.size⟩) (climbs : g'.climb? steps x = some root)
    (isRoot : g'.owner? root = none) :
    g.owner? root = none ∧
      (g.climb? steps x = some root ∧ g'.loopsAround steps x = g.loopsAround steps x ∨
        ∃ before outside inside, steps = before + 1 ∧ g.climb? before x = some root ∧
          g.loopsAround before x = outside ++ inside ∧
          g'.loopsAround steps x = outside ++ ⟨g.size⟩ :: inside ∧
          (g.isLoopBlock x = true → inside ≠ [])) := by
  have last : [x].filter g'.isLoopBlock = [x].filter g.isLoopBlock := by
    rw [List.filter_singleton, List.filter_singleton, enclosed.isLoopBlock, if_neg old]
  have isRoot' : g.owner? root = none := by
    rw [enclosed.owner?] at isRoot
    split at isRoot
    · cases isRoot
    · split at isRoot
      · cases isRoot
      · exact isRoot
  refine ⟨isRoot', ?_⟩
  induction steps generalizing x with
  | zero =>
    refine .inl ⟨climbs, ?_⟩
    rw [loopsAround, loopsAround, last]
  | succ steps ih =>
    obtain ⟨y, owner, climbs'⟩ := Option.bind_eq_some_iff.1 climbs
    by_cases isAnchor : x = anchor
    · -- the way goes on to the new block, and from there to the outer one
      subst isAnchor
      rw [enclosed.owner?, if_pos rfl, Option.some.injEq] at owner
      subst owner
      have next := enclosed.owner?_new old
      cases steps with
      | zero =>
        obtain rfl := Option.some.inj climbs'
        rw [next] at isRoot
        cases isRoot
      | succ steps =>
        rw [climb?_succ next] at climbs'
        obtain ⟨same, around⟩ := climb?_above tidy ordered enclosed
          (tidy.rank_lt ordered owned) (tidy.owner?_ne_size ordered owned) steps
        have self : g'.owner? x = some ⟨g.size⟩ := by rw [enclosed.owner?, if_pos rfl]
        refine .inr ⟨steps + 1, g.loopsAround steps outer, [x].filter g.isLoopBlock, rfl, ?_,
          loopsAround_succ owned steps, ?_, ?_⟩
        · rw [climb?_succ owned, ← same, climbs']
        · rw [loopsAround_succ self, loopsAround_succ next, around, last, List.filter_singleton,
            enclosed.isLoopBlock, if_pos rfl]
          simp
        · intro isLoop
          rw [List.filter_singleton, isLoop]
          exact List.cons_ne_nil _ _
    · have known : g.owner? x = some y := by
        rwa [enclosed.owner?, if_neg isAnchor, if_neg old] at owner
      have oldY := tidy.owner?_ne_size ordered known
      have lastY : [y].filter g'.isLoopBlock = [y].filter g.isLoopBlock := by
        rw [List.filter_singleton, List.filter_singleton, enclosed.isLoopBlock, if_neg oldY]
      rcases ih oldY climbs' lastY with ⟨same, around⟩ |
        ⟨before, outside, inner, rfl, same, around, around', -⟩
      · refine .inl ⟨(climb?_succ known steps).trans same, ?_⟩
        rw [loopsAround_succ owner, loopsAround_succ known, around, last]
      · refine .inr ⟨before + 1, outside, inner ++ [x].filter g.isLoopBlock, rfl,
          (climb?_succ known before).trans same, ?_, ?_, ?_⟩
        · rw [loopsAround_succ known, around, List.append_assoc]
        · rw [loopsAround_succ owner, around', last, List.append_assoc, List.cons_append]
        · intro isLoop
          rw [List.filter_singleton, isLoop]
          simp

end Enclosing

/-- The depths when a loop block has been put around an event, before they are brought up to date:
the new block lies one level below the outer one, and the event, if it is a block, one level below
the new one. -/
theorem Measured.enclosing_depths {g₂ g₃ g₄ : Graph} (measured : g.Measured t loose)
    (tidy : g.Tidy t c loose) (ordered : t.WellOrdered) (unknown : g.loopBlocks[f]? = none)
    (known : g.nodeOf[f]? = some anchor) (owned : g.owner? anchor = some outer)
    (attached : (g.addLoop f).attach t ⟨g.size⟩ outer = .ok g₂)
    (detached : g₂.detach anchor = .ok g₃) (joined : g₃.attach t anchor ⟨g.size⟩ = .ok g₄)
    (moved : (g.addLoop f).Rearranged g₂) (moved₃ : g₂.Rearranged g₃) (moved₄ : g₃.Rearranged g₄) :
    g₄.Crested t ∧ g₄.depthOf ⟨g.size⟩ = g.depthOf outer + 1 ∧
      (g.isBlock anchor = true → g₄.depthOf anchor = g.depthOf outer + 2) ∧
      ∀ x, x ≠ ⟨g.size⟩ → x ≠ anchor → g₄.depthOf x = g.depthOf x := by
  obtain ⟨s, r, found, place, rfl, recorded, -⟩ := tidy.shape?_of_event known
  have anchorNew : anchor ≠ ⟨g.size⟩ := ne_size_of_shape? found
  have outerNew := tidy.owner?_ne_size ordered owned
  have onThread : (t.record? s.anchor).map Record.thread = some r.thread :=
    congrArg (Option.map Record.thread) recorded
  -- the loop block is appended, and lies nowhere
  have appended := appended_addLoop g s.anchor
  have depths₁ : ∀ x, (g.addLoop s.anchor).depthOf x = g.depthOf x :=
    depthOf_push (n := Node.structural s.anchor (.loop [])) rfl rfl
  have crests₁ : ∀ x, (g.addLoop s.anchor).crest? x = if x = ⟨g.size⟩ then none else g.crest? x :=
    crest?_push (n := Node.structural s.anchor (.loop [])) rfl
  have crested₁ : (g.addLoop s.anchor).Crested t :=
    measured.crested.appended appended depths₁ (depthOf_size g)
      (fun x old => by rw [crests₁, if_neg old])
      (fun new => by rw [crests₁, if_pos rfl] at new; cases new) nofun
  have registered₁ : ∀ {p x}, (g.addLoop s.anchor).at? p = some x ↔
      (g.addLoop s.anchor).place? x = some p := appended.registered tidy unknown _ _
  -- it joins the outer block
  have isNew : (g.addLoop s.anchor).node? ⟨g.size⟩ =
      some (Node.structural s.anchor (.loop [])) := by
    rw [node?_push rfl, if_pos rfl]
  obtain ⟨crested₂, depths₂⟩ := crested₁.attached registered₁ moved.outline isNew outerNew recorded
    onThread (fun _ => by rw [depths₁, depthOf_size]; exact Nat.zero_le _) attached
  -- the event leaves the outer block, and joins the loop block
  have same₃ := sameDepths_of_detach detached
  have depths₃ : ∀ x, g₃.depthOf x = if x = ⟨g.size⟩ then g.depthOf outer + 1 else g.depthOf x := by
    intro x
    rw [same₃.depthOf, depths₂, depths₁, depths₁]
    exact if_congr (and_iff_left rfl) rfl rfl
  obtain ⟨s₃, found₃, kind₃, anchor₃⟩ :=
    (moved.trans moved₃).outline.shape? (appended.shape? found)
  obtain ⟨n₃, node₃, rfl⟩ := exists_node?_of_shape? found₃
  have recorded₃ : t.record? n₃.event = some r := (congrArg t.record? anchor₃).trans recorded
  have isBlock : n₃.isBlock = g.isBlock anchor := by
    rw [← n₃.isBlock_shape, Shape.isBlock, kind₃, ← Shape.isBlock, isBlock_of_shape? found]
  have registered₃ : ∀ {p x}, g₃.at? p = some x ↔ g₃.place? x = some p := by
    intro p x
    rw [(moved.trans moved₃).at?, (moved.trans moved₃).outline.place?]
    exact registered₁
  have onThread₃ : n₃.shape.place.thread? t = some r.thread := by
    rw [Shape.place, kind₃, anchor₃, ← Shape.place, place]
    exact onThread
  have mono : n₃.isBlock = true → g₃.depthOf anchor ≤ g₃.depthOf ⟨g.size⟩ + 1 := by
    intro nested
    have depth := measured.event (place?_of_shape? found |>.trans (congrArg some place))
      (isBlock.symm.trans nested) owned
    rw [depths₃, depths₃, if_neg anchorNew, if_pos rfl, depth]
    omega
  obtain ⟨crested₄, depths₄⟩ := (crested₂.congr moved₃.outline same₃).attached registered₃
    moved₄.outline node₃ anchorNew.symm recorded₃ onThread₃ mono joined
  refine ⟨crested₄, ?_, fun nested => ?_, fun x old other => ?_⟩
  · rw [depths₄, if_neg fun both => anchorNew both.1.symm, depths₃, if_pos rfl]
  · rw [depths₄, if_pos ⟨rfl, isBlock.trans nested⟩, depths₃, if_pos rfl]
  · rw [depths₄, if_neg fun both => other both.1, depths₃, if_neg old]

section Refreshing

variable {g₂ g₃ g₄ : Graph} (measured : g.Measured t loose) (tidy : g.Tidy t c loose)
variable (tidy₄ : g₄.Tidy t c loose) (ordered : t.WellOrdered)
variable (known : g.nodeOf[f]? = some anchor) (owned : g.owner? anchor = some outer)
variable (enclosed : g.Enclosed f anchor outer g₄)
variable (depthNew : g₄.depthOf ⟨g.size⟩ = g.depthOf outer + 1)
variable (depthAnchor : g.isBlock anchor = true → g₄.depthOf anchor = g.depthOf outer + 2)
variable (depths : ∀ x, x ≠ ⟨g.size⟩ → x ≠ anchor → g₄.depthOf x = g.depthOf x)

include measured tidy tidy₄ ordered known owned enclosed depthNew depthAnchor depths

/-- Before the depths are brought up to date, no block lies deeper than below the block that lists
it. -/
theorem enclosing_slack (entry : g₄.member? b e = some x) (isBlock : g₄.isBlock x = true) :
    g₄.depthOf x ≤ g₄.depthOf b + 1 := by
  obtain ⟨known', owner⟩ := tidy₄.members.1 entry
  rw [enclosed.nodeOf] at known'
  have place := tidy.place?_of_event known'
  have old := tidy.ne_size_of_event known'
  rw [enclosed.isBlock_old old] at isBlock
  rw [enclosed.owner?] at owner
  by_cases self : x = anchor
  · rw [if_pos self, Option.some.injEq] at owner
    rw [self] at isBlock
    rw [self, ← owner, depthAnchor isBlock, depthNew]
  · rw [if_neg self, if_neg old] at owner
    rw [depths x old self, measured.event place isBlock owner]
    by_cases isAnchor : b = anchor
    · subst isAnchor
      obtain ⟨s, found, -⟩ := exists_shape?_of_place? place
      obtain ⟨m, found', isBlock', -⟩ := tidy.owner_rank ordered found owner
      have isBlock' := isBlock_iff.2 ⟨m, found', isBlock'⟩
      rw [depthAnchor isBlock', measured.event (tidy.place?_of_event known) isBlock' owned]
      omega
    · rw [depths b (tidy.owner?_ne_size ordered owner) isAnchor]

/-- When they have been brought up to date, the nodes of events lie one level below their owners,
and no other node has moved. -/
theorem enclosing_refreshed (crested : g₄.Crested t)
    (refreshed : refreshDepths t g₄.size [anchor] g₄ = .ok g') :
    g'.Crested t ∧ g'.depthOf ⟨g.size⟩ = g.depthOf outer + 1 ∧
      (∀ x, x ≠ ⟨g.size⟩ → (∀ e, g.place? x = some (.event e) → g.owner? x = none) →
        g'.depthOf x = g.depthOf x) ∧
      ∀ {x e b}, g'.place? x = some (.event e) → g'.isBlock x = true → g'.owner? x = some b →
        g'.depthOf x = g'.depthOf b + 1 := by
  have inside : anchor.index < g₄.size :=
    tidy₄.lt_size_of_at? (p := .event f) ((enclosed.nodeOf f).trans known)
  obtain ⟨met, sweep⟩ := refreshDepths_spec ordered tidy₄ (Sweep.start inside crested
    (enclosing_slack measured tidy tidy₄ ordered known owned enclosed depthNew depthAnchor
      depths)) refreshed
  have alike := sweep.alike
  have tidy' := tidy₄.alike alike
  have owners := (enclosed.alike alike).owner?
  have isAnchor := tidy.place?_of_event known
  have anchorNew := tidy.ne_size_of_event known
  -- whatever is met is the node of an event, and belongs to a block
  have listed : ∀ x ∈ met, x = anchor ∨ x ≠ ⟨g.size⟩ ∧ ∃ e b, g.place? x = some (.event e) ∧
      g.owner? x = some b ∧ g'.owner? x = some b ∧ g'.depthOf x = g'.depthOf b + 1 := by
    intro x member
    refine or_iff_not_imp_left.2 fun other => ?_
    obtain ⟨b, -, e, entry, depth⟩ := (sweep.below x member).resolve_left other
    obtain ⟨known', owner⟩ := tidy'.members.1 entry
    rw [alike.nodeOf, enclosed.nodeOf] at known'
    have place := tidy.place?_of_event known'
    have old := tidy.ne_size_of_event known'
    have owner' := owner
    rw [owners, if_neg other, if_neg old] at owner'
    exact ⟨old, e, b, place, owner', owner, depth⟩
  have unmet : ∀ x, x ∉ met → g'.depthOf x = g₄.depthOf x := fun x member => sweep.unmet member
  have newUnmet : (⟨g.size⟩ : NodeId) ∉ met := fun member =>
    (listed _ member).elim (fun same => anchorNew same.symm) fun old => old.1 rfl
  refine ⟨sweep.crested, (unmet _ newUnmet).trans depthNew, fun x old still => ?_,
    fun {x e b} place isBlock owner => ?_⟩
  · have notAnchor : x ≠ anchor := by
      rintro rfl
      rw [still f isAnchor] at owned
      cases owned
    rw [unmet x, depths x old notAnchor]
    intro member
    obtain ⟨-, e, b, place, owner, -⟩ := (listed x member).resolve_left notAnchor
    rw [still e place] at owner
    cases owner
  · have places : g'.place? x = g₄.place? x := alike.outline.place? x
    rw [places] at place
    rw [alike.outline.isBlock] at isBlock
    obtain ⟨-, isLoop⟩ | ⟨old, place'⟩ := enclosed.place?_cases place
    · cases isLoop
    by_cases member : x ∈ met
    · rcases listed x member with self | ⟨-, -, b', -, -, owner', depth⟩
      · -- the event that starts the loop lies below the new block
        rw [owners, if_pos self, Option.some.injEq] at owner
        rw [enclosed.isBlock_old old, self] at isBlock
        rw [← owner, unmet _ newUnmet, depthNew, self, sweep.origin, depthAnchor isBlock]
      · rw [Option.some.inj (owner.symm.trans owner'), depth]
    · -- what is not met belongs to a block that is not met either
      have known' : g'.nodeOf[e]? = some x := tidy'.registered.2 (places.trans place)
      have member' : b ∉ met := fun member' => member (sweep.closed b member'
        (tidy'.members.2 ⟨known', owner⟩) ((alike.outline.isBlock x).trans isBlock))
      have notAnchor : x ≠ anchor := fun self => member (self ▸ sweep.met)
      have notAnchor' : b ≠ anchor := fun self => member' (self ▸ sweep.met)
      rw [owners, if_neg notAnchor, if_neg old] at owner
      rw [enclosed.isBlock_old old] at isBlock
      rw [unmet x member, unmet b member', depths x old notAnchor,
        depths b (tidy.owner?_ne_size ordered owner) notAnchor',
        measured.event place' isBlock owner]

end Refreshing

/-- The new block lies as deep as it is nested but for the late loop blocks around it: what was made
before it is no later than it. -/
theorem enclosing_new (measured : g.Measured t loose) (tidy : g.Tidy t c loose)
    (ordered : t.WellOrdered) (owned : g.owner? anchor = some outer)
    (enclosed : g.Enclosed f anchor outer g') (depth : g'.depthOf ⟨g.size⟩ = g.depthOf outer + 1)
    (climbs : g'.climb? steps ⟨g.size⟩ = some root) (isRoot : g'.owner? root = none) :
    g'.depthOf ⟨g.size⟩ + countLate (g'.loopsAround steps ⟨g.size⟩) = steps := by
  obtain ⟨s, found⟩ := exists_shape?_of_owner? owned
  obtain ⟨m, foundOuter, isBlock, -⟩ := tidy.owner_rank ordered found owned
  have anchorNew := ne_size_of_shape? found
  have outerNew := ne_size_of_shape? foundOuter
  have owner := enclosed.owner?_new anchorNew
  cases steps with
  | zero =>
    obtain rfl := Option.some.inj climbs
    rw [owner] at isRoot
    cases isRoot
  | succ steps =>
    rw [climb?_succ owner] at climbs
    obtain ⟨isRoot', -⟩ := climb?_cases tidy ordered owned enclosed outerNew climbs isRoot
    obtain ⟨climbs', around⟩ :=
      climb?_above tidy ordered enclosed (tidy.rank_lt ordered owned) outerNew steps
    have place := place?_of_shape? foundOuter
    have notLoose : ∀ e, loose = some e → m.place ≠ .event e := by
      intro e isLoose isEvent
      rw [isEvent] at place
      exact measured.idle isLoose (tidy.registered.2 place) owned
    have above := measured.toLeveled.depth_add tidy ordered measured.idle place notLoose
      (isBlock_iff.2 ⟨m, foundOuter, isBlock⟩) (climbs'.symm.trans climbs) isRoot'
    have latest : ∀ b ∈ g.loopsAround steps outer ++ [], b.index < (⟨g.size⟩ : NodeId).index := by
      rw [List.append_nil]
      exact fun b => lt_size_of_mem_loopsAround
    have last : [(⟨g.size⟩ : NodeId)].filter g'.isLoopBlock = [⟨g.size⟩] := by
      rw [List.filter_singleton, enclosed.isLoopBlock, if_pos rfl]
      rfl
    rw [loopsAround_succ owner, around, last, depth, countLate_insert latest, if_pos rfl,
      List.append_nil]
    omega

/-- The depths when the loop that the loose event iterates has got a block: the new block lies one
level below the outer one, the nodes of events lie one level below their owners, and no other node
has moved. -/
theorem Measured.enclosed_depths {g₂ : Graph} (measured : g.Measured t (some e))
    (tidy : g.Tidy t c (some e)) (ordered : t.WellOrdered) (cached : g.Cached e)
    (iterates : t.loopOf? c e = some f) (unknown : g.loopBlocks[f]? = none)
    (known : g.nodeOf[f]? = some anchor) (owned : g.owner? anchor = some outer)
    (attached : (g.addLoop f).attach t ⟨g.size⟩ outer = .ok g₂)
    (rehomed : g₂.rehome t anchor ⟨g.size⟩ = .ok g') :
    g.Enclosed f anchor outer g' ∧ g'.Crested t ∧
      g'.depthOf ⟨g.size⟩ = g.depthOf outer + 1 ∧
      (∀ x, x ≠ ⟨g.size⟩ → (∀ e, g.place? x = some (.event e) → g.owner? x = none) →
        g'.depthOf x = g.depthOf x) ∧
      ∀ {x e b}, g'.place? x = some (.event e) → g'.isBlock x = true → g'.owner? x = some b →
        g'.depthOf x = g'.depthOf b + 1 := by
  obtain ⟨g₃, g₄, detached, joined, moved, moved₃, moved₄, enclosed, tidy₄, refreshed, alike⟩ :=
    enclosing_spec tidy ordered cached iterates unknown known owned attached rehomed
  obtain ⟨crested₄, depthNew, depthAnchor, depths₄⟩ := measured.enclosing_depths tidy ordered
    unknown known owned attached detached joined moved moved₃ moved₄
  exact ⟨enclosed.alike alike, enclosing_refreshed measured tidy tidy₄ ordered known owned enclosed
    depthNew depthAnchor depths₄ crested₄ refreshed⟩

/-- The loop that the loose event iterates gets a block. -/
theorem Measured.enclosed {g₂ : Graph} (measured : g.Measured t (some e))
    (tidy : g.Tidy t c (some e)) (ordered : t.WellOrdered) (cached : g.Cached e)
    (iterates : t.loopOf? c e = some f) (unknown : g.loopBlocks[f]? = none)
    (known : g.nodeOf[f]? = some anchor) (owned : g.owner? anchor = some outer)
    (attached : (g.addLoop f).attach t ⟨g.size⟩ outer = .ok g₂)
    (rehomed : g₂.rehome t anchor ⟨g.size⟩ = .ok g') : g'.Measured t (some e) := by
  obtain ⟨enclosed, crested, depthNew', still, event⟩ := measured.enclosed_depths tidy ordered
    cached iterates unknown known owned attached rehomed
  refine ⟨⟨fun {x thread} isThread => ?_, event, fun {x f' steps root} isLoop climbs isRoot => ?_⟩,
    crested, fun {x p thread} place notLoose onThread => ?_,
    fun {x e' id} isLoose known' owner => ?_, fun {e' id} isLoose known' => ?_⟩
  · obtain ⟨-, isLoop⟩ | ⟨old, isThread⟩ := enclosed.place?_cases isThread
    · cases isLoop
    rw [still x old fun e place => by cases isThread.symm.trans place]
    exact measured.thread isThread
  · rcases enclosed.place?_cases isLoop with ⟨rfl, -⟩ | ⟨old, isLoop⟩
    · exact enclosing_new measured tidy ordered owned enclosed depthNew' climbs isRoot
    · rw [still x old fun e place => by cases isLoop.symm.trans place]
      obtain ⟨isRoot', unchanged | through⟩ :=
        climb?_cases tidy ordered owned enclosed old climbs isRoot
      · obtain ⟨climbs', around⟩ := unchanged
        rw [around]
        exact measured.loop isLoop climbs' isRoot'
      · -- the new block is late, for the loop block was made before it
        obtain ⟨before, outside, inside, rfl, climbs', around, around', met⟩ := through
        have depth := measured.loop isLoop climbs' isRoot'
        have latest : ∀ b ∈ outside ++ inside, b.index < (⟨g.size⟩ : NodeId).index := by
          rw [← around]
          exact fun b => lt_size_of_mem_loopsAround
        rw [around', countLate_insert latest, if_neg (met (isLoopBlock_of_place? isLoop)), ← around]
        omega
  · have threads : g'.threadBlocks[thread]? = g.threadBlocks[thread]? :=
      enclosed.at? (.thread thread)
    rw [threads]
    rcases enclosed.place?_cases place with ⟨-, rfl⟩ | ⟨-, place⟩
    · refine measured.rooted (tidy.place?_of_event known) (fun e' isLoose same => ?_) onThread
      rw [tidy.owner (tidy.place?_of_event known), ownerFor, isLoose, Place.event.inj same,
        if_pos rfl] at owned
      cases owned
    · exact measured.rooted place notLoose onThread
  · rw [enclosed.nodeOf] at known'
    rw [enclosed.owner?] at owner
    split at owner
    · exact tidy.ne_size_of_event known' (Option.some.inj owner).symm
    · split at owner
      · exact measured.idle isLoose known' (owned.trans owner)
      · exact measured.idle isLoose known' owner
  · rw [enclosed.nodeOf] at known'
    rw [still id (tidy.ne_size_of_event known'), measured.fresh isLoose known']
    · intro e'' place
      rw [tidy.owner (tidy.place?_of_event known'), ownerFor, isLoose, if_pos rfl]

/-! ### Every graph -/

theorem measured_empty (t : Trace) : ({} : Graph).Measured t none := by
  have noPlace : ∀ x p, ({} : Graph).place? x ≠ some p := by
    intro x p place
    rw [place?, shape?, node?, Array.getElem?_empty] at place
    cases place
  have noCrest : ∀ root crest, ({} : Graph).crest? root ≠ some crest := by
    intro root crest known
    rw [crest?, node?, Array.getElem?_empty] at known
    cases known
  have noLoose : ∀ e : EventId, none ≠ some e := fun e isLoose => by cases isLoose
  exact ⟨⟨fun place => absurd place (noPlace _ _), fun place => absurd place (noPlace _ _),
    fun place => absurd place (noPlace _ _)⟩, ⟨fun place => absurd place (noPlace _ _),
    fun crest => absurd crest (noCrest _ _), fun place => absurd place (noPlace _ _)⟩,
    fun place => absurd place (noPlace _ _), fun isLoose => absurd isLoose (noLoose _),
    fun isLoose => absurd isLoose (noLoose _)⟩

/-- Whatever changes lead to, its depths are in order. -/
theorem Leads.measured {Q : Graph → Graph → Prop} (leads : Leads t c Q none {} none g)
    (ordered : t.WellOrdered) : g.Measured t none :=
  leads.preserves (P := fun loose g => g.Measured t loose)
    (fun measured same => measured.sameBodies same)
    (fun tidy measured _ _ => measured.addEvent tidy ordered _)
    (fun tidy measured _ unknown => measured.addThread tidy unknown)
    (fun tidy measured cached iterates unknown known owned attached rehomed =>
      measured.enclosed tidy ordered cached iterates unknown known owned attached rehomed)
    (fun tidy measured known target attached =>
      measured.adopted tidy ordered known target attached)
    (tidy_empty t c) (measured_empty t)

end Graph

/-! ### Answers -/

namespace Answer

/-- Whatever is asked of a fresh answer, the way up from a block ends at the block of its thread.
The depth of the block falls short of the number of steps by the loop blocks on the way that were
made after a loop block within them, so it is that number exactly if the loop blocks on the way were
made from the outside in.  The block of a thread knows the greatest depth of a block on the thread,
and a block that reaches it. -/
theorem depth_add_countLate (t : Trace) (c : Config) (ordered : t.WellOrdered)
    (counter : AnswerCounter) (calls : List Call)
    (inside : ∀ call ∈ calls, call.event.index < t.size) :
    ∃ a, (new t c counter).1.run calls = .ok a ∧
      (∀ x n, a.graph.node x = .ok n → n.isBlock = true →
        (∃ steps root m thread, a.graph.climb? steps x = some root ∧ a.graph.node root = .ok m ∧
          m.place = .thread thread ∧ n.place.thread? t = some thread) ∧
        ∀ steps root m thread, a.graph.climb? steps x = some root → a.graph.node root = .ok m →
          m.place = .thread thread → n.depth + countLate (a.graph.loopsAround steps x) = steps ∧
            (n.depth = steps ↔ (a.graph.loopsAround steps x).Pairwise fun outer inner =>
              outer.index ≤ inner.index)) ∧
      ∀ root m thread maxDepth deepest, a.graph.node root = .ok m →
        m.kind = .thread thread maxDepth deepest →
        (∀ x n, a.graph.node x = .ok n → n.place.thread? t = some thread → n.depth ≤ maxDepth) ∧
        (deepest = none → maxDepth = 0) ∧
        ∀ x, deepest = some x → ∃ n, a.graph.node x = .ok n ∧ n.isBlock = true ∧
          n.place.thread? t = some thread ∧ n.depth = maxDepth := by
  obtain ⟨a, succeeds, reached⟩ := (orderly_new t c counter).run ordered inside
  have tidy := reached.tidy
  have measured := (leads_of_run ordered inside succeeds).measured ordered
  have place : ∀ {x n}, a.graph.node x = .ok n → a.graph.place? x = some n.place := fun found =>
    Graph.place?_of_node? (Graph.node_eq_ok_iff.1 found)
  have depth : ∀ {x n}, a.graph.node x = .ok n → a.graph.depthOf x = n.depth := fun found =>
    Graph.depthOf_of_node? (Graph.node_eq_ok_iff.1 found)
  refine ⟨a, succeeds, fun x n found isBlock =>
    ⟨?_, fun steps root m thread climbs found' isRoot => ?_⟩,
    fun root m thread maxDepth deepest found kind => ?_⟩
  · obtain ⟨steps, root, thread, climbs, isRoot, onThread⟩ := tidy.climb_spec ordered (place found)
    obtain ⟨s, shape, isThread⟩ := Graph.exists_shape?_of_place? isRoot
    obtain ⟨m, found', rfl⟩ := Graph.exists_node?_of_shape? shape
    exact ⟨steps, root, m, thread, climbs, Graph.node_eq_ok_iff.2 found',
      m.place_shape.symm.trans isThread, onThread⟩
  · have block : a.graph.isBlock x = true := Graph.isBlock_iff.2
      ⟨n.shape, Graph.shape?_of_node? (Graph.node_eq_ok_iff.1 found), n.isBlock_shape.trans isBlock⟩
    have makesUp := measured.toLeveled.depth_add tidy ordered measured.idle (place found) nofun
      block climbs (tidy.owner?_thread (isRoot ▸ place found'))
    rw [depth found] at makesUp
    refine ⟨makesUp, ?_⟩
    rw [← countLate_eq_zero_iff]
    omega
  · have isRoot : a.graph.place? root = some (.thread thread) := by
      rw [place found, Node.place, kind]
      rfl
    have crest : a.graph.crest? root = some (maxDepth, deepest) := by
      rw [Graph.crest?_of_node? (Graph.node_eq_ok_iff.1 found), kind]
      rfl
    refine ⟨fun x n found' onThread => ?_, fun none => ?_, fun x reaches => ?_⟩
    · rw [← depth found']
      exact measured.crested.bound isRoot crest (place found') onThread
    · exact measured.crested.flat (none ▸ crest)
    · obtain ⟨s, shape, isBlock, onThread, greatest⟩ :=
        measured.crested.reached isRoot (reaches ▸ crest)
      obtain ⟨n, found', rfl⟩ := Graph.exists_node?_of_shape? shape
      refine ⟨n, Graph.node_eq_ok_iff.2 found', n.isBlock_shape.symm.trans isBlock,
        n.place_shape ▸ onThread, ?_⟩
      rw [← greatest, depth (Graph.node_eq_ok_iff.2 found')]

/-- The block of the loop of two decisions lies as deep as it is nested, for no block is around it
that was made later. -/
theorem depth_add_countLate_decidedTwice :
    decidedTwice.WellOrdered ∧
      ∃ a, (new decidedTwice {} {}).1.run [.explain ⟨1⟩] = .ok a ∧
        ∃ id n steps root m, a.graph.node id = .ok n ∧ n.kind.isLoop = true ∧
          a.graph.climb? steps id = some root ∧ a.graph.node root = .ok m ∧
          m.place = .thread ⟨0⟩ ∧ n.depth = steps := by
  have ordered : decidedTwice.WellOrdered := by decide +kernel
  have inside : ∀ call ∈ [Call.explain ⟨1⟩], call.event.index < decidedTwice.size := by
    decide +kernel
  have seen : ((new decidedTwice {} {}).1.run [.explain ⟨1⟩]).toOption.map (fun a =>
      ((a.graph.node? ⟨3⟩).map (·.kind), (a.graph.node? ⟨1⟩).map (·.place),
        a.graph.climb? 1 ⟨3⟩, a.graph.loopsAround 1 ⟨3⟩)) =
      some (some (.loop []), some (.thread ⟨0⟩), some ⟨1⟩, [⟨3⟩]) := by decide +kernel
  obtain ⟨a, succeeds, seen⟩ := exists_ok_of_view seen
  simp only [Prod.mk.injEq, Option.map_eq_some_iff] at seen
  obtain ⟨⟨n, found, kind⟩, ⟨m, found', isRoot⟩, climbs, around⟩ := seen
  obtain ⟨a', succeeds', blocks, -⟩ := depth_add_countLate decidedTwice {} ordered {} _ inside
  cases succeeds.symm.trans succeeds'
  have found := Graph.node_eq_ok_iff.2 found
  have found' := Graph.node_eq_ok_iff.2 found'
  have isBlock : n.isBlock = true := by rw [Node.isBlock, kind]; rfl
  have exactly := ((blocks ⟨3⟩ n found isBlock).2 1 ⟨1⟩ m ⟨0⟩ climbs found' isRoot).2
  refine ⟨ordered, a, succeeds, ⟨3⟩, n, 1, ⟨1⟩, m, found, ?_, climbs, found', isRoot, exactly.2 ?_⟩
  · rw [kind]
    rfl
  · rw [around]
    exact List.pairwise_singleton _ _

/-- A loop within a loop.  The branch of the inner loop is decided twice, and then that of the outer
loop is. -/
def decidedWithin : Trace where
  program :=
    { classes := #[{ id := ⟨0⟩, name := "Table", superclass := none }]
      methods := #[
        { id := ⟨0⟩, declaringClass := ⟨0⟩, name := "run", isStatic := true,
          instructions := #[⟨0⟩, ⟨1⟩] }]
      instructions := #[
        { id := ⟨0⟩, method := ⟨0⟩, position := 0, kind := .branch },
        { id := ⟨1⟩, method := ⟨0⟩, position := 1, kind := .branch }] }
  events := #[
    { kind := .branch, instruction := ⟨0⟩ },
    { kind := .branch, instruction := ⟨1⟩, control := some ⟨0⟩ },
    { kind := .branch, instruction := ⟨1⟩, control := some ⟨1⟩ },
    { kind := .branch, instruction := ⟨0⟩, control := some ⟨0⟩ }]
  ends := ∅

/-- When the inner loop is met first, its block and what lies in it are one level too high, and the
block of the thread knows of three levels where there are four. -/
theorem depth_short_decidedWithin :
    decidedWithin.WellOrdered ∧
      ∃ a, (new decidedWithin {} {}).1.run [.explain ⟨2⟩, .explain ⟨3⟩] = .ok a ∧
        ∃ loop branch root l n m deepest, a.graph.node loop = .ok l ∧ l.kind.isLoop = true ∧
          a.graph.climb? 3 loop = some root ∧ l.depth = 2 ∧
          a.graph.node branch = .ok n ∧ n.place = .event ⟨2⟩ ∧
          a.graph.climb? 4 branch = some root ∧ n.depth = 3 ∧
          a.graph.node root = .ok m ∧ m.kind = .thread ⟨0⟩ 3 deepest := by
  have ordered : decidedWithin.WellOrdered := by decide +kernel
  have seen : ((new decidedWithin {} {}).1.run [.explain ⟨2⟩, .explain ⟨3⟩]).toOption.map (fun a =>
      ([⟨4⟩, ⟨1⟩].map fun x => (a.graph.node? x).map (·.kind), (a.graph.node? ⟨3⟩).map (·.place),
        [a.graph.climb? 3 ⟨4⟩, a.graph.climb? 4 ⟨3⟩], [⟨4⟩, ⟨3⟩].map a.graph.depthOf)) =
      some ([some (.loop []), some (.thread ⟨0⟩ 3 (some ⟨2⟩))], some (.event ⟨2⟩),
        [some ⟨1⟩, some ⟨1⟩], [2, 3]) := by decide +kernel
  obtain ⟨a, succeeds, seen⟩ := exists_ok_of_view seen
  simp only [List.map_cons, List.map_nil, List.cons.injEq, Prod.mk.injEq, Option.map_eq_some_iff,
    and_true] at seen
  obtain ⟨⟨⟨l, foundL, kind⟩, m, foundM, isRoot⟩, ⟨n, found, place⟩, ⟨climbs, climbs'⟩, depth,
    depth'⟩ := seen
  rw [Graph.depthOf_of_node? foundL] at depth
  rw [Graph.depthOf_of_node? found] at depth'
  refine ⟨ordered, a, succeeds, ⟨4⟩, ⟨3⟩, ⟨1⟩, l, n, m, some ⟨2⟩, Graph.node_eq_ok_iff.2 foundL, ?_,
    climbs, depth, Graph.node_eq_ok_iff.2 found, place, climbs', depth',
    Graph.node_eq_ok_iff.2 foundM, isRoot⟩
  rw [kind]
  rfl

end Answer

end Inquest
