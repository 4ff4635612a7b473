import Inquest.Proofs.Explanation.Tidy

/-!
# What is added to a graph

A graph grows in few ways.  A node is appended, for an event or for a thread; a control event is
given the block that stands for it; a loop block is put between an event and the block that the
event belonged to; and the loose event is adopted by its block.  Each of these additions is
described by what it does to shapes and tables, and shown to keep a graph tidy.

## Main Definitions

* `Graph.Appended` - a node was appended and entered into its table
* `Graph.Enclosed` - a loop block was put around an event

## Main Statements

* `Graph.Tidy.members_moved` - an event can move into another block
* `Graph.Tidy.alike`, `Graph.Tidy.appended`, `Graph.Tidy.remembered`, `Graph.Tidy.enclosed`,
  `Graph.Tidy.adopted` - every addition keeps a graph tidy
-/

namespace Inquest.Graph

variable {g g' : Graph} {t : Trace} {c : Config} {loose loose' : Option EventId}
variable {e f k : EventId} {id b x : NodeId} {p : Place} {s : Shape} {r : Record}

/-! ### Outlines -/

/-- What the nodes stand for and where they are anchored is as it was. -/
def SameOutline (g g' : Graph) : Prop :=
  ∀ x, (g'.shape? x).map (fun s => (s.kind, s.anchor)) =
    (g.shape? x).map fun s => (s.kind, s.anchor)

namespace SameOutline

variable (outline : g.SameOutline g')

include outline

theorem shape? (found : g.shape? x = some s) :
    ∃ s', g'.shape? x = some s' ∧ s'.kind = s.kind ∧ s'.anchor = s.anchor := by
  have same := outline x
  rw [found, Option.map_some, Option.map_eq_some_iff] at same
  simp only [Prod.mk.injEq] at same
  exact same

theorem place? (x : NodeId) : g'.place? x = g.place? x := by
  have same := congrArg (Option.map fun s : NodeKind × EventId => s.1.place s.2) (outline x)
  rw [Option.map_map, Option.map_map] at same
  exact same

theorem sited (sited : ∀ {id s}, g.shape? id = some s → s.Sited t) {s : Shape}
    (found : g'.shape? id = some s) : s.Sited t := by
  have same := outline id
  rw [found, Option.map_some, eq_comm, Option.map_eq_some_iff] at same
  simp only [Prod.mk.injEq] at same
  obtain ⟨s', found', kind, anchor⟩ := same
  have sited' := sited found'
  unfold Shape.Sited Shape.place at sited' ⊢
  rwa [kind, anchor] at sited'

end SameOutline

/-- Everything but owners and members is as it was. -/
structure Rearranged (g g' : Graph) : Prop extends Keeps g g' where
  outline : g.SameOutline g'

theorem Rearranged.trans {g'' : Graph} (first : g.Rearranged g') (second : g'.Rearranged g'') :
    g.Rearranged g'' :=
  ⟨first.toKeeps.trans second.toKeeps, fun x => (second.outline x).trans (first.outline x)⟩

/-! ### Changes of derived parts -/

theorem SameTables.at? (tables : g.SameTables g') (p : Place) : g'.at? p = g.at? p := by
  cases p with
  | event e => simp only [Graph.at?, tables.nodeOf]
  | loop first => simp only [Graph.at?, tables.loopBlocks]
  | thread thread => simp only [Graph.at?, tables.threadBlocks]

theorem target?_congr (tables : g.SameTables g') (places : ∀ x, g'.place? x = g.place? x) :
    g'.target? t c e = g.target? t c e := by
  simp only [target?, tables.threadBlocks, tables.loopBlocks, tables.controlBlocks, places]

theorem ownerFor_congr (tables : g.SameTables g') (places : ∀ x, g'.place? x = g.place? x) :
    g'.ownerFor t c loose p = g.ownerFor t c loose p := by
  cases p with
  | event e => simp only [ownerFor, tables.loopBlocks, target?_congr tables places]
  | loop first => simp only [ownerFor, target?_congr tables places]
  | thread thread => rfl

theorem cached_congr (tables : g.SameTables g') : g'.Cached e ↔ g.Cached e := by
  simp only [Cached, tables.nodeOf]

/-- Whether a graph is tidy depends on its tables and shapes only. -/
theorem Tidy.congr (tidy : g.Tidy t c loose) (tables : g.SameTables g')
    (shapes : ∀ x, g'.shape? x = g.shape? x) : g'.Tidy t c loose := by
  have places : ∀ x, g'.place? x = g.place? x := fun x => by
    rw [Graph.place?, Graph.place?, shapes]
  have owners : ∀ x, g'.owner? x = g.owner? x := fun x => by
    rw [Graph.owner?, Graph.owner?, shapes]
  have lists : ∀ x e, g'.member? x e = g.member? x e := fun x e => by
    rw [Graph.member?, Graph.member?, shapes]
  refine ⟨fun {p id} => ?_, fun {id s} found => ?_, fun {f id} found => ?_,
    fun {e f} cached notLoose loop => ?_, fun {k b} stands => ?_, fun {id p} known => ?_,
    fun {e} cached notLoose => ?_, fun {b e id} => ?_, fun {k b} stands => ?_⟩
  · rw [tables.at?, places]
    exact tidy.registered
  · rw [shapes] at found
    exact tidy.sited found
  · rw [tables.loopBlocks] at found
    simp only [cached_congr tables]
    exact tidy.keyed found
  · rw [cached_congr tables] at cached
    rw [tables.loopBlocks]
    exact tidy.looped cached notLoose loop
  · rw [tables.controlBlocks] at stands
    rw [cached_congr tables, shapes, tables.nodeOf]
    exact tidy.memo stands
  · rw [places] at known
    rw [owners, ownerFor_congr tables places]
    exact tidy.owner known
  · rw [cached_congr tables] at cached
    rw [target?_congr tables places]
    exact tidy.housed cached notLoose
  · rw [lists, tables.nodeOf, owners]
    exact tidy.members
  · rw [tables.controlBlocks] at stands
    simp only [cached_congr tables]
    exact tidy.decides stands

/-- A change of derived parts keeps a graph tidy. -/
theorem Tidy.alike (tidy : g.Tidy t c loose) (alike : g.Alike g') : g'.Tidy t c loose :=
  tidy.congr alike.toSameTables alike.shape?

/-! ### Appended nodes -/

/-- The graph `g'` is `g` with a node appended and entered into its table. -/
structure Appended (g : Graph) (s : Shape) (g' : Graph) : Prop where
  new : g'.shape? ⟨g.size⟩ = some s
  old : ∀ {x}, x ≠ ⟨g.size⟩ → g'.shape? x = g.shape? x
  at? : ∀ p, g'.at? p = if p = s.place then some ⟨g.size⟩ else g.at? p
  controlBlocks : g'.controlBlocks = g.controlBlocks

theorem ne_size_of_shape? (found : g.shape? x = some s) : x ≠ ⟨g.size⟩ := by
  rintro rfl
  exact absurd (lt_size_of_shape? found) (Nat.lt_irrefl _)

theorem ne_size_of_owner? (owned : g.owner? x = some b) : x ≠ ⟨g.size⟩ := by
  obtain ⟨s, found⟩ := exists_shape?_of_owner? owned
  exact ne_size_of_shape? found

namespace Appended

variable (appended : g.Appended s g')

include appended

theorem shape? {m : Shape} (found : g.shape? x = some m) : g'.shape? x = some m :=
  (appended.old (ne_size_of_shape? found)).trans found

theorem shape?_cases {m : Shape} (found : g'.shape? x = some m) :
    x = ⟨g.size⟩ ∧ m = s ∨ g.shape? x = some m := by
  by_cases new : x = ⟨g.size⟩
  · subst new
    rw [appended.new, Option.some.injEq] at found
    exact .inl ⟨rfl, found.symm⟩
  · exact .inr ((appended.old new).symm.trans found)

/-- A graph stays readable when a node is appended that stands where something was recorded. -/
theorem readable (readable : g.Readable t) (members : s.members = ∅)
    (recorded : ∃ r, t.record? s.anchor = some r) : g'.Readable t := by
  refine ⟨fun {x m} found => ?_, fun {b m e x} found entry => ?_, fun {thread b} known => ?_⟩
  · rcases appended.shape?_cases found with ⟨-, rfl⟩ | old
    · exact recorded
    · exact readable.recorded old
  · rcases appended.shape?_cases found with ⟨-, rfl⟩ | old
    · rw [members, Std.TreeMap.getElem?_emptyc] at entry
      cases entry
    · obtain ⟨u, found'⟩ := readable.members old entry
      exact ⟨u, appended.shape? found'⟩
  · have entry := appended.at? (.thread thread)
    split at entry
    · cases known.symm.trans entry
      exact ⟨s, appended.new⟩
    · obtain ⟨u, found⟩ := readable.threads (entry.symm.trans known)
      exact ⟨u, appended.shape? found⟩

theorem grows (missing : g.at? s.place = none) : g.Grows g' := by
  refine ⟨fun {p id} known => ?_, fun {id p} known => ?_, fun {k b} stands => ?_⟩
  · have other : p ≠ s.place := by
      rintro rfl
      rw [missing] at known
      cases known
    rw [appended.at?, if_neg other, known]
  · obtain ⟨m, found, rfl⟩ := exists_shape?_of_place? known
    exact place?_of_shape? (appended.shape? found)
  · rw [appended.controlBlocks, stands]

theorem cached_cases (cached : g'.Cached e) : s.place = .event e ∨ g.Cached e := by
  obtain ⟨id, known⟩ := cached
  have known : g'.at? (.event e) = some id := known
  rw [appended.at?] at known
  split at known
  · next new => exact .inl new.symm
  · exact .inr ⟨id, known⟩

theorem loopBlocks (notLoop : ∀ first, s.place ≠ .loop first) (f : EventId) :
    g'.loopBlocks[f]? = g.loopBlocks[f]? := by
  have same := appended.at? (.loop f)
  rwa [if_neg (notLoop f).symm] at same

theorem owner? (unowned : s.owner = none) (x : NodeId) : g'.owner? x = g.owner? x := by
  by_cases new : x = ⟨g.size⟩
  · subst new
    rw [owner?_of_shape? appended.new, unowned]
    cases found : g.shape? ⟨g.size⟩ with
    | none => rw [Graph.owner?, found, Option.bind_none]
    | some m => exact absurd rfl (ne_size_of_shape? found)
  · rw [Graph.owner?, Graph.owner?, appended.old new]

theorem member? (empty : s.members = ∅) (x : NodeId) (e : EventId) :
    g'.member? x e = g.member? x e := by
  by_cases new : x = ⟨g.size⟩
  · subst new
    rw [Graph.member?, appended.new, Option.bind_some, empty, Std.TreeMap.getElem?_emptyc]
    cases found : g.shape? ⟨g.size⟩ with
    | none => rw [Graph.member?, found, Option.bind_none]
    | some m => exact absurd rfl (ne_size_of_shape? found)
  · rw [Graph.member?, Graph.member?, appended.old new]

theorem registered (tidy : g.Tidy t c loose) (missing : g.at? s.place = none) (p : Place)
    (id : NodeId) :
    g'.at? p = some id ↔ g'.place? id = some p := by
  rw [appended.at?]
  by_cases new : id = ⟨g.size⟩
  · subst new
    rw [place?_of_shape? appended.new, Option.some.injEq]
    split
    · next same => simp [same]
    · next other =>
      refine ⟨fun known => ?_, fun same => absurd same.symm other⟩
      exact absurd (tidy.lt_size_of_at? known) (Nat.lt_irrefl _)
  · have place : g'.place? id = g.place? id := by
      rw [Graph.place?, Graph.place?, appended.old new]
    rw [place, ← tidy.registered]
    split
    · next same =>
      subst same
      rw [missing]
      refine ⟨fun same => absurd (Option.some.inj same).symm new, fun known => ?_⟩
      cases known
    · exact Iff.rfl

end Appended

/-- Appending a node that owns nothing and belongs nowhere keeps a graph tidy.  The node is that of
the loose event, or it is no event at all. -/
theorem Tidy.appended (tidy : g.Tidy t c loose) (appended : g.Appended s g')
    (missing : g.at? s.place = none) (sited : s.Sited t)
    (unowned : s.owner = none) (empty : s.members = ∅)
    (notLoop : ∀ first, s.place ≠ .loop first)
    (loosened : ∀ e, s.place = .event e → loose' = some e)
    (same : ∀ e, g.Cached e → (loose' = some e ↔ loose = some e)) : g'.Tidy t c loose' := by
  have grows := appended.grows missing
  refine ⟨appended.registered tidy missing _ _, fun {id m} found => ?_, fun {f id} found => ?_,
    fun {e f} cached notLoose loop => ?_, fun {k b} stands => ?_, fun {id p} known => ?_,
    fun {e} cached notLoose => ?_, fun {b e id} => ?_, fun {k b} stands => ?_⟩
  · rcases appended.shape?_cases found with ⟨-, rfl⟩ | old
    · exact sited
    · exact tidy.sited old
  · rw [appended.loopBlocks notLoop] at found
    obtain ⟨cached, notLoose, e, cached', loop⟩ := tidy.keyed found
    exact ⟨grows.cached cached, fun isLoose => notLoose ((same f cached).1 isLoose), e,
      grows.cached cached', loop⟩
  · rcases appended.cached_cases cached with new | cached
    · exact absurd (loosened e new) notLoose
    · rw [appended.loopBlocks notLoop]
      exact tidy.looped cached (fun isLoose => notLoose ((same e cached).2 isLoose)) loop
  · rw [appended.controlBlocks] at stands
    obtain ⟨cached, m, found, isBlock, below, own⟩ := tidy.memo stands
    refine ⟨grows.cached cached, m, appended.shape? found, isBlock, below, fun r recorded can => ?_⟩
    exact grows.at? (p := .event k) (own r recorded can)
  · rw [appended.owner? unowned]
    obtain ⟨m, found, rfl⟩ := exists_shape?_of_place? known
    rcases appended.shape?_cases found with ⟨rfl, rfl⟩ | old
    · have unowned' := appended.owner? unowned ⟨g.size⟩
      rw [owner?_of_shape? appended.new, unowned] at unowned'
      rw [← unowned']
      cases place : m.place with
      | event e => simp only [ownerFor, loosened e place, if_true]
      | loop first => exact absurd place (notLoop first)
      | thread thread => rfl
    · have place := place?_of_shape? old
      rw [tidy.owner place]
      refine (tidy.ownerFor_mono grows place (fun e _ => appended.loopBlocks notLoop e) ?_).symm
      intro e isEvent
      rw [isEvent] at place
      exact same e ⟨id, tidy.registered.2 place⟩
  · rcases appended.cached_cases cached with new | cached
    · exact absurd (loosened e new) notLoose
    · obtain ⟨b, target⟩ := tidy.housed cached fun isLoose => notLoose ((same e cached).2 isLoose)
      exact ⟨b, tidy.target?_mono grows target⟩
  · rw [appended.owner? unowned, appended.member? empty, tidy.members]
    refine and_congr_left fun owned => ?_
    -- a node with an owner is not the new one
    obtain ⟨n, known, -⟩ := Option.bind_eq_some_iff.1 owned
    have place : g'.place? id = g.place? id := by
      rw [Graph.place?, Graph.place?, known, appended.shape? known]
    have registered := appended.registered tidy missing (.event e) id
    rw [place, ← tidy.registered] at registered
    exact registered.symm
  · rw [appended.controlBlocks] at stands
    obtain ⟨e, cached, decided⟩ := tidy.decides stands
    exact ⟨e, grows.cached cached, decided⟩

/-! ### Remembered blocks -/

/-- The list of controls that have to be explained has no part in the invariant. -/
theorem Tidy.withUnexplained (tidy : g.Tidy t c loose) (pending : List NodeId) :
    ({ g with unexplainedControls := pending } : Graph).Tidy t c loose :=
  tidy.congr ⟨rfl, rfl, rfl, rfl, rfl⟩ fun _ => rfl

/-- Remembering the block that stands for a control event keeps a graph tidy. -/
theorem Tidy.remembered (tidy : g.Tidy t c loose) (unknown : g.controlBlocks[k]? = none)
    (cached : g.Cached k) (found : g.shape? b = some s) (isBlock : s.isBlock = true)
    (below : s.anchor ≤ k)
    (own : ∀ r, t.record? k = some r → r.kind.canControl = true → g.nodeOf[k]? = some b)
    (decided : ∃ e, g.Cached e ∧ t.controlOf? e = some k ∧ t.loopOf? c e = none) :
    ({ g with controlBlocks := g.controlBlocks.insert k b } : Graph).Tidy t c loose := by
  have grows : g.Grows { g with controlBlocks := g.controlBlocks.insert k b } := by
    refine ⟨fun known => known, fun known => known, fun {k' b'} stands => ?_⟩
    rw [Ident.getElem?_insert]
    split
    · next same =>
      rw [← same, stands] at unknown
      cases unknown
    · exact stands
  refine ⟨tidy.registered, tidy.sited, tidy.keyed, tidy.looped, fun {k' b'} stands => ?_,
    fun {id p} known => ?_, fun {e} cached notLoose => ?_, tidy.members, fun {k' b'} stands => ?_⟩
  · rw [Ident.getElem?_insert] at stands
    split at stands
    · next same =>
      obtain rfl := same
      obtain rfl := Option.some.inj stands
      exact ⟨cached, s, found, isBlock, below, own⟩
    · exact tidy.memo stands
  · have owner := tidy.owner known
    rw [← tidy.ownerFor_mono grows known (fun _ _ => rfl) fun _ _ => Iff.rfl] at owner
    exact owner
  · obtain ⟨b', target⟩ := tidy.housed cached notLoose
    exact ⟨b', tidy.target?_mono grows target⟩
  · rw [Ident.getElem?_insert] at stands
    split at stands
    · next same => exact same ▸ decided
    · exact tidy.decides stands

/-! ### Events that change their owner -/

/-- An event is listed by its owner and by nobody else. -/
theorem Tidy.member?_of_nodeOf (tidy : g.Tidy t c loose) (known : g.nodeOf[f]? = some id)
    (x : NodeId) : g.member? x f = if g.owner? id = some x then some id else none := by
  split
  · next owned => exact tidy.members.2 ⟨known, owned⟩
  · next other =>
    refine Option.eq_none_iff_forall_ne_some.2 ?_
    intro y listed
    obtain ⟨known', owned⟩ := tidy.members.1 listed
    obtain rfl := Option.some.inj (known.symm.trans known')
    exact other owned

/-- When one event moves into another block, and that block is the only one to list it afterwards,
the members of a block are again the events that it owns. -/
theorem Tidy.members_moved (tidy : g.Tidy t c loose) (known : g.nodeOf[f]? = some id)
    (nodeOf : ∀ e : EventId, g'.nodeOf[e]? = g.nodeOf[e]?)
    (owner? : ∀ {e : EventId} {y}, g.nodeOf[e]? = some y →
      g'.owner? y = if y = id then some b else g.owner? y)
    (member? : ∀ x e, g'.member? x e =
      if e = f then if x = b then some id else none else g.member? x e)
    (x : NodeId) (e : EventId) (y : NodeId) :
    g'.member? x e = some y ↔ g'.nodeOf[e]? = some y ∧ g'.owner? y = some x := by
  rw [member?, nodeOf]
  by_cases same : e = f
  · subst same
    rw [if_pos rfl, known]
    constructor
    · intro listed
      split at listed
      · next isBlock =>
        cases listed
        rw [owner? known, if_pos rfl, isBlock]
        exact ⟨rfl, rfl⟩
      · cases listed
    · rintro ⟨self, owned⟩
      cases self
      rw [owner? known, if_pos rfl, Option.some.injEq] at owned
      rw [if_pos owned.symm]
  · rw [if_neg same, tidy.members]
    refine and_congr_right fun known' => ?_
    have other : y ≠ id := by
      rintro rfl
      exact same (tidy.event_unique known' known)
    rw [owner? known', if_neg other]

/-! ### The loose event finds its block -/

namespace Linked

variable {m : Shape} (linked : g.Linked id b g') (found : g.shape? id = some s)
variable (found' : g.shape? b = some m) (different : b ≠ id)

include linked found found' different

theorem owner? (x : NodeId) : g'.owner? x = if x = id then some b else g.owner? x := by
  split
  · next isSelf => rw [isSelf, owner?_of_shape? (linked.self found)]
  · next notSelf =>
    by_cases isBlock : x = b
    · subst isBlock
      rw [owner?_of_shape? found', owner?_of_shape? (linked.into found found')]
    · rw [Graph.owner?, Graph.owner?, linked.other notSelf isBlock]

theorem member? (x : NodeId) (e : EventId) :
    g'.member? x e = if x = b ∧ e = s.anchor then some id else g.member? x e := by
  unfold Graph.member?
  by_cases isBlock : x = b
  · subst isBlock
    rw [linked.into found found', found', Option.bind_some, Option.bind_some,
      Ident.getElem?_insert]
    simp only [true_and]
  · rw [if_neg fun both => isBlock both.1]
    by_cases isSelf : x = id
    · subst isSelf
      rw [linked.self found, found, Option.bind_some, Option.bind_some]
    · rw [linked.other isSelf isBlock]

/-- What a node stands for and where it is anchored does not change. -/
theorem outline : g.SameOutline g' := by
  intro x
  by_cases isSelf : x = id
  · subst isSelf
    rw [linked.self found, found]
    rfl
  · by_cases isBlock : x = b
    · subst isBlock
      rw [linked.into found found', found']
      rfl
    · rw [linked.other isSelf isBlock]

end Linked

/-- Putting the loose event into its block makes a graph tidy that has no loose event. -/
theorem Tidy.adopted (tidy : g.Tidy t c (some e)) (ordered : t.WellOrdered)
    (known : g.nodeOf[e]? = some id) (target : g.target? t c e = some b)
    (linked : g.Linked id b g') : g'.Tidy t c none := by
  obtain ⟨s, -, found, place, anchor, -⟩ := tidy.shape?_of_event known
  obtain ⟨m, found', -, rank⟩ := tidy.target?_spec ordered target
  have tables := linked.toSameTables
  have unkeyed : g.loopBlocks[e]? = none := by
    cases keyed : g.loopBlocks[e]? with
    | none => rfl
    | some l => exact absurd rfl (tidy.keyed keyed).2.1
  have different : b ≠ id := by
    rintro rfl
    rw [found, Option.some.injEq] at found'
    subst found'
    simp only [Shape.rank, place, anchor] at rank
    omega
  have outline := linked.outline found found' different
  have places := outline.place?
  have unowned : g.owner? id = none := by
    rw [tidy.owner (tidy.place?_of_event known)]
    simp only [ownerFor, if_true]
  refine ⟨fun {p id} => ?_, outline.sited tidy.sited, fun {f id} found => ?_,
    fun {e' f} cached _ loop => ?_, fun {k b} stands => ?_, fun {x p} known' => ?_,
    fun {e'} cached _ => ?_, fun {x e' y} => ?_, fun {k b} stands => ?_⟩
  · rw [tables.at?, places]
    exact tidy.registered
  · rw [tables.loopBlocks] at found
    simp only [cached_congr tables]
    obtain ⟨cached, -, iterated⟩ := tidy.keyed found
    exact ⟨cached, (Option.some_ne_none f).symm, iterated⟩
  · rw [cached_congr tables] at cached
    rw [tables.loopBlocks]
    by_cases same : e' = e
    · subst same
      obtain ⟨r, recorded⟩ := tidy.recorded_of_cached cached
      exact ⟨b, (target?_of_loopOf? recorded loop).symm.trans target⟩
    · exact tidy.looped cached (fun isLoose => same (Option.some.inj isLoose).symm) loop
  · rw [tables.controlBlocks] at stands
    rw [cached_congr tables, tables.nodeOf]
    obtain ⟨cached, n, listed, isBlock, below, own⟩ := tidy.memo stands
    obtain ⟨n', listed', kind', anchor'⟩ := outline.shape? listed
    exact ⟨cached, n', listed', (congrArg NodeKind.isBlock kind').trans isBlock, anchor' ▸ below,
      own⟩
  · rw [places] at known'
    rw [ownerFor_congr tables places, linked.owner? found found' different]
    split
    · next isSelf =>
      subst isSelf
      obtain rfl : Place.event e = p :=
        Option.some.inj ((tidy.place?_of_event known).symm.trans known')
      simp only [ownerFor, unkeyed, target, Option.none_or, reduceCtorEq, if_false]
    · next notSelf =>
      have other : p ≠ .event e := by
        rintro rfl
        exact notSelf (tidy.unique known' (tidy.place?_of_event known))
      rw [tidy.owner known', ownerFor_of_ne other]
  · rw [cached_congr tables] at cached
    rw [target?_congr tables places]
    by_cases same : e' = e
    · exact ⟨b, same ▸ target⟩
    · exact tidy.housed cached fun isLoose => same (Option.some.inj isLoose).symm
  · refine tidy.members_moved known (fun e => by rw [tables.nodeOf])
      (fun _ => linked.owner? found found' different _) (fun x e' => ?_) x e' y
    rw [linked.member? found found' different, anchor]
    by_cases same : e' = e
    · subst same
      rw [tidy.member?_of_nodeOf known, unowned]
      simp only [and_true, reduceCtorEq, if_true, if_false]
    · rw [if_neg fun both => same both.2, if_neg same]
  · rw [tables.controlBlocks] at stands
    simp only [cached_congr tables]
    exact tidy.decides stands

/-! ### Loop blocks -/

namespace Unlisted

variable (unlisted : g.Unlisted b e g') (found : g.shape? b = some s)

include unlisted found

theorem outline : g.SameOutline g' := by
  intro x
  by_cases isBlock : x = b
  · subst isBlock
    rw [unlisted.self found, found]
    rfl
  · rw [unlisted.other isBlock]

theorem owner? (x : NodeId) : g'.owner? x = g.owner? x := by
  by_cases isBlock : x = b
  · subst isBlock
    rw [owner?_of_shape? found, owner?_of_shape? (unlisted.self found)]
  · rw [Graph.owner?, Graph.owner?, unlisted.other isBlock]

theorem member? (x : NodeId) (e' : EventId) :
    g'.member? x e' = if x = b ∧ e' = e then none else g.member? x e' := by
  unfold Graph.member?
  by_cases isBlock : x = b
  · subst isBlock
    rw [unlisted.self found, found, Option.bind_some, Option.bind_some,
      Std.TreeMap.getElem?_erase]
    simp only [true_and, Ident.compare_eq_iff, eq_comm (a := e)]
  · rw [if_neg fun both => isBlock both.1, unlisted.other isBlock]

end Unlisted

/-- The graph `g'` is `g` with a loop block put between the event that starts the loop and the
block that this event belonged to. -/
structure Enclosed (g : Graph) (f : EventId) (anchor outer : NodeId) (g' : Graph) : Prop where
  appended : ∃ g₁, g.Appended { kind := .loop [], anchor := f } g₁ ∧ g₁.Rearranged g'
  owner? : ∀ x, g'.owner? x =
    if x = anchor then some ⟨g.size⟩ else if x = ⟨g.size⟩ then some outer else g.owner? x
  member? : ∀ x e, g'.member? x e =
    if x = ⟨g.size⟩ ∧ e = f then some anchor
    else if x = outer ∧ e = f then none
    else g.member? x e

namespace Enclosed

variable {anchor outer : NodeId} (enclosed : g.Enclosed f anchor outer g')

include enclosed

theorem at? (p : Place) : g'.at? p = if p = .loop f then some ⟨g.size⟩ else g.at? p := by
  obtain ⟨g₁, appended, rearranged⟩ := enclosed.appended
  rw [rearranged.at?, appended.at?]
  rfl

theorem nodeOf (e : EventId) : g'.nodeOf[e]? = g.nodeOf[e]? := enclosed.at? (.event e)

theorem loopBlocks_self : g'.loopBlocks[f]? = some ⟨g.size⟩ := by
  have new := enclosed.at? (.loop f)
  rwa [if_pos rfl] at new

theorem loopBlocks_of_ne (other : e ≠ f) : g'.loopBlocks[e]? = g.loopBlocks[e]? := by
  have same := enclosed.at? (.loop e)
  rwa [if_neg fun isLoop => other (Place.loop.inj isLoop)] at same

theorem cached_iff : g'.Cached e ↔ g.Cached e := by
  simp only [Cached, enclosed.nodeOf]

theorem grows (unknown : g.loopBlocks[f]? = none) : g.Grows g' := by
  obtain ⟨g₁, appended, ⟨keeps, outline⟩⟩ := enclosed.appended
  have grows₁ := appended.grows unknown
  refine ⟨fun {p id} known => ?_, fun {id p} known => ?_, fun {k b} stands => ?_⟩
  · rw [keeps.at?, grows₁.at? known]
  · rw [outline.place?, grows₁.place? known]
  · rw [keeps.controlBlocks, grows₁.controlBlocks stands]

/-- A node is the new block, or it stands for what it stood for before. -/
theorem place?_cases (known : g'.place? x = some p) :
    x = ⟨g.size⟩ ∧ p = .loop f ∨ x ≠ ⟨g.size⟩ ∧ g.place? x = some p := by
  obtain ⟨g₁, appended, ⟨-, outline⟩⟩ := enclosed.appended
  rw [outline.place?] at known
  by_cases new : x = ⟨g.size⟩
  · subst new
    rw [place?_of_shape? appended.new, Option.some.injEq] at known
    exact .inl ⟨rfl, known.symm⟩
  · rw [Graph.place?, appended.old new] at known
    exact .inr ⟨new, known⟩

variable (tidy : g.Tidy t c loose) (unknown : g.loopBlocks[f]? = none)
variable (known : g.nodeOf[f]? = some anchor) (owned : g.owner? anchor = some outer)

include tidy known owned

/-- The event that starts the loop moves from the outer block into the new one. -/
theorem members (x : NodeId) (e : EventId) (y : NodeId) :
    g'.member? x e = some y ↔ g'.nodeOf[e]? = some y ∧ g'.owner? y = some x := by
  refine tidy.members_moved (b := ⟨g.size⟩) known enclosed.nodeOf (fun {e y} known' => ?_)
    (fun x e => ?_) x e y
  · have old : y ≠ ⟨g.size⟩ := by
      rintro rfl
      exact absurd (tidy.lt_size_of_at? (p := .event e) known') (Nat.lt_irrefl _)
    rw [enclosed.owner?, if_neg old]
  · rw [enclosed.member?]
    by_cases same : e = f
    · subst same
      rw [tidy.member?_of_nodeOf known, owned]
      simp only [and_true, if_true, Option.some.injEq]
      split
      · rfl
      · split
        · rfl
        · next notOuter => rw [if_neg fun isOuter => notOuter isOuter.symm]
    · rw [if_neg fun both => same both.2, if_neg fun both => same both.2, if_neg same]

include unknown

/-- The new block comes between the event that starts the loop and the outer block. -/
theorem owner (notLoose : loose ≠ some f) (place : g'.place? x = some p) :
    g'.owner? x = g'.ownerFor t c loose p := by
  have grows := enclosed.grows unknown
  have self := tidy.place?_of_event known
  rw [enclosed.owner?]
  by_cases isAnchor : x = anchor
  · subst isAnchor
    obtain rfl : Place.event f = p := Option.some.inj ((grows.place? self).symm.trans place)
    simp only [ownerFor, if_neg notLoose, enclosed.loopBlocks_self, Option.some_or, if_true]
  · rw [if_neg isAnchor]
    rcases enclosed.place?_cases place with ⟨rfl, rfl⟩ | ⟨old, place⟩
    · have target := tidy.owner self
      rw [owned] at target
      simp only [ownerFor, if_neg notLoose, unknown, Option.none_or] at target
      rw [if_pos rfl]
      exact (tidy.target?_mono grows target.symm).symm
    · rw [if_neg old, tidy.owner place]
      refine (tidy.ownerFor_mono grows place (fun e isEvent => ?_) fun _ _ => Iff.rfl).symm
      refine enclosed.loopBlocks_of_ne ?_
      rintro rfl
      rw [isEvent] at place
      exact isAnchor (tidy.unique place self)

end Enclosed

/-- Putting a loop block around the event that starts the loop keeps a graph tidy. -/
theorem Tidy.enclosed {anchor outer : NodeId} (tidy : g.Tidy t c loose)
    (unknown : g.loopBlocks[f]? = none) (known : g.nodeOf[f]? = some anchor)
    (owned : g.owner? anchor = some outer) (notLoose : loose ≠ some f)
    (iterated : ∃ e, g.Cached e ∧ t.loopOf? c e = some f)
    (enclosed : g.Enclosed f anchor outer g') : g'.Tidy t c loose := by
  obtain ⟨g₁, appended, ⟨keeps, outline⟩⟩ := enclosed.appended
  have grows := enclosed.grows unknown
  refine ⟨fun {p id} => ?_, outline.sited fun {id s} found => ?_, fun {f' id} found => ?_,
    fun {e f'} cached notLoose' loop => ?_, fun {k b} stands => ?_,
    enclosed.owner tidy unknown known owned notLoose, fun {e} cached notLoose' => ?_,
    enclosed.members tidy known owned _ _ _, fun {k b} stands => ?_⟩
  · rw [keeps.at?, outline.place?]
    exact appended.registered tidy unknown p id
  · rcases appended.shape?_cases found with ⟨-, rfl⟩ | old
    · exact ⟨rfl, tidy.recorded_of_cached ⟨anchor, known⟩⟩
    · exact tidy.sited old
  · simp only [enclosed.cached_iff]
    by_cases same : f' = f
    · subst same
      exact ⟨⟨anchor, known⟩, notLoose, iterated⟩
    · rw [enclosed.loopBlocks_of_ne same] at found
      exact tidy.keyed found
  · obtain ⟨id, found⟩ := tidy.looped (enclosed.cached_iff.1 cached) notLoose' loop
    exact ⟨id, grows.at? (p := .loop f') found⟩
  · rw [keeps.controlBlocks, appended.controlBlocks] at stands
    obtain ⟨cached, n, listed, isBlock, below, own⟩ := tidy.memo stands
    obtain ⟨n', listed', kind', anchor'⟩ := outline.shape? (appended.shape? listed)
    rw [enclosed.nodeOf]
    exact ⟨enclosed.cached_iff.2 cached, n', listed',
      (congrArg NodeKind.isBlock kind').trans isBlock, anchor' ▸ below, own⟩
  · obtain ⟨b, target⟩ := tidy.housed (enclosed.cached_iff.1 cached) notLoose'
    exact ⟨b, tidy.target?_mono grows target⟩
  · rw [keeps.controlBlocks, appended.controlBlocks] at stands
    simp only [enclosed.cached_iff]
    exact tidy.decides stands

end Inquest.Graph
