import Mathlib.Data.List.Nodup
import Inquest.Proofs.Explanation.Contents

/-!
# Who lists what

Membership is kept at both ends: a block lists its members by their events, and a member knows the
block that it belongs to.  Up to three nodes share an event, for a loop block and a thread block are
anchored at events too, and an entry that is made under the event of another one replaces it.  In
the end every entry is that of the node of its event, and every such node has its entry with its
owner and with nobody else.  So the lists of all blocks, one after the other, are the table of the
nodes of events in another order.

## Main Definitions

* `Graph.entries` - what a block lists

## Main Statements

* `Graph.Tidy.entries_perm` - the entries of all blocks make up the table of events
* `Answer.members_match_owners` - members and owners in an answer
-/

namespace Inquest

theorem nodup_toList (table : Std.TreeMap EventId NodeId) : table.toList.Nodup := by
  refine Std.TreeMap.distinct_keys_toList.imp fun {a b} different same => ?_
  exact different (Ident.compare_eq_iff.2 (congrArg Prod.fst same))

namespace Graph

variable {g : Graph} {t : Trace} {c : Config} {loose : Option EventId}
variable {e : EventId} {id b x : NodeId} {m : Node}

/-- What a block lists, in the order of the events. -/
def entries (g : Graph) (b : NodeId) : List (EventId × NodeId) :=
  ((g.node? b).map (·.members.toList)).getD []

theorem entries_of_node? (found : g.node? b = some m) : g.entries b = m.members.toList := by
  rw [entries, found, Option.map_some, Option.getD_some]

theorem mem_entries : (e, id) ∈ g.entries b ↔ g.member? b e = some id := by
  cases found : g.node? b with
  | none =>
    rw [entries, found, member?, shape?, found]
    exact ⟨fun listed => absurd listed List.not_mem_nil, fun listed => by cases listed⟩
  | some m =>
    rw [entries_of_node? found, member?_of_node? found]
    exact Std.TreeMap.mem_toList_iff_getElem?_eq_some

theorem mem_ids : x ∈ g.ids ↔ x.index < g.size := by
  rw [ids, List.mem_map]
  constructor
  · rintro ⟨index, inside, rfl⟩
    exact List.mem_range.1 inside
  · exact fun inside => ⟨x.index, List.mem_range.2 inside, rfl⟩

theorem nodup_ids (g : Graph) : g.ids.Nodup :=
  List.nodup_range.map fun _ _ same => congrArg Ident.index same

namespace Tidy

/-- The entries of all blocks are those of the table of events.  No node is listed twice, for two
blocks do not list the same one. -/
theorem entries_perm (tidy : g.Tidy t c none) (ordered : t.WellOrdered) :
    (g.ids.flatMap g.entries).Perm g.nodeOf.toList := by
  have apart : g.ids.Pairwise (Function.onFun List.Disjoint g.entries) := by
    refine g.nodup_ids.imp fun {b b'} different => ?_
    rintro ⟨e, id⟩ listed listed'
    have owned := (tidy.members.1 (mem_entries.1 listed)).2
    have owned' := (tidy.members.1 (mem_entries.1 listed')).2
    exact different (Option.some.inj (owned.symm.trans owned'))
  have once : ∀ b ∈ g.ids, (g.entries b).Nodup := by
    intro b inside
    obtain ⟨m, found⟩ : ∃ m, g.node? b = some m :=
      ⟨_, Array.getElem?_eq_getElem (mem_ids.1 inside)⟩
    rw [entries_of_node? found]
    exact nodup_toList m.members
  refine (List.perm_ext_iff_of_nodup (List.nodup_flatMap.2 ⟨once, apart⟩)
    (nodup_toList g.nodeOf)).2 ?_
  rintro ⟨e, id⟩
  rw [List.mem_flatMap, Std.TreeMap.mem_toList_iff_getElem?_eq_some]
  constructor
  · rintro ⟨b, -, listed⟩
    exact (tidy.members.1 (mem_entries.1 listed)).1
  · intro known
    obtain ⟨b, owned⟩ := tidy.exists_owner? known nofun
    obtain ⟨s, shape⟩ := exists_shape?_of_owner? owned
    obtain ⟨s', shape', -⟩ := tidy.owner_rank ordered shape owned
    exact ⟨b, mem_ids.2 (lt_size_of_shape? shape'), mem_entries.2 (tidy.members.2 ⟨known, owned⟩)⟩

/-- The node of an event carries the event. -/
theorem exists_node?_of_event (tidy : g.Tidy t c loose) (known : g.nodeOf[e]? = some id) :
    ∃ n, g.node? id = some n ∧ n.event = e := by
  obtain ⟨s, -, shape, -, anchor, -⟩ := tidy.shape?_of_event known
  obtain ⟨n, found, rfl⟩ := exists_node?_of_shape? shape
  exact ⟨n, found, anchor⟩

end Tidy

end Graph

/-! ### Answers -/

namespace Answer

/-- Whatever is asked of a fresh answer, an entry of a block is the node of its event and belongs to
the block, and the node of an event is listed by its owner, under its event, and nowhere else.  So
nothing is lost and nothing is listed twice: the entries of all blocks, one after the other, are the
nodes of events in another order. -/
theorem members_match_owners (t : Trace) (c : Config) (ordered : t.WellOrdered)
    (counter : AnswerCounter) (calls : List Call)
    (inside : ∀ call ∈ calls, call.event.index < t.size) :
    ∃ a, (new t c counter).1.run calls = .ok a ∧
      (∀ call ∈ calls, a.graph.Cached call.event) ∧
      (∀ b m (e : EventId) id, a.graph.node b = .ok m → m.members[e]? = some id →
        m.isBlock = true ∧ a.graph.nodeOf[e]? = some id ∧
          ∃ n, a.graph.node id = .ok n ∧ n.event = e ∧ n.owner = some b) ∧
      (∀ (e : EventId) id, a.graph.nodeOf[e]? = some id →
        ∃ n b m, a.graph.node id = .ok n ∧ n.event = e ∧ n.owner = some b ∧
          a.graph.node b = .ok m ∧ m.members[e]? = some id ∧
          ∀ b' m' (e' : EventId), a.graph.node b' = .ok m' → m'.members[e']? = some id →
            b' = b ∧ e' = e) ∧
      (a.graph.ids.flatMap a.graph.entries).Perm a.graph.nodeOf.toList := by
  obtain ⟨a, succeeds, reached⟩ := (orderly_new t c counter).run ordered inside
  have tidy := reached.tidy
  have owner : ∀ {id n}, a.graph.node? id = some n → a.graph.owner? id = n.owner := fun found =>
    Graph.owner?_of_shape? (Graph.shape?_of_node? found)
  have listing : ∀ {b m} {e : EventId} {id}, a.graph.node b = .ok m → m.members[e]? = some id →
      a.graph.nodeOf[e]? = some id ∧ a.graph.owner? id = some b := by
    intro b m e id found listed
    rw [← Graph.member?_of_node? (Graph.node_eq_ok_iff.1 found)] at listed
    exact tidy.members.1 listed
  refine ⟨a, succeeds, fun call member => reached.cached _ (List.mem_map_of_mem member),
    fun b m e id found listed => ?_, fun e id known => ?_, tidy.entries_perm ordered⟩
  · obtain ⟨known, owned⟩ := listing found listed
    obtain ⟨n, found', event⟩ := tidy.exists_node?_of_event known
    obtain ⟨s, shape, isBlock, -⟩ :=
      tidy.owner_rank ordered (Graph.shape?_of_node? found') owned
    rw [Graph.shape?_of_node? (Graph.node_eq_ok_iff.1 found), Option.some.injEq] at shape
    subst shape
    exact ⟨m.isBlock_shape.symm.trans isBlock, known, n, Graph.node_eq_ok_iff.2 found', event,
      (owner found').symm.trans owned⟩
  · obtain ⟨n, found, event⟩ := tidy.exists_node?_of_event known
    obtain ⟨b, owned⟩ := tidy.exists_owner? known nofun
    obtain ⟨s, shape, -⟩ := tidy.owner_rank ordered (Graph.shape?_of_node? found) owned
    obtain ⟨m, found', rfl⟩ := Graph.exists_node?_of_shape? shape
    have listed := tidy.members.2 ⟨known, owned⟩
    rw [Graph.member?_of_node? found'] at listed
    refine ⟨n, b, m, Graph.node_eq_ok_iff.2 found, event, (owner found).symm.trans owned,
      Graph.node_eq_ok_iff.2 found', listed, fun b' m' e' found'' listed' => ?_⟩
    obtain ⟨known', owned'⟩ := listing found'' listed'
    exact ⟨Option.some.inj (owned'.symm.trans owned), tidy.event_unique known' known⟩

/-- The block of a loop lists both decisions.  The first one shares its event with the loop block
and with the block of the thread, and it is listed by nobody else. -/
theorem members_match_owners_decidedTwice :
    decidedTwice.WellOrdered ∧
      ∃ a, (new decidedTwice {} {}).1.run [.explain ⟨1⟩] = .ok a ∧
        ∃ first l m, a.graph.nodeOf[(⟨0⟩ : EventId)]? = some first ∧ a.graph.node l = .ok m ∧
          m.kind.isLoop = true ∧ m.event = ⟨0⟩ ∧ m.members[(⟨0⟩ : EventId)]? = some first ∧
          (∀ b n (e : EventId), a.graph.node b = .ok n → n.members[e]? = some first →
            b = l ∧ e = ⟨0⟩) ∧
          (a.graph.ids.flatMap a.graph.entries).length = 2 := by
  have ordered : decidedTwice.WellOrdered := by decide +kernel
  have inside : ∀ call ∈ [Call.explain ⟨1⟩], call.event.index < decidedTwice.size := by
    decide +kernel
  have seen : ((new decidedTwice {} {}).1.run [.explain ⟨1⟩]).toOption.map (fun a =>
      ((a.graph.node? ⟨3⟩).map (fun m => (m.kind, m.event)), a.graph.nodeOf[(⟨0⟩ : EventId)]?,
        a.graph.member? ⟨3⟩ ⟨0⟩, a.graph.nodeOf.toList.length)) =
      some (some (.loop [], ⟨0⟩), some ⟨0⟩, some ⟨0⟩, 2) := by decide +kernel
  obtain ⟨a, succeeds, seen⟩ := exists_ok_of_view seen
  simp only [Prod.mk.injEq, Option.map_eq_some_iff] at seen
  obtain ⟨⟨m, found, kind, event⟩, known, listed, count⟩ := seen
  obtain ⟨a', succeeds', -, -, once, perm⟩ :=
    members_match_owners decidedTwice {} ordered {} _ inside
  cases succeeds.symm.trans succeeds'
  rw [Graph.member?_of_node? found] at listed
  have found := Graph.node_eq_ok_iff.2 found
  obtain ⟨-, b, -, -, -, -, -, -, only⟩ := once ⟨0⟩ ⟨0⟩ known
  refine ⟨ordered, a, succeeds, ⟨0⟩, ⟨3⟩, m, known, found, by rw [kind]; rfl, event, listed, ?_,
    perm.length_eq.trans count⟩
  intro b' n e found' listed'
  obtain ⟨rfl, -⟩ := only ⟨3⟩ m ⟨0⟩ found listed
  exact only b' n e found' listed'

end Answer

end Inquest
