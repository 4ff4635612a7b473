import Inquest.Proofs.Explanation.Additions
import Inquest.Proofs.Walk

/-!
# Bringing depths up to date

When a node moves into a new block, the depths of all blocks under it change.  They are brought up
to date by a walk along the members, and the walk looks into no more blocks than there are nodes.
Members belong to the block that lists them, and a node belongs to one block only, so the walk
never comes to a node twice: a node that it has met is either the one that it started from, which
comes before all nodes under it, or belongs to a block that the walk has left behind.

## Main Definitions

* `Graph.Descent` - a walk along members under way

## Main Statements

* `Graph.refreshDepths_alike` - depths can be brought up to date, and no shape changes
-/

namespace Inquest

/-! ### Members as a list -/

theorem nodup_values {members : Std.TreeMap EventId NodeId}
    (injective : ∀ {e e' : EventId} {id}, members[e]? = some id → members[e']? = some id → e = e') :
    members.values.Nodup := by
  rw [values_eq_map_toList, List.Nodup, List.pairwise_map]
  refine Std.TreeMap.distinct_keys_toList.imp_of_mem fun {a b} listed listed' different same => ?_
  refine different (Ident.compare_eq_iff.2 (injective
    (Std.TreeMap.mem_toList_iff_getElem?_eq_some.1 listed) ?_))
  rw [same]
  exact Std.TreeMap.mem_toList_iff_getElem?_eq_some.1 listed'

namespace Graph

variable {g g' : Graph} {t : Trace} {c : Config} {loose : Option EventId}
variable {id b x root current : NodeId} {n : Node} {processed rest stack : List NodeId}

/-- Setting the depths of several nodes succeeds, and changes no shape. -/
theorem foldlM_setDepth_alike (depth : Nat) (ids : List NodeId) (tidy : g.Tidy t c loose)
    (inside : ∀ x ∈ ids, x.index < g.size) :
    ∃ g', ids.foldlM (fun g id => g.setDepth t id depth) g = .ok g' ∧ g.Alike g' := by
  induction ids generalizing g with
  | nil => exact ⟨g, rfl, .refl g⟩
  | cons id rest ih =>
    obtain ⟨n, found⟩ : ∃ n, g.node? id = some n :=
      ⟨_, Array.getElem?_eq_getElem (inside id List.mem_cons_self)⟩
    obtain ⟨g₁, succeeds, alike⟩ := setDepth_alike tidy.readable found depth
    obtain ⟨g₂, succeeds', alike'⟩ := ih (tidy.alike alike) fun x listed => by
      rw [alike.size]
      exact inside x (List.mem_cons_of_mem _ listed)
    refine ⟨g₂, ?_, alike.trans alike'⟩
    rw [List.foldlM_cons, succeeds]
    exact succeeds'

/-! ### The walk -/

/-- The order in which nodes enclose each other. -/
def rank (g : Graph) (x : NodeId) : Nat := ((g.shape? x).map Shape.rank).getD 0

theorem Tidy.rank_lt (tidy : g.Tidy t c loose) (ordered : t.WellOrdered)
    (owned : g.owner? x = some b) : g.rank b < g.rank x := by
  obtain ⟨s, found, -⟩ := Option.bind_eq_some_iff.1 owned
  obtain ⟨m, found', -, below⟩ := tidy.owner_rank ordered found owned
  simpa [rank, found, found'] using below

theorem Tidy.owner?_ne_self (tidy : g.Tidy t c loose) (ordered : t.WellOrdered)
    (owned : g.owner? x = some b) : b ≠ x := by
  rintro rfl
  exact absurd (tidy.rank_lt ordered owned) (Nat.lt_irrefl _)

/-- A walk along members that started from a node: the blocks it has looked into and the nodes that
it has still to look into. -/
structure Descent (g : Graph) (root : NodeId) (processed stack : List NodeId) : Prop where
  /-- No node is met twice. -/
  nodup : (stack ++ processed).Nodup
  inside : ∀ x ∈ stack ++ processed, x.index < g.size
  /-- Every node but the first one was met as a member of a block. -/
  origin : ∀ x ∈ stack ++ processed, x = root ∨ ∃ b ∈ processed, g.owner? x = some b
  /-- The walk goes downward. -/
  below : ∀ x ∈ stack ++ processed, g.rank root ≤ g.rank x

namespace Descent

theorem start (inside : root.index < g.size) : g.Descent root [] [root] := by
  refine ⟨List.nodup_singleton root, fun x met => ?_, fun x met => ?_, fun x met => ?_⟩ <;>
    obtain rfl := List.mem_singleton.1 met
  · exact inside
  · exact .inl rfl
  · exact Nat.le_refl _

theorem alike (descent : g.Descent root processed stack) (alike : g.Alike g') :
    g'.Descent root processed stack := by
  have owners : ∀ x, g'.owner? x = g.owner? x := fun x => by rw [owner?, owner?, alike.shape?]
  have ranks : ∀ x, g'.rank x = g.rank x := fun x => by rw [rank, rank, alike.shape?]
  refine ⟨descent.nodup, fun x met => ?_, fun x met => ?_, fun x met => ?_⟩
  · rw [alike.size]
    exact descent.inside x met
  · simp only [owners]
    exact descent.origin x met
  · rw [ranks, ranks]
    exact descent.below x met

/-- There are no more nodes on the way than there are nodes. -/
theorem length_le (descent : g.Descent root processed stack) :
    stack.length + processed.length ≤ g.size := by
  rw [← List.length_append]
  exact Ident.length_le_of_nodup descent.nodup descent.inside

/-- The walk looks into one more block. -/
theorem step (descent : g.Descent root processed (current :: rest)) (tidy : g.Tidy t c loose)
    (ordered : t.WellOrdered) {nested : List NodeId} (nodup : nested.Nodup)
    (owned : ∀ x ∈ nested, g.owner? x = some current) :
    g.Descent root (current :: processed) (nested.reverse ++ rest) := by
  -- what is met by then are the members of the block and what was met before
  have perm : (nested.reverse ++ rest ++ current :: processed).Perm
      (nested ++ (current :: rest ++ processed)) := by
    rw [List.append_assoc]
    exact nested.reverse_perm.append List.perm_middle
  have met : ∀ {x}, x ∈ nested.reverse ++ rest ++ current :: processed →
      x ∈ nested ∨ x ∈ current :: rest ++ processed := fun listed =>
    List.mem_append.1 (perm.mem_iff.1 listed)
  have new : ∀ x ∈ nested, ¬ x ∈ current :: rest ++ processed := by
    intro x listed old
    rcases descent.origin x old with rfl | ⟨b, left, owned'⟩
    · exact absurd (descent.below current (List.mem_append_left _ List.mem_cons_self))
        (Nat.not_le.2 (tidy.rank_lt ordered (owned x listed)))
    · rw [owned x listed, Option.some.injEq] at owned'
      subst owned'
      exact (List.nodup_cons.1 descent.nodup).1 (List.mem_append_right _ left)
  refine ⟨?_, fun x listed => ?_, fun x listed => ?_, fun x listed => ?_⟩
  · refine perm.nodup_iff.2 (List.nodup_append'.2 ⟨nodup, descent.nodup, ?_⟩)
    exact fun x listed => new x listed
  · rcases met listed with listed | old
    · obtain ⟨s, found, -⟩ := Option.bind_eq_some_iff.1 (owned x listed)
      exact lt_size_of_shape? found
    · exact descent.inside x old
  · rcases met listed with listed | old
    · exact .inr ⟨current, List.mem_cons_self, owned x listed⟩
    · exact (descent.origin x old).imp_right fun ⟨b, left, owned⟩ =>
        ⟨b, List.mem_cons_of_mem _ left, owned⟩
  · rcases met listed with listed | old
    · have first := descent.below current (List.mem_append_left _ List.mem_cons_self)
      exact Nat.le_of_lt (Nat.lt_of_le_of_lt first (tidy.rank_lt ordered (owned x listed)))
    · exact descent.below x old

end Descent

/-- The members of a block that are blocks themselves belong to it, and are listed once. -/
theorem Tidy.nested_spec (tidy : g.Tidy t c loose) (found : g.node? current = some n)
    (p : NodeId → Bool) :
    (n.members.values.filter p).Nodup ∧
      ∀ x ∈ n.members.values.filter p, g.owner? x = some current := by
  have listed : ∀ {e : EventId} {x}, n.members[e]? = some x → g.member? current e = some x := by
    intro e x entry
    rw [member?, shape?_of_node? found, Option.bind_some]
    exact entry
  constructor
  · refine (nodup_values fun entry entry' => ?_).filter p
    exact tidy.event_unique (tidy.members.1 (listed entry)).1 (tidy.members.1 (listed entry')).1
  · intro x member
    obtain ⟨e, entry⟩ := mem_values.1 (List.mem_of_mem_filter member)
    exact (tidy.members.1 (listed entry)).2

/-- The depths under a node can be brought up to date with one round for each node, and no shape
changes. -/
theorem refreshDepths_alike (ordered : t.WellOrdered) {count : Nat} :
    ∀ {stack processed : List NodeId} {g : Graph}, g.Tidy t c loose →
      g.Descent root processed stack → count + processed.length = g.size →
      ∃ g', refreshDepths t count stack g = .ok g' ∧ g.Alike g' := by
  induction count with
  | zero =>
    intro stack processed g tidy descent rounds
    cases stack with
    | nil => exact ⟨g, rfl, .refl g⟩
    | cons current rest =>
      have short := descent.length_le
      rw [List.length_cons] at short
      omega
  | succ count ih =>
    intro stack processed g tidy descent rounds
    cases stack with
    | nil => exact ⟨g, rfl, .refl g⟩
    | cons current rest =>
      obtain ⟨n, found⟩ : ∃ n, g.node? current = some n :=
        ⟨_, Array.getElem?_eq_getElem
          (descent.inside current (List.mem_append_left _ List.mem_cons_self))⟩
      obtain ⟨nodup, owned⟩ := tidy.nested_spec found g.isBlock
      have descent' := descent.step tidy ordered nodup owned
      obtain ⟨g₁, deepened, alike⟩ := foldlM_setDepth_alike (n.depth + 1)
        (n.members.values.filter g.isBlock) tidy fun x listed => by
          obtain ⟨s, known, -⟩ := Option.bind_eq_some_iff.1 (owned x listed)
          exact lt_size_of_shape? known
      obtain ⟨g₂, succeeds, alike'⟩ := ih (tidy.alike alike) (descent'.alike alike) (by
        rw [alike.size, List.length_cons]
        omega)
      have looked : n.members.values.filterM (fun id => Node.isBlock <$> g.node id) =
          .ok (n.members.values.filter g.isBlock) :=
        filterM_node_eq_ok_iff.2 ⟨fun _ listed => tidy.readable.exists_node? found listed, rfl⟩
      refine ⟨g₂, ?_, alike.trans alike'⟩
      rw [refreshDepths, node_eq_ok_iff.2 found]
      simp only [bind, Except.bind, looked, deepened]
      exact succeeds

end Graph

end Inquest
