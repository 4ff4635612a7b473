import Mathlib.Data.List.Chain
import Inquest.Proofs.Explanation.Placement

/-!
# Events that wait for each other

The events that have to be placed are kept on a stack.  An event that waits for an earlier one gets
that one put on top of it, and an event that waits for nothing is created; an event that was waiting
is asked again when its turn comes.

The events on the stack form a chain.  It is followed down to an event that waits for nothing, and
nothing changes on the way.  Once that event has a node, the event under it has nothing to wait for
any more, since it waited for no other; so the chain is worked off from its earliest event on, and
asking again leads nowhere.  This gives a closed form for the stack, on any graph and with the same
faults: find the whole chain first, and then create its events in order.

On a well-ordered recording every event of a chain can be created when its turn comes, so every
event can be placed, whatever has been placed before, and the graph stays tidy.

## Main Definitions

* `Graph.chain` - the events that an event waits for, directly or not, earliest first
* `Graph.ensure` - one step of placing, which gives an event a node if it has none
* `Graph.Spares` - a way to place events that takes no node away
* `Graph.Queued` - events each of which waits for the one before it

## Main Statements

* `Graph.settle_eq` - working off the stack creates the events of the chain in order
* `Graph.placeWithin_succ` - the same for placing an event
* `Graph.queue_spec` - the events that are to be placed with an event form a queue
* `Graph.place_spec`, `Graph.place_cases` - every recorded event can be placed, and how
-/

namespace Inquest.Graph

variable {g g' : Graph} {t : Trace} {c : Config} {loose : Option EventId} {nested : Placing}
variable {e f k : EventId} {id b : NodeId} {r : Record} {new : Set EventId}

/-! ### Nodes that are found, and nodes that stay -/

/-- The nodes that a table lists are found. -/
theorem hits_placeWithin (t : Trace) (c : Config) (depth : Nat) : Hits (placeWithin t c depth) := by
  intro g e id known
  unfold placeWithin
  rw [known]

/-- A way to place events that takes no node away. -/
def Spares (nested : Placing) : Prop :=
  ∀ {g : Graph} {e : EventId} {g' : Graph} {id : NodeId}, nested g e = .ok (g', id) →
    ∀ {e'}, g.Cached e' → g'.Cached e'

theorem Cached.congr (cached : g.Cached e) (same : g'.nodeOf = g.nodeOf) : g'.Cached e := by
  rw [Cached, same]
  exact cached

theorem nodeOf_of_recomputeRuns (grouped : g.recomputeRuns t id = .ok g') :
    g'.nodeOf = g.nodeOf := by
  obtain ⟨n, found, -⟩ := bind_eq_ok_iff.1 grouped
  obtain rfl := recomputeRuns_eq (node_eq_ok_iff.1 found) grouped
  exact (foldl_resolvePath_alike t n.members.values g).nodeOf

theorem nodeOf_of_attach (attached : g.attach t id b = .ok g') : g'.nodeOf = g.nodeOf := by
  obtain ⟨n, m, g₂, -, -, deepened, grouped⟩ := attach_cases attached
  have first : g₂.nodeOf = g.nodeOf := by
    split at deepened
    · exact (alike_of_setDepth deepened).nodeOf
    · cases deepened
      rfl
  split at grouped
  · exact (nodeOf_of_recomputeRuns grouped).trans first
  · cases grouped
    exact first

theorem nodeOf_of_rehome (rehomed : g.rehome t id b = .ok g') : g'.nodeOf = g.nodeOf := by
  obtain ⟨g₁, detached, rehomed⟩ := bind_eq_ok_iff.1 rehomed
  obtain ⟨g₂, attached, refreshed⟩ := bind_eq_ok_iff.1 rehomed
  have left : g₁.nodeOf = g.nodeOf := by
    obtain ⟨n, -, ⟨-, rfl⟩ | ⟨b, -, rfl⟩⟩ := detach_cases detached <;> rfl
  refine refreshDepths_induction (P := fun g' => g'.nodeOf = g.nodeOf)
    ((nodeOf_of_attach attached).trans left) ?_ refreshed
  intro g₁ g₂ x depth same _ deepened
  exact (alike_of_setDepth deepened).nodeOf.trans same

theorem nodeOf_of_threadBlock {thread : ThreadId} (made : g.threadBlock t thread e = (g', b)) :
    g'.nodeOf = g.nodeOf := by
  unfold threadBlock at made
  split at made <;> cases made <;> rfl

section Spares

variable (spares : Spares nested)

include spares

theorem Spares.loopBlock (made : g.loopBlock t nested f = .ok (g', b)) (cached : g.Cached e) :
    g'.Cached e := by
  obtain ⟨rfl, -⟩ | ⟨g₁, anchor, n, -, placed, -, rfl, made⟩ := loopBlock_steps made
  · exact cached
  · have first := spares placed cached
    obtain ⟨-, rfl⟩ | ⟨outer, g₂, -, attached, rehomed⟩ := made
    · exact first
    · have joined := nodeOf_of_attach attached
      exact first.congr ((nodeOf_of_rehome rehomed).trans joined)

theorem Spares.controlBlock (made : g.controlBlock t nested k = .ok (g', b))
    (cached : g.Cached e) : g'.Cached e := by
  obtain ⟨rfl, -⟩ | ⟨g₁, id, n, g₂, -, placed, -, entered, found⟩ := controlBlock_steps made
  · exact cached
  · have first := spares placed cached
    rw [entered]
    obtain ⟨-, rfl⟩ | ⟨thread, -, -, found⟩ := found
    · exact first
    · have made := nodeOf_of_threadBlock found
      exact first.congr made

theorem Spares.blockFor (made : g.blockFor t c nested f = .ok (g', b)) (cached : g.Cached e) :
    g'.Cached e := by
  obtain ⟨r, -, ⟨-, made⟩ | ⟨k, head, g₁, b₁, thread, -, -, found, -, chosen⟩⟩ :=
    blockFor_cases made
  · exact cached.congr (nodeOf_of_threadBlock made)
  · have first : g₁.Cached e := by
      cases head with
      | none => exact spares.controlBlock found cached
      | some first => exact spares.loopBlock found cached
    split at chosen
    · cases chosen
      exact first
    · exact first.congr (nodeOf_of_threadBlock chosen)

/-- An event has a node once its node was made, and no other event loses its own. -/
theorem Spares.create (made : g.create t c nested f = .ok g') (there : e = f ∨ g.Cached e) :
    g'.Cached e := by
  obtain ⟨r, g₂, b, -, found, attached⟩ := create_cases made
  have added : (g.addEvent t f r.kind).Cached e := by
    by_cases self : e = f
    · exact ⟨⟨g.size⟩, (Ident.getElem?_insert ..).trans (if_pos self)⟩
    · obtain ⟨id, known⟩ := there.resolve_left self
      exact ⟨id, (Ident.getElem?_insert ..).trans ((if_neg self).trans known)⟩
  exact (spares.blockFor found added).congr (nodeOf_of_attach attached)

theorem Spares.settle {n : Nat} {stack : List EventId}
    (settled : settle t c nested n stack g = .ok g') (cached : g.Cached e) : g'.Cached e := by
  induction n generalizing stack g with
  | zero =>
    cases stack with
    | nil => cases settled; exact cached
    | cons current rest => cases settled
  | succ n ih =>
    cases stack with
    | nil => cases settled; exact cached
    | cons current rest =>
      rw [Graph.settle] at settled
      split at settled
      · exact ih settled cached
      · obtain ⟨needed, -, settled⟩ := bind_eq_ok_iff.1 settled
        cases needed with
        | some earlier => exact ih settled cached
        | none =>
          obtain ⟨g₁, made, settled⟩ := bind_eq_ok_iff.1 settled
          exact ih settled (spares.create made (.inr cached))

end Spares

/-- Placing events takes no node away, however deep the placements are nested. -/
theorem spares_placeWithin (t : Trace) (c : Config) (depth : Nat) :
    Spares (placeWithin t c depth) := by
  induction depth with
  | zero =>
    intro g e g' id placed e' cached
    cases known : g.nodeOf[e]? with
    | some id' =>
      rw [hits_placeWithin t c _ known] at placed
      cases placed
      exact cached
    | none =>
      simp only [placeWithin, known] at placed
      cases placed
  | succ depth ih =>
    intro g e g' id placed e' cached
    cases known : g.nodeOf[e]? with
    | some id' =>
      rw [hits_placeWithin t c _ known] at placed
      cases placed
      exact cached
    | none =>
      simp only [placeWithin, known] at placed
      obtain ⟨g₁, settled, placed⟩ := bind_eq_ok_iff.1 placed
      obtain ⟨_, -, placed⟩ := bind_eq_ok_iff.1 placed
      cases placed
      exact Spares.settle ih settled cached

/-! ### The chain of an event -/

theorem contains_iff_cached : g.nodeOf.contains e = true ↔ g.Cached e := by
  rw [Std.TreeMap.contains_eq_isSome_getElem?, Option.isSome_iff_exists, Cached]

/-- The events to create for an event, earliest first, put before the ones given.  As many
steps as the number of the event are enough, for each goes to an earlier event. -/
def chain (g : Graph) (t : Trace) (c : Config) :
    Nat → EventId → List EventId → Except Fault (List EventId)
  | 0, event, later => do
    let _ ← g.awaited t c event
    return event :: later
  | n + 1, event, later => do
    match ← g.awaited t c event with
    | none => return event :: later
    | some earlier => chain g t c n earlier (event :: later)

/-- The graph with a node for an event, made if there is none. -/
def ensure (t : Trace) (c : Config) (nested : Placing) (g : Graph) (e : EventId) :
    Except Fault Graph :=
  if g.nodeOf.contains e then .ok g else g.create t c nested e

theorem ensure_of_cached (cached : g.Cached e) : ensure t c nested g e = .ok g :=
  if_pos (contains_iff_cached.2 cached)

theorem ensure_of_not_cached (missing : ¬ g.Cached e) :
    ensure t c nested g e = g.create t c nested e :=
  if_neg (mt contains_iff_cached.1 missing)

theorem cached_of_ensure (spares : Spares nested) (ensured : ensure t c nested g e = .ok g') :
    g'.Cached e := by
  by_cases cached : g.Cached e
  · rw [ensure_of_cached cached] at ensured
    cases ensured
    exact cached
  · rw [ensure_of_not_cached cached] at ensured
    exact spares.create ensured (.inl rfl)

/-- What an event waits for is fixed by the recording: an earlier event, unless that has a node or
there is an entry for it in a table of blocks. -/
theorem awaited_cases {needed : Option EventId} (asked : g.awaited t c e = .ok needed) :
    (∀ g' : Graph, g'.awaited t c e = .ok none) ∨
      ∃ (f : EventId) (table : Graph → Std.TreeMap EventId NodeId), ∀ g' : Graph,
        g'.awaited t c e = .ok ((if (table g').contains f then none else some f).filter fun e' =>
          e' < e && !g'.nodeOf.contains e') := by
  unfold awaited at asked ⊢
  obtain ⟨control, read, asked⟩ := bind_eq_ok_iff.1 asked
  rw [read]
  cases control with
  | none => exact .inl fun _ => rfl
  | some control =>
    obtain ⟨head, loop, -⟩ := bind_eq_ok_iff.1 asked
    simp only [bind, Except.bind, loop]
    cases head with
    | some first => exact .inr ⟨first, loopBlocks, fun _ => rfl⟩
    | none => exact .inr ⟨control, controlBlocks, fun _ => rfl⟩

/-- An event waits for an earlier one that has no node, and for nothing once that has one. -/
theorem awaited_spec_of_some (awaits : g.awaited t c e = .ok (some f)) :
    f < e ∧ ¬ g.Cached f ∧ ∀ g' : Graph, g'.Cached f → g'.awaited t c e = .ok none := by
  obtain never | ⟨f', table, asked⟩ := awaited_cases awaits
  · cases (never g).symm.trans awaits
  · have awaited := (asked g).symm.trans awaits
    rw [Except.ok.injEq, Option.filter_eq_some_iff, Bool.and_eq_true, decide_eq_true_iff,
      Bool.not_eq_true'] at awaited
    obtain ⟨entry, before, unknown⟩ := awaited
    split at entry
    · cases entry
    · cases entry
      refine ⟨before, fun cached => ?_, fun g' cached => ?_⟩
      · rw [contains_iff_cached.2 cached] at unknown
        cases unknown
      · rw [asked g']
        split
        · rfl
        · rw [Option.filter_some, contains_iff_cached.2 cached, Bool.not_true, Bool.and_false]
          rfl

theorem not_cached_of_awaited (awaits : g.awaited t c e = .ok (some f)) : ¬ g.Cached f :=
  (awaited_spec_of_some awaits).2.1

/-! ### Working off the stack -/

section Settle

variable {n m : Nat} {later rest order : List EventId}

theorem settle_nil (n : Nat) : settle t c nested n [] g = .ok g := by
  cases n <;> rfl

/-- The event that an event waits for is put on top of it. -/
theorem settle_of_awaited (missing : ¬ g.Cached e) (awaits : g.awaited t c e = .ok (some f)) :
    settle t c nested (n + 1) (e :: rest) g = settle t c nested n (f :: e :: rest) g := by
  rw [settle, if_neg (mt contains_iff_cached.1 missing), awaits]
  rfl

/-- An event that waits for nothing gets a node. -/
theorem settle_of_ready (ready : g.awaited t c e = .ok none) :
    settle t c nested (n + 1) (e :: rest) g =
      (ensure t c nested g e).bind (settle t c nested n rest) := by
  rw [settle]
  by_cases cached : g.Cached e
  · rw [if_pos (contains_iff_cached.2 cached), ensure_of_cached cached]
    rfl
  · rw [if_neg (mt contains_iff_cached.1 cached), ensure_of_not_cached cached, ready]
    rfl

/-- A stack on which every event waited for the one above it is worked off from its top, whatever
became of the graph by then. -/
theorem settle_waiting (spares : Spares nested)
    (waits : order.IsChain fun f e => g.awaited t c e = .ok (some f))
    (ready : ∀ first ∈ order.head?, g'.awaited t c first = .ok none) :
    settle t c nested (n + order.length) (order ++ rest) g' =
      (order.foldlM (ensure t c nested) g').bind (settle t c nested n rest) := by
  induction order generalizing g' with
  | nil => rfl
  | cons e order ih =>
    rw [List.cons_append, List.length_cons, ← Nat.add_assoc, settle_of_ready (ready e rfl),
      List.foldlM_cons]
    cases ensured : ensure t c nested g' e with
    | error fault => rfl
    | ok g₁ =>
      refine ih waits.tail fun first isFirst => ?_
      obtain ⟨-, -, ready⟩ := awaited_spec_of_some (waits.rel_head? isFirst)
      exact ready g₁ (cached_of_ensure spares ensured)

/-- Following a chain down puts all of it on the stack.  Every event of it waits for the one above
it, and the one on top waits for nothing. -/
theorem settle_chain (nested : Placing) (enough : e.index ≤ n) (missing : ¬ g.Cached e)
    (waits : (e :: later).IsChain fun f e => g.awaited t c e = .ok (some f))
    (chained : g.chain t c n e later = .ok order) :
    (order.IsChain fun f e => g.awaited t c e = .ok (some f)) ∧
      (∀ first ∈ order.head?, g.awaited t c first = .ok none) ∧
      ∃ down, down ≤ e.index ∧ order.length = down + (e :: later).length ∧ ∀ left rest,
        settle t c nested (left + down) (e :: later ++ rest) g =
          settle t c nested left (order ++ rest) g := by
  induction n generalizing e later with
  | zero =>
    obtain ⟨needed, awaits, chained⟩ := bind_eq_ok_iff.1 chained
    cases chained
    have nothing : needed = none := by
      cases needed with
      | none => rfl
      | some f =>
        have before : f.index < e.index := (awaited_spec_of_some awaits).1
        omega
    exact ⟨waits, fun _ isFirst => Option.some.inj isFirst ▸ nothing ▸ awaits, 0, Nat.zero_le _,
      (Nat.zero_add _).symm, fun _ _ => rfl⟩
  | succ n ih =>
    rw [chain] at chained
    obtain ⟨needed, awaits, chained⟩ := bind_eq_ok_iff.1 chained
    cases needed with
    | none =>
      cases chained
      exact ⟨waits, fun _ isFirst => Option.some.inj isFirst ▸ awaits, 0, Nat.zero_le _,
        (Nat.zero_add _).symm, fun _ _ => rfl⟩
    | some f =>
      obtain ⟨before, unknown, -⟩ := awaited_spec_of_some awaits
      have before : f.index < e.index := before
      obtain ⟨waits', ready, down, few, length, settles⟩ :=
        ih (by omega) unknown (waits.cons_cons awaits) chained
      refine ⟨waits', ready, down + 1, by omega, ?_, fun left rest => ?_⟩
      · rw [length, List.length_cons]
        omega
      · rw [← Nat.add_assoc]
        exact (settle_of_awaited missing awaits).trans (settles left rest)

/-- A fault on the way down is the same fault on the stack. -/
theorem settle_of_chain_error {fault : Fault} (missing : ¬ g.Cached e) (enough : e.index < m)
    (chained : g.chain t c n e later = .error fault) :
    settle t c nested m (e :: rest) g = .error fault := by
  obtain ⟨m, rfl⟩ := Nat.exists_eq_add_one_of_ne_zero (Nat.ne_zero_of_lt enough)
  induction n generalizing e later rest m with
  | zero =>
    rw [chain] at chained
    rw [settle, if_neg (mt contains_iff_cached.1 missing)]
    cases awaits : g.awaited t c e with
    | error fault' =>
      rw [awaits] at chained
      cases chained
      rfl
    | ok needed =>
      rw [awaits] at chained
      cases chained
  | succ n ih =>
    rw [chain] at chained
    cases awaits : g.awaited t c e with
    | error fault' =>
      rw [awaits] at chained
      cases chained
      rw [settle, if_neg (mt contains_iff_cached.1 missing), awaits]
      rfl
    | ok needed =>
      rw [awaits] at chained
      cases needed with
      | none => cases chained
      | some f =>
        obtain ⟨before, unknown, -⟩ := awaited_spec_of_some awaits
        have before : f.index < e.index := before
        rw [settle_of_awaited missing awaits]
        obtain ⟨m', rfl⟩ : ∃ m', m = m' + 1 := ⟨m - 1, by omega⟩
        exact ih unknown chained m' (by omega)

/-- The way down leads to the whole chain on the stack, with rounds enough to work it off. -/
theorem settle_down (nested : Placing) (missing : ¬ g.Cached e)
    (chained : g.chain t c e.index e [] = .ok order) :
    settle t c nested (2 * e.index + 1) [e] g =
      settle t c nested (2 * (e.index + 1 - order.length) + order.length) order g := by
  obtain ⟨-, -, down, few, length, settles⟩ := settle_chain nested (Nat.le_refl e.index) missing
    (List.isChain_singleton e) chained
  rw [List.length_singleton] at length
  have rounds : 2 * e.index + 1 = 2 * (e.index + 1 - order.length) + order.length + down := by omega
  have turned := settles (2 * (e.index + 1 - order.length) + order.length) []
  rwa [← rounds, List.append_nil, List.append_nil] at turned

/-- Working off the stack of an event creates the events of its chain in order.  Every event of the
chain is met once on the way down and once on the way up, but for the last one, where the way
turns. -/
theorem settle_eq (spares : Spares nested) (missing : ¬ g.Cached e) :
    settle t c nested (2 * e.index + 1) [e] g =
      (g.chain t c e.index e []).bind fun order => order.foldlM (ensure t c nested) g := by
  cases chained : g.chain t c e.index e [] with
  | error fault => exact settle_of_chain_error missing (by omega) chained
  | ok order =>
    obtain ⟨waits, ready, -⟩ := settle_chain nested (Nat.le_refl e.index) missing
      (List.isChain_singleton e) chained
    have turned : settle t c nested (2 * (e.index + 1 - order.length) + order.length)
        (order ++ []) g = _ := settle_waiting spares waits ready
    rw [List.append_nil] at turned
    rw [settle_down nested missing chained, turned]
    show _ = order.foldlM (ensure t c nested) g
    cases order.foldlM (ensure t c nested) g with
    | error fault => rfl
    | ok g' => exact settle_nil _

end Settle

/-! ### Placing an event -/

/-- An event without a node gets one when the events that it waits for have been worked off. -/
theorem placeWithin_succ (unknown : g.nodeOf[e]? = none) (depth : Nat) :
    placeWithin t c (depth + 1) g e = do
      let order ← g.chain t c e.index e []
      let g ← order.foldlM (ensure t c (placeWithin t c depth)) g
      return (g, ← g.cached e) := by
  have missing : ¬ g.Cached e := by
    rintro ⟨id, known⟩
    cases unknown.symm.trans known
  conv => lhs; unfold placeWithin
  simp only [unknown, settle_eq (spares_placeWithin t c depth) missing, bind, Except.bind]
  cases g.chain t c e.index e [] <;> rfl

/-- An event is not waited for if it has a node, as it has when there is an entry for it in a table
of blocks. -/
theorem filter_awaited {table : Std.TreeMap EventId NodeId} (before : f < e)
    (held : ∀ {b : NodeId}, table[f]? = some b → g.Cached f) :
    ((if table.contains f then none else some f).filter fun e' =>
        e' < e && !g.nodeOf.contains e') = none ∧ g.Cached f ∨
      ((if table.contains f then none else some f).filter fun e' =>
        e' < e && !g.nodeOf.contains e') = some f := by
  cases entry : table[f]? with
  | some b =>
    have contains : table.contains f = true := by
      rw [Std.TreeMap.contains_eq_isSome_getElem?, entry, Option.isSome_some]
    rw [if_pos contains]
    exact .inl ⟨rfl, held entry⟩
  | none =>
    have missing : ¬ table.contains f = true := by
      rw [Std.TreeMap.contains_eq_isSome_getElem?, entry]
      exact Bool.false_ne_true
    rw [if_neg missing]
    by_cases cached : g.Cached f
    · refine .inl ⟨?_, cached⟩
      rw [Option.filter_some, contains_iff_cached.2 cached, Bool.not_true, Bool.and_false]
      rfl
    · refine .inr ?_
      have unknown := Bool.not_eq_true _ ▸ mt contains_iff_cached.1 cached
      rw [Option.filter_some, unknown, decide_eq_true before]
      rfl

/-- An event waits for nothing, or for what it needs. -/
theorem awaited_spec (tidy : g.Tidy t c loose) (ordered : t.WellOrdered)
    (recorded : t.record? e = some r) :
    g.awaited t c e = .ok none ∧ g.Ready t c e ∨
      ∃ needed, g.awaited t c e = .ok (some needed) ∧ t.needs? c e = some needed := by
  have control : t.control e = .ok r.control :=
    Trace.map_read_of_record? recorded Record.control
  have controlOf : t.controlOf? e = r.control := by
    rw [Trace.controlOf?, recorded, Option.bind_some]
  unfold awaited
  rw [control]
  cases controlled : r.control with
  | none =>
    refine .inl ⟨rfl, fun needed waits => ?_⟩
    simp [Trace.needs?, Trace.loopOf?, controlOf, controlled] at waits
  | some k =>
    simp only [bind, Except.bind, ordered.loopHead_eq_ok c recorded controlled]
    cases loop : t.loopOf? c e with
    | some first =>
      have needs := Trace.needs?_of_loopOf? loop
      rcases filter_awaited (ordered.needs?_lt recorded needs)
        (fun entry => (tidy.keyed entry).1) with ⟨none, cached⟩ | some
      · exact .inl ⟨congrArg Except.ok none, fun needed waits =>
          Option.some.inj (needs.symm.trans waits) ▸ cached⟩
      · exact .inr ⟨first, congrArg Except.ok some, needs⟩
    | none =>
      have needs := Trace.needs?_of_controlOf? loop (controlOf.trans controlled)
      rcases filter_awaited (ordered.needs?_lt recorded needs)
        (fun entry => (tidy.memo entry).1) with ⟨none, cached⟩ | some
      · exact .inl ⟨congrArg Except.ok none, fun needed waits =>
          Option.some.inj (needs.symm.trans waits) ▸ cached⟩
      · exact .inr ⟨k, congrArg Except.ok some, needs⟩

/-- Every event of the list but the first waits for the one before it. -/
def Queued (t : Trace) (c : Config) (order : List EventId) : Prop :=
  order.IsChain fun earlier e => t.needs? c e = some earlier

/-- The events to create for an event form a queue, and its first event waits for nothing.  The
event that is to be placed requires all of them. -/
theorem chain_spec (tidy : g.Tidy t c loose) (ordered : t.WellOrdered) {n : Nat} {goal : EventId}
    {later : List EventId} (inside : goal.index < t.size) (enough : e.index ≤ n)
    (required : ∀ e' ∈ e :: later, t.Requires c goal e') (queued : Queued t c (e :: later)) :
    ∃ first rest, g.chain t c n e later = .ok (first :: rest) ∧ g.Ready t c first ∧
      Queued t c (first :: rest) ∧ (∀ e' ∈ first :: rest, t.Requires c goal e') ∧
      e :: later ⊆ first :: rest := by
  have recorded {e'} (requires : t.Requires c goal e') : ∃ r, t.record? e' = some r :=
    Trace.record?_of_lt (ordered.lt_size_of_requires inside requires)
  obtain ⟨r, recorded'⟩ := recorded (required e List.mem_cons_self)
  have awaited := awaited_spec tidy ordered recorded'
  induction n generalizing e later r with
  | zero =>
    rcases awaited with ⟨none, ready⟩ | ⟨needed, -, needs⟩
    · refine ⟨e, later, ?_, ready, queued, required, List.Subset.refl _⟩
      simp only [chain, none, bind, Except.bind]
      rfl
    · have before : needed.index < e.index := ordered.needs?_lt recorded' needs
      omega
  | succ n ih =>
    rcases awaited with ⟨none, ready⟩ | ⟨needed, waits, needs⟩
    · refine ⟨e, later, ?_, ready, queued, required, List.Subset.refl _⟩
      simp only [chain, none, bind, Except.bind]
      rfl
    · have before : needed.index < e.index := ordered.needs?_lt recorded' needs
      have required' : ∀ e' ∈ needed :: e :: later, t.Requires c goal e' :=
        List.forall_mem_cons.2 ⟨(required e List.mem_cons_self).tail needs, required⟩
      obtain ⟨r'', recorded''⟩ := recorded (required' needed List.mem_cons_self)
      obtain ⟨first, rest, succeeds, ready, queued', required'', subset⟩ :=
        ih (by omega) required' (List.IsChain.cons_cons needs queued) r'' recorded''
          (awaited_spec tidy ordered recorded'')
      refine ⟨first, rest, ?_, ready, queued', required'',
        fun e' member => subset (List.mem_cons_of_mem needed member)⟩
      simp only [chain, waits, bind, Except.bind, succeeds]

theorem nodeOf_of_not_cached (missing : ¬ g.Cached e) : g.nodeOf[e]? = none :=
  Option.eq_none_iff_forall_ne_some.2 fun id known => missing ⟨id, known⟩

/-- The queue of a recorded event can be found.  The event is in it and requires all of it, and the
first event of it waits for nothing. -/
theorem queue_spec (tidy : g.Tidy t c loose) (ordered : t.WellOrdered)
    (inside : e.index < t.size) :
    ∃ order, g.chain t c e.index e [] = .ok order ∧ e ∈ order ∧ Queued t c order ∧
      (∀ first ∈ order.head?, g.Ready t c first) ∧
      ∀ e' ∈ order, t.Requires c e e' ∧ e'.index < t.size := by
  obtain ⟨first, rest, chained, ready, queued, required, subset⟩ :=
    chain_spec tidy ordered inside (Nat.le_refl e.index)
      (fun e' member => List.mem_singleton.1 member ▸ .refl) (List.isChain_singleton e)
  exact ⟨first :: rest, chained, subset List.mem_cons_self, queued,
    fun _ isFirst => Option.some.inj isFirst ▸ ready,
    fun e' member => ⟨required e' member,
      ordered.lt_size_of_requires inside (required e' member)⟩⟩

/-- An event can be given a node once the event that it waits for has one. -/
theorem ensure_spec (tidy : g.Tidy t c none) (ordered : t.WellOrdered) (hits : Hits nested)
    (inside : e.index < t.size) (ready : g.Ready t c e) (isNew : e ∈ new) :
    ∃ g', ensure t c nested g e = .ok g' ∧ g'.Tidy t c none ∧ g.Extends new g' ∧ g'.Cached e := by
  by_cases cached : g.Cached e
  · exact ⟨g, ensure_of_cached cached, tidy, .refl g, cached⟩
  · obtain ⟨r, recorded⟩ := Trace.record?_of_lt inside
    rw [ensure_of_not_cached cached]
    exact create_spec tidy ordered hits recorded (nodeOf_of_not_cached cached) ready isNew

/-- When the first event of a queue has a node, the next one is ready. -/
theorem Queued.ready {order : List EventId} (queued : Queued t c (e :: order))
    (cached : g.Cached e) : ∀ first ∈ order.head?, g.Ready t c first := by
  intro first isFirst needed waits
  have needs : t.needs? c first = some e := queued.rel_head? isFirst
  rw [waits, Option.some.injEq] at needs
  exact needs ▸ cached

/-- The events of a queue can be created one after the other. -/
theorem foldlM_ensure_spec (ordered : t.WellOrdered) (hits : Hits nested) (order : List EventId)
    (tidy : g.Tidy t c none) (ready : ∀ first ∈ order.head?, g.Ready t c first)
    (queued : Queued t c order) (inside : ∀ e ∈ order, e.index < t.size)
    (areNew : ∀ e ∈ order, e ∈ new) :
    ∃ g', order.foldlM (ensure t c nested) g = .ok g' ∧ g'.Tidy t c none ∧ g.Extends new g' ∧
      ∀ e ∈ order, g'.Cached e := by
  induction order generalizing g with
  | nil => exact ⟨g, rfl, tidy, .refl g, nofun⟩
  | cons e rest ih =>
    obtain ⟨g₁, succeeds, tidy₁, extends₁, cached⟩ := ensure_spec tidy ordered hits
      (inside e List.mem_cons_self) (ready e rfl) (areNew e List.mem_cons_self)
    obtain ⟨g₂, succeeds₂, tidy₂, extends₂, cached₂⟩ := ih tidy₁ (queued.ready cached) queued.tail
      (fun e' member => inside e' (List.mem_cons_of_mem e member))
      fun e' member => areNew e' (List.mem_cons_of_mem e member)
    refine ⟨g₂, ?_, tidy₂, extends₁.trans extends₂, fun e' member => ?_⟩
    · rw [List.foldlM_cons, succeeds]
      exact succeeds₂
    · rcases List.mem_cons.1 member with rfl | member
      · exact extends₂.cached cached
      · exact cached₂ e' member

/-- Every recorded event can be placed, whatever has been placed before.  No events but those that
it requires are placed with it. -/
theorem place_spec (tidy : g.Tidy t c none) (ordered : t.WellOrdered)
    (inside : e.index < t.size) :
    ∃ g' id, g.place t c e = .ok (g', id) ∧ g'.Tidy t c none ∧
      g.Extends (t.requirements c [e]) g' ∧ g'.nodeOf[e]? = some id := by
  unfold place
  cases known : g.nodeOf[e]? with
  | some id => exact ⟨g, id, hits_placeWithin t c _ known, tidy, .refl g, known⟩
  | none =>
    obtain ⟨order, chained, member, queued, ready, required⟩ := queue_spec tidy ordered inside
    have areNew : ∀ e' ∈ order, e' ∈ t.requirements c [e] := fun e' member =>
      ⟨e, List.mem_singleton_self e, (required e' member).1⟩
    obtain ⟨g', succeeds, tidy', extends', cached⟩ :=
      foldlM_ensure_spec ordered (hits_placeWithin t c t.size) order tidy ready queued
        (fun e' member => (required e' member).2) areNew
    obtain ⟨id, known'⟩ := cached e member
    refine ⟨g', id, ?_, tidy', extends', known'⟩
    rw [placeWithin_succ known]
    simp only [bind, Except.bind, chained, succeeds, Graph.cached, known']
    rfl

/-- Placing an event without a node, one step after the other: its queue is found and worked off. -/
theorem place_cases (missing : ¬ g.Cached e) (placed : g.place t c e = .ok (g', id)) :
    ∃ order, g.chain t c e.index e [] = .ok order ∧
      order.foldlM (ensure t c (placeWithin t c t.size)) g = .ok g' := by
  rw [place, placeWithin_succ (nodeOf_of_not_cached missing)] at placed
  obtain ⟨order, chained, placed⟩ := bind_eq_ok_iff.1 placed
  obtain ⟨g₁, made, placed⟩ := bind_eq_ok_iff.1 placed
  obtain ⟨id', -, placed⟩ := bind_eq_ok_iff.1 placed
  cases placed
  exact ⟨order, chained, made⟩

/-- The empty graph is tidy. -/
theorem tidy_empty (t : Trace) (c : Config) : ({} : Graph).Tidy t c none := by
  have noShape : ∀ x, ({} : Graph).shape? x = none := fun x => by
    rw [shape?, node?, Array.getElem?_empty, Option.map_none]
  have noEntry : ∀ p, ({} : Graph).at? p = none := by
    intro p
    cases p with
    | event e => exact Std.TreeMap.getElem?_emptyc
    | loop first => exact Std.TreeMap.getElem?_emptyc
    | thread thread => exact Std.TreeMap.getElem?_emptyc
  have uncached : ∀ e, ¬ ({} : Graph).Cached e := by
    rintro e ⟨id, known⟩
    cases (noEntry (.event e)).symm.trans known
  refine ⟨fun {p id} => ?_, fun {id s} found => ?_, fun {f id} found => ?_,
    fun cached => absurd cached (uncached _), fun {k b} stands => ?_, fun {id p} known => ?_,
    fun cached => absurd cached (uncached _), fun {b e id} => ?_, fun {k b} stands => ?_⟩
  · rw [noEntry, place?, noShape, Option.map_none]
    exact ⟨fun known => absurd known.symm (Option.some_ne_none id),
      fun known => absurd known.symm (Option.some_ne_none p)⟩
  · rw [noShape] at found
    cases found
  · cases (noEntry (.loop f)).symm.trans found
  · rw [Std.TreeMap.getElem?_emptyc] at stands
    cases stands
  · rw [place?, noShape] at known
    cases known
  · rw [member?, noShape, owner?, noShape, Option.bind_none, Option.bind_none]
    exact ⟨fun listed => absurd listed.symm (Option.some_ne_none id),
      fun owned => absurd owned.2.symm (Option.some_ne_none b)⟩
  · rw [Std.TreeMap.getElem?_emptyc] at stands
    cases stands

end Inquest.Graph
