import Mathlib.Data.List.Sort
import Mathlib.Data.Set.Basic
import Inquest.Proofs.Unexecuted.Conversation

/-!
# The events behind an answer

The events that decided a node are gathered along its links.  Links go to what decides a node, and
on to what decides that, so nothing is gathered that the scope does not offer.  What the scope
offers may be missed, though: a link that would close a cycle is never made, and which link of a
cycle this is depends on where the cycle was entered.  Nothing is missed where no cycle lies ahead,
and nothing is missed by a node that is explained before all that lies on a cycle ahead of it.

## Main Definitions

* `Scope.DecidedBy`, `Scope.LeadsTo` - what decides an instruction, and what it leads to
* `Scope.OnCycle` - what leads to something else and back
* `Scope.Evidence` - the events behind all that an instruction leads to
* `Question.Gathers` - a node is linked, step by step, to all that it leads to

## Main Statements

* `Question.Sound.decidingEvents_eq` - what is gathered is what links lead to
* `Question.Settled.gathers_of_acyclic`, `Question.Settled.gathers_of_first` - where nothing is
  missed
* `Question.decidingEvents_spec` - how far the gathered events depend on what was asked before
* `Question.decidingEvents_differ_pingPong` - they do depend on it within a cycle
-/

namespace Inquest

/-! ### Sets are known by their members -/

instance {kind : IdentKind} : Std.Irrefl (α := Ident kind) (· < ·) :=
  ⟨fun a => Nat.lt_irrefl a.index⟩

instance {kind : IdentKind} : Std.Antisymm (α := Ident kind) (· < ·) :=
  ⟨fun _ _ less greater => absurd greater (Nat.lt_asymm less)⟩

/-- Two sets with the same members are equal. -/
theorem IdentSet.eq_of_mem_iff {kind : IdentKind} {s t : IdentSet kind}
    (same : ∀ a, a ∈ s ↔ a ∈ t) : s = t := by
  obtain ⟨l, ascending⟩ := s
  obtain ⟨l', ascending'⟩ := t
  congr
  exact ascending.eq_of_mem_iff ascending' same

/-! ### What an instruction leads to -/

namespace Scope

/-- The second instruction, under its expectation, is one of those that decide the first one. -/
def DecidedBy (s : Scope) (k k' : InstructionId × Expectation) : Prop :=
  k' ∈ s.decidersOf k.1 k.2

/-- The first instruction leads to the second one, from each to one of those that decide it. -/
def LeadsTo (s : Scope) : InstructionId × Expectation → InstructionId × Expectation → Prop :=
  Relation.ReflTransGen s.DecidedBy

/-- The instruction leads to another one that leads back to it. -/
def OnCycle (s : Scope) (k : InstructionId × Expectation) : Prop :=
  ∃ k', k' ≠ k ∧ s.LeadsTo k k' ∧ s.LeadsTo k' k

/-- The events that the reasons of all instructions point at that an instruction leads to. -/
def Evidence (s : Scope) (k : InstructionId × Expectation) : Set EventId :=
  { e | ∃ k' reason, s.LeadsTo k k' ∧ s.reasonOf k'.1 k'.2 = .ok reason ∧
    e ∈ reason.decidingEvents }

end Scope

namespace Question

variable {s : Scope} {q q' : Question} {a b id : UnexecutedId} {m n : Unexecuted}
variable {k k' : InstructionId × Expectation} {e : EventId}

/-! ### What is gathered -/

namespace Sound

variable (sound : Sound q) (found : q.node? id = some n)

include sound found

/-- Links lead to nodes of the graph. -/
theorem exists_of_reaches (reaches : q.Reaches id a) : ∃ m, q.node? a = some m := by
  rcases Relation.ReflTransGen.cases_tail reaches with rfl | ⟨b, -, step⟩
  · exact ⟨n, found⟩
  · obtain ⟨m, found', -⟩ := Option.map_eq_some_iff.1 (sound.linked step).2.2
    exact ⟨m, found'⟩

/-- Links lead from an explained node to explained nodes. -/
theorem done_of_reached (done : n.status = .done) (reaches : q.Reaches id a)
    (found' : q.node? a = some m) : m.status = .done := by
  rcases Relation.ReflTransGen.cases_tail reaches with rfl | ⟨b, -, step⟩
  · rw [found', Option.some.injEq] at found
    rwa [found]
  · have explained := (sound.linked step).2.2
    rwa [status?_of_node? found', Option.some.injEq] at explained

/-- The walk along the links of a node comes to an end, and visits what links lead to. -/
theorem walk_incoming :
    ∃ reached, walk (fun id => (·.incoming.toList) <$> q.node id) (q.size + 1) [id] [] =
        .ok reached ∧ ∀ a, a ∈ reached ↔ q.Reaches id a := by
  have short : ∀ ids : List UnexecutedId, ids.Nodup → (∀ a ∈ ids, q.Reaches id a) →
      ids.length ≤ q.size := by
    intro ids nodup reached
    refine Ident.length_le_of_nodup nodup fun a member => ?_
    obtain ⟨m, found'⟩ := sound.exists_of_reaches found (reached a member)
    exact lt_size_of_node? found'
  refine walk_reaches short (fun a reaches => ?_) (Nat.le_succ q.size)
  obtain ⟨m, found'⟩ := sound.exists_of_reaches found reaches
  refine ⟨m.incoming.toList, map_eq_ok_iff.2 ⟨m, node_eq_ok_iff.2 found', rfl⟩, fun c => ?_⟩
  show c ∈ m.incoming ↔ c ∈ q.incoming a
  rw [incoming_of_node? found']

/-- The events that decided a node can be gathered, and they are those that the nodes point at to
which its links lead. -/
theorem decidingEvents_eq :
    ∃ events, q.decidingEvents id = .ok events ∧
      ∀ e, e ∈ events ↔ ∃ a m, q.Reaches id a ∧ q.node? a = some m ∧
        e ∈ m.reason.decidingEvents := by
  obtain ⟨reached, walked, exact⟩ := sound.walk_incoming found
  have reads : ∀ a ∈ reached, Unexecuted.reason <$> q.node a =
      .ok (((q.node? a).map Unexecuted.reason).getD .unexplained) := by
    intro a member
    obtain ⟨m, found'⟩ := sound.exists_of_reaches found ((exact a).1 member)
    rw [found']
    exact map_eq_ok_iff.2 ⟨m, node_eq_ok_iff.2 found', rfl⟩
  have gathered : q.decidingEvents id = .ok (.ofList ((reached.map fun a =>
      ((q.node? a).map Unexecuted.reason).getD .unexplained).flatMap Reason.decidingEvents)) := by
    rw [decidingEvents, walked]
    simp only [bind, Except.bind, mapM_eq_ok reads]
    rfl
  refine ⟨_, gathered, fun e => ?_⟩
  rw [IdentSet.mem_ofList, List.mem_flatMap]
  constructor
  · rintro ⟨reason, listed, points⟩
    obtain ⟨a, member, rfl⟩ := List.mem_map.1 listed
    obtain ⟨m, found'⟩ := sound.exists_of_reaches found ((exact a).1 member)
    rw [found'] at points
    exact ⟨a, m, (exact a).1 member, found', points⟩
  · rintro ⟨a, m, reaches, found', points⟩
    refine ⟨m.reason, List.mem_map.2 ⟨a, (exact a).2 reaches, ?_⟩, points⟩
    rw [found']
    rfl

omit found

/-- Links lead on to what the scope leads on to. -/
theorem leadsTo_of_reaches (reaches : q.Reaches a b) (stands : q.key? a = some k) :
    ∃ k', q.key? b = some k' ∧ q.scope.LeadsTo k k' := by
  induction reaches with
  | refl => exact ⟨k, stands, .refl⟩
  | tail _ step ih =>
    obtain ⟨k₁, stands₁, leads⟩ := ih
    obtain ⟨⟨k₂, k', effect, cause, decides⟩, -⟩ := sound.linked step
    rw [stands₁, Option.some.injEq] at effect
    subst effect
    exact ⟨k', cause, leads.tail decides⟩

/-- Of an explained node, nothing is gathered that the scope does not offer. -/
theorem mem_evidence (found : q.node? id = some n) (done : n.status = .done)
    (reaches : q.Reaches id a) (found' : q.node? a = some m)
    (points : e ∈ m.reason.decidingEvents) :
    e ∈ q.scope.Evidence n.key := by
  obtain ⟨k', stands, leads⟩ := sound.leadsTo_of_reaches reaches (key?_of_node? found)
  rw [key?_of_node? found', Option.some.injEq] at stands
  subst stands
  have done' := sound.done_of_reached found done reaches found'
  exact ⟨m.key, m.reason, leads, (sound.fits found').reason done', points⟩

end Sound

/-! ### What is missed -/

/-- The node is linked, step by step, to all that the instruction leads to. -/
def Gathers (q : Question) (id : UnexecutedId) (k : InstructionId × Expectation) : Prop :=
  ∀ k', q.scope.LeadsTo k k' → ∃ a, q.Reaches id a ∧ q.key? a = some k'

namespace Settled

variable (settled : Settled s q)

include settled

/-- An explained node is linked to what decides it, or the link would close a cycle. -/
theorem exists_decider (found : q.node? a = some n) (done : n.status = .done)
    (decides : s.DecidedBy n.key k) :
    ∃ c, q.key? c = some k ∧ q.status? c = some .done ∧ (c ∈ q.incoming a ∨ q.Reaches c a) := by
  obtain ⟨c, m, found', rfl, done'⟩ := settled.explained_of_decider found done decides
  rw [← settled.scope] at decides
  obtain ⟨c', stands, missing⟩ := settled.sound.complete found done decides
  obtain rfl := settled.sound.distinct stands (key?_of_node? found')
  refine ⟨c', stands, by rw [status?_of_node? found', done'], ?_⟩
  rcases missing with linked | reaches | opened
  · exact .inl (by rwa [incoming_of_node? found])
  · exact .inr reaches
  · exact absurd opened (settled.resting c')

/-- A node gathers everything if it is linked to those nodes ahead of it that lie on a cycle. -/
theorem gathers_of_cycles (found : q.node? id = some n) (done : n.status = .done)
    (cycles : ∀ {c k}, q.key? c = some k → q.status? c = some .done → s.LeadsTo n.key k →
      s.OnCycle k → q.Reaches id c) : q.Gathers id n.key := by
  intro k leads
  rw [settled.scope] at leads
  induction leads with
  | refl => exact ⟨id, .refl, key?_of_node? found⟩
  | @tail k₁ k₂ before decides ih =>
    obtain ⟨b, reaches, stands⟩ := ih
    obtain ⟨m, found', rfl⟩ := key?_eq_some_iff.1 stands
    have done' := settled.sound.done_of_reached found done reaches found'
    obtain ⟨c, stands', explained, linked | back⟩ := settled.exists_decider found' done' decides
    · exact ⟨c, reaches.tail linked, stands'⟩
    · refine ⟨c, ?_, stands'⟩
      by_cases same : m.key = k₂
      · obtain rfl := settled.sound.distinct (same ▸ stands') stands
        exact reaches
      -- the link is missing because the decider leads back, and so it lies on a cycle
      · obtain ⟨k', effect, returns⟩ := settled.sound.leadsTo_of_reaches back stands'
        rw [stands, Option.some.injEq] at effect
        subst effect
        rw [settled.scope] at returns
        exact cycles stands' explained (before.tail decides) ⟨m.key, same, returns, .single decides⟩

/-- Nothing is missed where no cycle lies ahead. -/
theorem gathers_of_acyclic (found : q.node? id = some n) (done : n.status = .done)
    (acyclic : ∀ k, s.LeadsTo n.key k → ¬ s.OnCycle k) : q.Gathers id n.key :=
  settled.gathers_of_cycles found done fun _ _ leads cycle => absurd cycle (acyclic _ leads)

/-- Nothing is missed by a node that is explained before all that lies on a cycle ahead. -/
theorem gathers_of_first {p : Question} (before : Settled s p) (explained : p.explain id = .ok q)
    (found : q.node? id = some n) (done : n.status = .done)
    (first : ∀ a m, p.node? a = some m → m.status = .done → s.LeadsTo n.key m.key →
      ¬ s.OnCycle m.key) : q.Gathers id n.key := by
  have explored := before.explored_of_explain explained
  refine settled.gathers_of_cycles found done fun {c k} stands done' leads cycle => ?_
  rcases explored.reached done' with old | ⟨r, member, -, reaches⟩
  · obtain ⟨m, known, old⟩ := Option.map_eq_some_iff.1 old
    have kept := explored.key? (key?_of_node? known)
    rw [stands, Option.some.injEq] at kept
    subst kept
    exact absurd cycle (first c m known old leads)
  · rwa [← List.mem_singleton.1 member]

/-- Where everything is gathered, the events are those that the scope offers. -/
theorem mem_iff_mem_evidence {events : IdentSet .event} (found : q.node? id = some n)
    (done : n.status = .done) (gathers : q.Gathers id n.key)
    (gathered : ∀ e, e ∈ events ↔ ∃ a m, q.Reaches id a ∧ q.node? a = some m ∧
      e ∈ m.reason.decidingEvents) : e ∈ events ↔ e ∈ s.Evidence n.key := by
  rw [gathered, ← settled.scope]
  constructor
  · rintro ⟨a, m, reaches, found', points⟩
    exact settled.sound.mem_evidence found done reaches found' points
  · rintro ⟨k, reason, leads, settles, points⟩
    obtain ⟨a, reaches, stands⟩ := gathers k leads
    obtain ⟨m, found', rfl⟩ := key?_eq_some_iff.1 stands
    have done' := settled.sound.done_of_reached found done reaches found'
    obtain rfl := Except.ok.inj (((settled.sound.fits found').reason done').symm.trans settles)
    exact ⟨a, m, reaches, found', points⟩

end Settled

/-! ### What is asked later -/

namespace Evolves

variable (evolves : q.Evolves q')

include evolves

theorem incoming_of_done (done : q.status? a = some .done) : q'.incoming a = q.incoming a := by
  obtain ⟨n, found, done⟩ := Option.map_eq_some_iff.1 done
  obtain ⟨n', found', change⟩ := evolves a n found
  rw [incoming_of_node? found', incoming_of_node? found, change.incoming done]

/-- An explained node leads to the same nodes later. -/
theorem reaches_iff (sound : Sound q) (found : q.node? id = some n) (done : n.status = .done) :
    q'.Reaches id a ↔ q.Reaches id a := by
  have explained : ∀ {b}, q.Reaches id b → q.status? b = some .done := by
    intro b reaches
    obtain ⟨m, found'⟩ := sound.exists_of_reaches found reaches
    rw [status?_of_node? found', sound.done_of_reached found done reaches found']
  constructor
  · intro reaches
    induction reaches with
    | refl => exact .refl
    | @tail b c _ step ih =>
      have step : c ∈ q'.incoming b := step
      rw [evolves.incoming_of_done (explained ih)] at step
      exact ih.tail step
  · intro reaches
    induction reaches with
    | refl => exact .refl
    | @tail b c before step ih =>
      have step : c ∈ q.incoming b := step
      rw [← evolves.incoming_of_done (explained before)] at step
      exact ih.tail step

/-- An explained node points at the same events later. -/
theorem reason_of_done (found : q.node? a = some n) (done : n.status = .done)
    (found' : q'.node? a = some m) : m.reason = n.reason := by
  obtain ⟨n', found'', change⟩ := evolves a n found
  obtain rfl : m = n' := Option.some.inj (found'.symm.trans found'')
  exact Unexecuted.reason_of_bare (change.bare done)

/-- The events that decided an explained node are the same later. -/
theorem decidingEvents_eq (sound : Sound q) (sound' : Sound q') (found : q.node? id = some n)
    (done : n.status = .done) : q'.decidingEvents id = q.decidingEvents id := by
  obtain ⟨events, gathered, exact⟩ := sound.decidingEvents_eq found
  obtain ⟨n', found', -⟩ := evolves id n found
  obtain ⟨events', gathered', exact'⟩ := sound'.decidingEvents_eq found'
  rw [gathered, gathered', Except.ok.injEq]
  refine IdentSet.eq_of_mem_iff fun e => ?_
  rw [exact, exact']
  constructor
  · rintro ⟨a, m', reaches, found', points⟩
    rw [evolves.reaches_iff sound found done] at reaches
    obtain ⟨m, known⟩ := sound.exists_of_reaches found reaches
    have done' := sound.done_of_reached found done reaches known
    rw [evolves.reason_of_done known done' found'] at points
    exact ⟨a, m, reaches, known, points⟩
  · rintro ⟨a, m, reaches, known, points⟩
    obtain ⟨m', found', -⟩ := evolves a m known
    have done' := sound.done_of_reached found done reaches known
    rw [← evolves.reason_of_done known done' found'] at points
    exact ⟨a, m', (evolves.reaches_iff sound found done).2 reaches, found', points⟩

end Evolves

/-! ### How far the events depend on what was asked before -/

/-- The events that decided an explained node can always be gathered, and nothing that is asked
later changes them.  They have those among them that the node itself points at, and they are among
those that the scope offers.  They are all of these, in this and in any other question, if no cycle
lies ahead of the node; and they are if the node was explained before all that lies on a cycle
ahead of it. -/
theorem decidingEvents_spec (s : Scope) (q : Question) (reachable : Reachable s q)
    (id : UnexecutedId) (n : Unexecuted) (found : q.node id = .ok n) (done : n.status = .done) :
    ∃ events, q.decidingEvents id = .ok events ∧
      (∀ requests, (q.converse requests).1.decidingEvents id = .ok events) ∧
      (∀ e ∈ n.reason.decidingEvents, e ∈ events) ∧
      (∀ e ∈ events, e ∈ s.Evidence n.key) ∧
      ((∀ k, s.LeadsTo n.key k → ¬ s.OnCycle k) →
        (∀ e, e ∈ events ↔ e ∈ s.Evidence n.key) ∧
        ∀ q' id' n', Reachable s q' → q'.node id' = .ok n' → n'.status = .done →
          n'.key = n.key → q'.decidingEvents id' = .ok events) ∧
      ∀ p, Reachable s p → p.explain id = .ok q →
        (∀ a m, p.node a = .ok m → m.status = .done → s.LeadsTo n.key m.key →
          ¬ s.OnCycle m.key) →
        ∀ e, e ∈ events ↔ e ∈ s.Evidence n.key := by
  have settled := reachable.settled
  have known := node_eq_ok_iff.1 found
  obtain ⟨events, gathered, exact⟩ := settled.sound.decidingEvents_eq known
  refine ⟨events, gathered, fun requests => ?_, fun e points => ?_, fun e member => ?_,
    fun acyclic => ⟨fun e => ?_, fun q' id' n' reachable' found' done' same => ?_⟩,
    fun p reachable' explained first e => ?_⟩
  · obtain ⟨later, evolves⟩ := settled.evolves_converse requests
    rw [evolves.decidingEvents_eq settled.sound later.sound known done, gathered]
  · exact (exact e).2 ⟨id, n, .refl, known, points⟩
  · obtain ⟨a, m, reaches, found', points⟩ := (exact e).1 member
    rw [← settled.scope]
    exact settled.sound.mem_evidence known done reaches found' points
  · exact settled.mem_iff_mem_evidence known done (settled.gathers_of_acyclic known done acyclic)
      exact
  · have settled' := reachable'.settled
    have known' := node_eq_ok_iff.1 found'
    obtain ⟨events', gathered', exact'⟩ := settled'.sound.decidingEvents_eq known'
    have all := settled.gathers_of_acyclic known done acyclic
    have all' := settled'.gathers_of_acyclic known' done' (same ▸ acyclic)
    rw [gathered', Except.ok.injEq]
    refine IdentSet.eq_of_mem_iff fun e => ?_
    rw [settled'.mem_iff_mem_evidence known' done' all' exact', same,
      settled.mem_iff_mem_evidence known done all exact]
  · have before := reachable'.settled
    have gathers := settled.gathers_of_first before explained known done fun a m found' =>
      first a m (node_eq_ok_iff.2 found')
    exact settled.mem_iff_mem_evidence known done gathers exact

/-! ### Two methods that call each other, and one that does not get to call them -/

/-- The method `main` throws an exception where it was to call `ping`.  Apart from that, `ping` and
`pong` are called by each other only. -/
def pingPong : Scope where
  trace :=
    { program :=
        { classes := #[{ id := ⟨0⟩, name := "App", superclass := none }]
          methods := #[
            { id := ⟨0⟩, declaringClass := ⟨0⟩, name := "main", isStatic := true,
              isEntryPoint := true, instructions := #[⟨0⟩, ⟨1⟩] },
            { id := ⟨1⟩, declaringClass := ⟨0⟩, name := "ping", isStatic := true,
              instructions := #[⟨2⟩] },
            { id := ⟨2⟩, declaringClass := ⟨0⟩, name := "pong", isStatic := true,
              instructions := #[⟨3⟩] }]
          instructions := #[
            { id := ⟨0⟩, method := ⟨0⟩, position := 0, kind := .invoke ⟨1⟩ },
            { id := ⟨1⟩, method := ⟨0⟩, position := 1, kind := .throws },
            { id := ⟨2⟩, method := ⟨1⟩, position := 0, kind := .invoke ⟨2⟩ },
            { id := ⟨3⟩, method := ⟨2⟩, position := 0, kind := .invoke ⟨1⟩ }] }
      events := #[
        { kind := .startMethod, instruction := ⟨0⟩, start := some ⟨0⟩ },
        { kind := .exceptionThrown, instruction := ⟨1⟩, start := some ⟨0⟩ }]
      ends := Std.TreeMap.insert ∅ ⟨0⟩ ⟨1⟩
      ends_recorded := (EndsRecorded.empty 2).insert ⟨0⟩ (by decide) }
  config := {}
  boundary := ⟨2⟩

/-- Why did `ping` not call `pong`? -/
def pingAsked : Question := Question.add { scope := pingPong } ⟨2⟩ .unconstrained

/-- The way back from `pong` is not followed. -/
def pingExplained : Question where
  scope := pingPong
  nodes := #[
    { instruction := ⟨2⟩, expectation := .unconstrained, status := .done,
      reason := .methodDidNotExecute ⟨1⟩ (.ofList [⟨0⟩, ⟨3⟩]), incoming := .ofList [⟨1⟩, ⟨2⟩] },
    { instruction := ⟨0⟩, expectation := .unconstrained, status := .done,
      reason := .exceptionCaught ⟨1⟩, methodExecution := some ⟨0⟩, outgoing := .ofList [⟨0⟩] },
    { instruction := ⟨3⟩, expectation := .unconstrained, status := .done,
      reason := .methodDidNotExecute ⟨2⟩ (.ofList [⟨2⟩]), outgoing := .ofList [⟨0⟩] }]
  index := (pingAsked.index.insert (⟨0⟩, .unconstrained) ⟨1⟩).insert (⟨3⟩, .unconstrained) ⟨2⟩

/-- Why did `pong` not call `ping`? -/
def pongAsked : Question := Question.add { scope := pingPong } ⟨3⟩ .unconstrained

/-- The way back from `ping` is not followed, but the one to `main` is. -/
def pongExplained : Question where
  scope := pingPong
  nodes := #[
    { instruction := ⟨3⟩, expectation := .unconstrained, status := .done,
      reason := .methodDidNotExecute ⟨2⟩ (.ofList [⟨2⟩]), incoming := .ofList [⟨1⟩] },
    { instruction := ⟨2⟩, expectation := .unconstrained, status := .done,
      reason := .methodDidNotExecute ⟨1⟩ (.ofList [⟨0⟩, ⟨3⟩]), incoming := .ofList [⟨2⟩],
      outgoing := .ofList [⟨0⟩] },
    { instruction := ⟨0⟩, expectation := .unconstrained, status := .done,
      reason := .exceptionCaught ⟨1⟩, methodExecution := some ⟨0⟩, outgoing := .ofList [⟨1⟩] }]
  index := (pongAsked.index.insert (⟨2⟩, .unconstrained) ⟨1⟩).insert (⟨0⟩, .unconstrained) ⟨2⟩

theorem reachable_pingExplained : Reachable pingPong pingExplained := by
  have asked : Question.ask { scope := pingPong } ⟨2⟩ .unconstrained =
      .ok (pingAsked, ⟨0⟩) := rfl
  have explained : pingAsked.explain ⟨0⟩ = .ok pingExplained := by with_unfolding_all rfl
  exact .explain (.ask .fresh asked) explained

theorem reachable_pongAsked : Reachable pingPong pongAsked := by
  have asked : Question.ask { scope := pingPong } ⟨3⟩ .unconstrained = .ok (pongAsked, ⟨0⟩) :=
    rfl
  exact .ask .fresh asked

theorem explain_pongAsked : pongAsked.explain ⟨0⟩ = .ok pongExplained := by
  with_unfolding_all rfl

theorem reachable_pongExplained : Reachable pingPong pongExplained :=
  .explain reachable_pongAsked explain_pongAsked

/-- The call of `ping` in `main` is decided by nothing else. -/
theorem not_onCycle_pingPong (k : InstructionId × Expectation)
    (leads : pingPong.LeadsTo (⟨0⟩, .unconstrained) k) : ¬ pingPong.OnCycle k := by
  have nothing : pingPong.decidersOf ⟨0⟩ .unconstrained = [] := by with_unfolding_all rfl
  have alone : ∀ {k}, pingPong.LeadsTo (⟨0⟩, .unconstrained) k → k = (⟨0⟩, .unconstrained) := by
    intro k leads
    rcases Relation.ReflTransGen.cases_head leads with same | ⟨k', decides, -⟩
    · exact same.symm
    · rw [Scope.DecidedBy, nothing] at decides
      cases decides
  obtain rfl := alone leads
  rintro ⟨k', other, ahead, -⟩
  exact other (alone ahead)

/-- Asked for `pong` first, the question comes to the exception that `main` threw, whatever it is
asked later.  The call in `main` is on no cycle, and every question agrees about it. -/
theorem decidingEvents_spec_pingPong :
    Reachable pingPong pongExplained ∧
      (∀ requests, (pongExplained.converse requests).1.decidingEvents ⟨0⟩ =
        .ok (.ofList [⟨1⟩])) ∧
      (∀ e, e ∈ (.ofList [⟨1⟩] : IdentSet .event) ↔
        e ∈ pingPong.Evidence (⟨3⟩, .unconstrained)) ∧
      ∀ q id n, Reachable pingPong q → q.node id = .ok n → n.status = .done →
        n.key = (⟨0⟩, .unconstrained) → q.decidingEvents id = .ok (.ofList [⟨1⟩]) := by
  refine ⟨reachable_pongExplained, ?_⟩
  have gathered : pongExplained.decidingEvents ⟨0⟩ = .ok (.ofList [⟨1⟩]) := by
    with_unfolding_all rfl
  have gathered' : pongExplained.decidingEvents ⟨2⟩ = .ok (.ofList [⟨1⟩]) := by
    with_unfolding_all rfl
  obtain ⟨events, same, later, -, -, -, first⟩ :=
    decidingEvents_spec pingPong pongExplained reachable_pongExplained ⟨0⟩ _ rfl rfl
  obtain ⟨events', same', -, -, -, acyclic, -⟩ :=
    decidingEvents_spec pingPong pongExplained reachable_pongExplained ⟨2⟩ _ rfl rfl
  rw [gathered, Except.ok.injEq] at same
  rw [gathered', Except.ok.injEq] at same'
  subst same same'
  refine ⟨later, first pongAsked reachable_pongAsked explain_pongAsked fun a m found done => ?_,
    fun q id n reachable found done key =>
      (acyclic not_onCycle_pingPong).2 q id n reachable found done key⟩
  -- nothing is explained before
  have member : m ∈ pongAsked.nodes := Array.mem_of_getElem? (node_eq_ok_iff.1 found)
  obtain rfl := List.mem_singleton.1 (Array.mem_toList_iff.2 member)
  cases done

/-- Asked for `ping` first, the question misses the exception that `main` threw when it comes to
`pong`. -/
theorem decidingEvents_differ_pingPong :
    ∃ q q' id id' n n', Reachable pingPong q ∧ Reachable pingPong q' ∧ q.node id = .ok n ∧
      q'.node id' = .ok n' ∧ n.status = .done ∧ n'.status = .done ∧
      n'.instruction = n.instruction ∧ n'.expectation = n.expectation ∧
      q.decidingEvents id = .ok ∅ ∧ q'.decidingEvents id' = .ok (.ofList [⟨1⟩]) := by
  have missed : pingExplained.decidingEvents ⟨2⟩ = .ok ∅ := by with_unfolding_all rfl
  have gathered : pongExplained.decidingEvents ⟨0⟩ = .ok (.ofList [⟨1⟩]) := by
    with_unfolding_all rfl
  exact ⟨pingExplained, pongExplained, ⟨2⟩, ⟨0⟩, _, _, reachable_pingExplained,
    reachable_pongExplained, rfl, rfl, rfl, rfl, rfl, rfl, missed, gathered⟩

end Question

end Inquest
