import Inquest.Proofs.Unexecuted.Visit

/-!
# Questions over time

A question starts empty and grows with the requests that are made of it.  Between two requests
nothing is being explained, so the exceptions that the invariant makes for such nodes fall away.
What is left says what an explanation is worth: it always comes about, it does not depend on what
was asked before, and its links form a graph without cycles that has all the deciders in it that
such a graph can have.

## Main Definitions

* `Question.Settled` - the invariant between two requests
* `Question.Reachable` - the questions that requests lead to

## Main Statements

* `Question.Reachable.settled` - every request settles
* `Question.explain_total` - an explanation always comes about
* `Question.verdict_eq_reference` - an explanation is the one that the scope determines
* `Question.links_acyclic` - the links form a graph without cycles, and only the links that would
  close a cycle are missing
-/

namespace Inquest

namespace Question

variable {s : Scope} {q q' : Question} {a b c id : UnexecutedId} {m n : Unexecuted}

/-- What holds of a question about a scope between two requests. -/
structure Settled (s : Scope) (q : Question) : Prop where
  scope : q.scope = s
  sound : Sound q
  /-- Nothing is being explained. -/
  resting : ∀ a, q.status? a ≠ some .inProgress

/-! ### Requests settle -/

theorem settled_fresh (s : Scope) : Settled s { scope := s } := by
  refine ⟨rfl, .fresh s, fun a => ?_⟩
  simp [status?, node?]

theorem remaining_lt_depthBound (q : Question) (x : Expectation) :
    q.remaining x < q.depthBound := by
  have bound := q.scope.length_horizon_le x
  calc q.remaining x
      ≤ (q.scope.horizon x).length := List.length_filter_le _ _
    _ ≤ q.scope.trace.program.instructions.size *
          (2 * q.scope.trace.program.instructions.size + 3) := bound
    _ ≤ q.scope.trace.program.instructions.size *
          (2 * q.scope.trace.program.instructions.size + 4) := by
        exact Nat.mul_le_mul_left _ (Nat.le_succ _)
    _ < q.depthBound := Nat.lt_add_of_pos_right (by decide)

/-- Asking for a node only appends. -/
theorem appends_ask {instruction : InstructionId} {x : Expectation}
    (asked : q.ask instruction x = .ok (q', id)) : q.Appends q' := by
  unfold Question.ask at asked
  split at asked
  · rw [Except.ok.injEq] at asked
    have appends := q.appends_intern instruction x
    rwa [asked] at appends
  · cases asked

namespace Settled

variable (settled : Settled s q)

include settled

theorem undecided : q.Undecided := fun waits => absurd waits (settled.resting _)

theorem of_explored {roots : List UnexecutedId} (explored : q.Explored roots q') : Settled s q' :=
  ⟨explored.scope.trans settled.scope, explored.sound,
    fun _ waits => settled.resting _ (explored.opened waits)⟩

theorem of_appends (appends : q.Appends q') : Settled s q' := by
  refine ⟨appends.scope.trans settled.scope, settled.sound.appends appends, fun a waits => ?_⟩
  obtain ⟨n, found, waits⟩ := Option.map_eq_some_iff.1 waits
  rcases appends.fresh found with old | ⟨-, fresh⟩
  · exact settled.resting a (by rw [status?_of_node? old, waits])
  · rw [fresh] at waits
    cases waits

/-- Everything that decides an explained node is explained too. -/
theorem explained_of_decider {k : InstructionId × Expectation} (found : q.node? a = some n)
    (done : n.status = .done) (decides : k ∈ s.decidersOf n.instruction n.expectation) :
    ∃ c m, q.node? c = some m ∧ m.key = k ∧ m.status = .done := by
  rw [← settled.scope] at decides
  obtain ⟨c, stands, -⟩ := settled.sound.complete found done decides
  obtain ⟨m, found', key⟩ := key?_eq_some_iff.1 stands
  refine ⟨c, m, found', key, ?_⟩
  cases status : m.status with
  | done => rfl
  | unvisited =>
    refine absurd ?_ (settled.sound.visited_of_decider found done decides stands)
    rw [status?_of_node? found', status]
  | inProgress =>
    refine absurd ?_ (settled.resting c)
    rw [status?_of_node? found', status]

/-- Explaining a node of a settled question succeeds. -/
theorem explain_explored (known : id.index < q.size) :
    ∃ q', q.explain id = .ok q' ∧ q.Explored [id] q' := by
  obtain ⟨n, found⟩ := q.exists_node?_of_lt id known
  exact visit_explored n.expectation q.depthBound settled.sound settled.undecided
    (key?_of_node? found) Expectation.mem_horizon_self (q.remaining_lt_depthBound _)

theorem explored_of_explain (explained : q.explain id = .ok q') : q.Explored [id] q' := by
  obtain ⟨n, found⟩ := exists_node?_of_visit explained
  obtain ⟨p, succeeds, explored⟩ := settled.explain_explored (lt_size_of_node? found)
  rw [explained, Except.ok.injEq] at succeeds
  exact succeeds ▸ explored

theorem explain (explained : q.explain id = .ok q') : Settled s q' :=
  settled.of_explored (settled.explored_of_explain explained)

theorem ask {instruction : InstructionId} {x : Expectation}
    (asked : q.ask instruction x = .ok (q', id)) : Settled s q' :=
  settled.of_appends (appends_ask asked)

end Settled

/-- What explaining a node preserves, explaining a batch of nodes preserves. -/
theorem explainBatch_induction {P : Question → Prop} {canceled : Nat → Bool}
    {ids : List UnexecutedId} {outcome : Except QueryError Unit}
    (explains : ∀ {q q' id}, P q → q.explain id = .ok q' → P q') (start : P q)
    (explained : q.explainBatch canceled ids = .ok (q', outcome)) : P q' := by
  unfold explainBatch at explained
  generalize 0 = position at explained
  induction ids generalizing q position with
  | nil =>
    cases explained
    exact start
  | cons id rest ih =>
    unfold explainBatch.go at explained
    split at explained
    · cases explained
      exact start
    · obtain ⟨p, first, others⟩ := bind_eq_ok_iff.1 explained
      exact ih (explains start first) _ others

/-! ### Reachable questions -/

/-- The questions about a scope that requests lead to. -/
inductive Reachable (s : Scope) : Question → Prop
  | fresh : Reachable s { scope := s }
  | ask {q q' : Question} {instruction : InstructionId} {x : Expectation} {id : UnexecutedId} :
      Reachable s q → q.ask instruction x = .ok (q', id) → Reachable s q'
  | explain {q q' : Question} {id : UnexecutedId} :
      Reachable s q → q.explain id = .ok q' → Reachable s q'
  | explainBatch {q q' : Question} {canceled : Nat → Bool} {ids : List UnexecutedId}
      {outcome : Except QueryError Unit} :
      Reachable s q → q.explainBatch canceled ids = .ok (q', outcome) → Reachable s q'

theorem Reachable.settled (reachable : Reachable s q) : Settled s q := by
  induction reachable with
  | fresh => exact settled_fresh s
  | ask _ asked ih => exact ih.ask asked
  | explain _ explained ih => exact ih.explain explained
  | explainBatch _ explained ih => exact explainBatch_induction Settled.explain ih explained

/-! ### Two methods that call each other -/

/-- Nothing was recorded of a program in which two methods are called by each other only. -/
def mutualCalls : Scope where
  trace :=
    { program :=
        { classes := #[{ id := ⟨0⟩, name := "Parity", superclass := none }]
          methods := #[
            { id := ⟨0⟩, declaringClass := ⟨0⟩, name := "even", isStatic := true,
              instructions := #[⟨0⟩] },
            { id := ⟨1⟩, declaringClass := ⟨0⟩, name := "odd", isStatic := true,
              instructions := #[⟨1⟩] }]
          instructions := #[
            { id := ⟨0⟩, method := ⟨0⟩, position := 0, kind := .invoke ⟨1⟩ },
            { id := ⟨1⟩, method := ⟨1⟩, position := 0, kind := .invoke ⟨0⟩ }] }
      events := #[]
      ends := ∅
      ends_recorded := .empty 0 }
  config := {}
  boundary := ⟨0⟩

/-- Why was `odd` not called? -/
def mutualCallsAsked : Question := Question.add { scope := mutualCalls } ⟨0⟩ .unconstrained

/-- Because `even` was not, and the way back from there is not followed. -/
def mutualCallsExplained : Question where
  scope := mutualCalls
  nodes := #[
    { instruction := ⟨0⟩, expectation := .unconstrained, status := .done,
      reason := .methodDidNotExecute ⟨0⟩ (.ofList [⟨1⟩]), incoming := .ofList [⟨1⟩] },
    { instruction := ⟨1⟩, expectation := .unconstrained, status := .done,
      reason := .methodDidNotExecute ⟨1⟩ (.ofList [⟨0⟩]), outgoing := .ofList [⟨0⟩] }]
  index := mutualCallsAsked.index.insert (⟨1⟩, .unconstrained) ⟨1⟩

theorem reachable_mutualCallsAsked : Reachable mutualCalls mutualCallsAsked := by
  have asked : Question.ask { scope := mutualCalls } ⟨0⟩ .unconstrained =
      .ok (mutualCallsAsked, ⟨0⟩) := rfl
  exact .ask .fresh asked

theorem reachable_mutualCallsExplained : Reachable mutualCalls mutualCallsExplained := by
  have explained : mutualCallsAsked.explain ⟨0⟩ = .ok mutualCallsExplained := by
    with_unfolding_all rfl
  exact .explain reachable_mutualCallsAsked explained

/-! ### Explanations come about -/

/-- A node that is explained, with a reason. -/
def Explained (q : Question) (id : UnexecutedId) : Prop :=
  ∃ n, q.node id = .ok n ∧ n.status = .done ∧ n.reason ≠ .unexplained

theorem Sound.reason_ne_unexplained (sound : Sound q) (found : q.node? a = some n)
    (done : n.status = .done) : n.reason ≠ .unexplained := by
  obtain ⟨reason, settled, explained⟩ := q.scope.reasonOf_total n.instruction n.expectation
  rw [(sound.fits found).reason done, Except.ok.injEq] at settled
  exact settled ▸ explained

theorem Sound.explained (sound : Sound q) (found : q.node? a = some n) (done : n.status = .done) :
    q.Explained a :=
  ⟨n, node_eq_ok_iff.2 found, done, sound.reason_ne_unexplained found done⟩

/-- Explaining a node of a reachable question succeeds, whatever the program and the recording
look like, and explains the node and every node that comes up on the way.  Between two requests a
node is either untouched or explained. -/
theorem explain_total (s : Scope) (q : Question) (reachable : Reachable s q) :
    (∀ id : UnexecutedId, id.index < q.size → ∃ q', q.explain id = .ok q' ∧ q'.Explained id ∧
      q.size ≤ q'.size ∧
      ∀ a : UnexecutedId, q.size ≤ a.index → a.index < q'.size → q'.Explained a) ∧
    ∀ (id : UnexecutedId) (n : Unexecuted), q.node id = .ok n →
      (n.status = .unvisited ∧ n.reason = .unexplained) ∨
      (n.status = .done ∧ n.reason ≠ .unexplained) := by
  have settled := reachable.settled
  refine ⟨fun id known => ?_, fun id n found => ?_⟩
  · obtain ⟨q', succeeds, explored⟩ := settled.explain_explored known
    refine ⟨q', succeeds, ?_, explored.size_le, fun a beyond inside => ?_⟩
    · have visited := explored.visited id (List.mem_singleton_self id)
      have done := visited.resolve_right ((settled.of_explored explored).resting id)
      obtain ⟨n, found, done⟩ := Option.map_eq_some_iff.1 done
      exact explored.sound.explained found done
    · obtain ⟨n, found⟩ := q'.exists_node?_of_lt a inside
      exact explored.sound.explained found (explored.fresh found beyond)
  · have found := node_eq_ok_iff.1 found
    cases status : n.status with
    | unvisited =>
      have blank := (settled.sound.fits found).unvisited status
      exact .inl ⟨rfl, by rw [blank]; rfl⟩
    | inProgress =>
      exact absurd ((status?_of_node? found).trans (congrArg some status)) (settled.resting id)
    | done => exact .inr ⟨rfl, settled.sound.reason_ne_unexplained found status⟩

theorem explain_total_mutualCalls :
    Reachable mutualCalls mutualCallsAsked ∧
      ∃ q, mutualCallsAsked.explain ⟨0⟩ = .ok q ∧ q.Explained ⟨0⟩ := by
  refine ⟨reachable_mutualCallsAsked, ?_⟩
  obtain ⟨q, succeeds, explained, -⟩ :=
    (explain_total mutualCalls mutualCallsAsked reachable_mutualCallsAsked).1 ⟨0⟩ (by decide)
  exact ⟨q, succeeds, explained⟩

/-! ### Explanations do not depend on what was asked before -/

theorem Reachable.fits (reachable : Reachable s q) (found : q.node id = .ok n) : s.Fits n := by
  have fits := reachable.settled.sound.fits (node_eq_ok_iff.1 found)
  rwa [reachable.settled.scope] at fits

/-- What a question says about an explained node is what the scope determines: the reason that the
analysis of that one instruction comes to, and what this analysis saw.  So any two questions agree
on the nodes that both explain. -/
theorem verdict_eq_reference (s : Scope) (q : Question) (reachable : Reachable s q)
    (id : UnexecutedId) (n : Unexecuted) (found : q.node id = .ok n) (done : n.status = .done) :
    (s.reasonOf n.instruction n.expectation = .ok n.reason ∧
      n.methodExecution = (s.analyse n.instruction n.expectation).methodExecution ∧
      n.others = (s.analyse n.instruction n.expectation).others) ∧
    ∀ (q' : Question) (id' : UnexecutedId) (n' : Unexecuted), Reachable s q' →
      q'.node id' = .ok n' → n'.status = .done → n'.instruction = n.instruction →
      n'.expectation = n.expectation →
      n'.reason = n.reason ∧ n'.methodExecution = n.methodExecution ∧ n'.others = n.others := by
  have fits := reachable.fits found
  refine ⟨⟨fits.reason done, fits.methodExecution done, fits.others done⟩, ?_⟩
  intro q' id' n' reachable' found' done' instruction expectation
  have fits' := reachable'.fits found'
  have reason := fits'.reason done'
  have methodExecution := fits'.methodExecution done'
  have others := fits'.others done'
  rw [instruction, expectation] at reason methodExecution others
  refine ⟨?_, methodExecution.trans (fits.methodExecution done).symm,
    others.trans (fits.others done).symm⟩
  exact Except.ok.inj (reason.symm.trans (fits.reason done))

theorem verdict_eq_reference_mutualCalls :
    Reachable mutualCalls mutualCallsExplained ∧
      mutualCalls.reasonOf ⟨1⟩ .unconstrained =
        .ok (.methodDidNotExecute ⟨1⟩ (.ofList [⟨0⟩])) :=
  ⟨reachable_mutualCallsExplained,
    (verdict_eq_reference mutualCalls mutualCallsExplained reachable_mutualCallsExplained
      ⟨1⟩ _ rfl rfl).1.1⟩

/-! ### Links -/

theorem Sound.not_cyclic (sound : Sound q) (a : UnexecutedId) :
    ¬ Relation.TransGen q.DecidedBy a a := by
  obtain ⟨rank, below⟩ := sound.ranked
  have descends : ∀ {a c}, Relation.TransGen q.DecidedBy a c → rank c < rank a := by
    intro a c path
    induction path with
    | single step => exact below step
    | tail _ step ih => exact Nat.lt_trans (below step) ih
  exact fun cycle => Nat.lt_irrefl _ (descends cycle)

/-- The links are known at both ends, they do not form a cycle, and each of them goes to a node
that stands for one of the deciders.  Every decider of an explained node has a node, and the only
reason for which it is not linked is that the link would close a cycle. -/
theorem links_acyclic (s : Scope) (q : Question) (reachable : Reachable s q) :
    (∀ a c, c ∈ q.incoming a ↔ a ∈ q.outgoing c) ∧
    (∀ a, ¬ Relation.TransGen q.DecidedBy a a) ∧
    (∀ a c, c ∈ q.incoming a → ∃ n m, q.node a = .ok n ∧ q.node c = .ok m ∧
      (m.instruction, m.expectation) ∈ s.decidersOf n.instruction n.expectation) ∧
    ∀ a n, q.node a = .ok n → n.status = .done →
      ∀ decider ∈ s.decidersOf n.instruction n.expectation,
        ∃ c, q.lookup? decider.1 decider.2 = some c ∧
          (c ∈ q.incoming a ∨ c = a ∨ q.Reaches c a) := by
  have settled := reachable.settled
  have sound := settled.sound
  refine ⟨fun a c => sound.twoEnded, sound.not_cyclic, fun a c linked => ?_,
    fun a n found done decider decides => ?_⟩
  · obtain ⟨⟨k, decider, effect, cause, decides⟩, -, -⟩ := sound.linked linked
    obtain ⟨n, found, rfl⟩ := key?_eq_some_iff.1 effect
    obtain ⟨m, found', rfl⟩ := key?_eq_some_iff.1 cause
    rw [settled.scope] at decides
    exact ⟨n, m, node_eq_ok_iff.2 found, node_eq_ok_iff.2 found', decides⟩
  · have found := node_eq_ok_iff.1 found
    rw [← settled.scope] at decides
    obtain ⟨c, stands, missing⟩ := sound.complete found done decides
    refine ⟨c, sound.indexed.lookup?_eq_some_iff.2 stands, ?_⟩
    rcases missing with linked | reaches | opened
    · exact .inl (by rwa [incoming_of_node? found])
    · exact .inr (.inr reaches)
    · exact absurd opened (settled.resting c)

/-- The node of `even` is not linked to the one of `odd`, which reaches it. -/
theorem links_acyclic_mutualCalls :
    Reachable mutualCalls mutualCallsExplained ∧
      ∃ c, mutualCallsExplained.lookup? ⟨0⟩ .unconstrained = some c ∧
        (c ∈ mutualCallsExplained.incoming ⟨1⟩ ∨ c = ⟨1⟩ ∨
          mutualCallsExplained.Reaches c ⟨1⟩) := by
  refine ⟨reachable_mutualCallsExplained, ?_⟩
  obtain ⟨-, -, -, complete⟩ :=
    links_acyclic mutualCalls mutualCallsExplained reachable_mutualCallsExplained
  exact complete ⟨1⟩ _ rfl rfl (⟨0⟩, .unconstrained) (by decide +kernel)

end Question

end Inquest
