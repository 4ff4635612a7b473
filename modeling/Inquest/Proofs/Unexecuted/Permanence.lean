import Inquest.Proofs.Unexecuted.Evidence
import Inquest.Proofs.Unexecuted.Guards

/-!
# What stays of a question

A question reuses what it has explained: a node that is done becomes a decider of nodes that are
explained later, and these are appended to the same list.  All that this does to a node that is done
is to note whom it decided.  What the node stands for, its reason and what its analysis saw are
never touched again, whether a request succeeds, names an instruction that the program does not
have, or is called off half way.

A table says which node stands for what.  It is asked before a node is made and told afterwards, so
it agrees with the nodes at any time: no two nodes stand for the same, and looking up finds the one
that does.

## Main Definitions

* `Request.Known` - a request names only nodes that the question has
* `Unexecuted.Endures`, `Question.Endures` - a node, and all nodes of a question, as they are later

## Main Statements

* `Question.Settled.exists_answer` - a request about nodes of the question gets a reply
* `Question.Settled.endures_answer`, `Question.Settled.endures_converse` - what one request keeps,
  and what a conversation keeps
* `Question.explained_nodes_endure` - what stays of a question
-/

namespace Inquest

/-- A request names only nodes that the question has. -/
def Request.Known (q : Question) : Request → Prop
  | .ask _ _ => True
  | .explain id => id.index < q.size
  | .explainBatch _ ids => ∀ id ∈ ids, id.index < q.size
  | .decidingEvents id => id.index < q.size

/-- A node that is `n` now is `n'` later: it stands for the same, and once it is done only the nodes
that it decided become more. -/
structure Unexecuted.Endures (n n' : Unexecuted) : Prop where
  instruction : n'.instruction = n.instruction
  expectation : n'.expectation = n.expectation
  status : n.status = .done → n'.status = .done
  reason : n.status = .done → n'.reason = n.reason
  methodExecution : n.status = .done → n'.methodExecution = n.methodExecution
  others : n.status = .done → n'.others = n.others
  incoming : n.status = .done → n'.incoming = n.incoming
  outgoing : n.status = .done → ∀ e ∈ n.outgoing, e ∈ n'.outgoing

theorem Unexecuted.Evolves.endures {n n' : Unexecuted} (evolves : n.Evolves n') : n.Endures n' where
  instruction := congrArg Prod.fst evolves.key
  expectation := congrArg Prod.snd evolves.key
  status := evolves.done
  reason done := reason_of_bare (evolves.bare done)
  methodExecution done := methodExecution_of_bare (evolves.bare done)
  others done := others_of_bare (evolves.bare done)
  incoming := evolves.incoming
  outgoing := evolves.outgoing

namespace Question

variable {s : Scope} {q q' : Question} {id : UnexecutedId} {n : Unexecuted} {reply : Reply}

/-- Every node of the question `q` is there in `q'` under its number, as it may be later. -/
def Endures (q q' : Question) : Prop :=
  ∀ id n, q.node id = .ok n → ∃ n', q'.node id = .ok n' ∧ n.Endures n'

theorem Evolves.endures (evolves : q.Evolves q') : q.Endures q' := by
  intro id n found
  obtain ⟨n', found', evolves⟩ := evolves id n (node_eq_ok_iff.1 found)
  exact ⟨n', node_eq_ok_iff.2 found', evolves.endures⟩

/-- To explain a node that is done changes nothing. -/
theorem explain_again (found : q.node id = .ok n) (done : n.status = .done) :
    q.explain id = .ok q := by
  refine visit_of_visited (node_eq_ok_iff.1 found) ?_
  rw [done]
  intro other
  cases other

namespace Settled

variable (settled : Settled s q)

include settled

/-- Nodes of the question can be explained one after the other. -/
theorem exists_explainBatch (canceled : Nat → Bool) {ids : List UnexecutedId}
    (known : ∀ id ∈ ids, id.index < q.size) :
    ∃ q' outcome, q.explainBatch canceled ids = .ok (q', outcome) := by
  unfold explainBatch
  generalize 0 = position
  induction ids generalizing q position with
  | nil => exact ⟨q, .ok (), rfl⟩
  | cons id rest ih =>
    unfold explainBatch.go
    split
    · exact ⟨q, .error .canceled, rfl⟩
    · obtain ⟨p, explained, explored⟩ := settled.explain_explored (known id List.mem_cons_self)
      have known' : ∀ id ∈ rest, id.index < p.size := fun id member =>
        Nat.lt_of_lt_of_le (known id (List.mem_cons_of_mem _ member)) explored.size_le
      rw [explained]
      exact ih (settled.of_explored explored) known' (position + 1)

/-- A request about nodes of the question gets a reply. -/
theorem exists_answer {request : Request} (known : request.Known q) :
    ∃ q' reply, q.answer request = .ok (q', reply) := by
  cases request with
  | ask instruction x =>
    cases asked : q.ask instruction x with
    | ok result => exact ⟨result.1, .asked (.ok result.2), by simp only [answer, asked]⟩
    | error error => exact ⟨q, .asked (.error error), by simp only [answer, asked]⟩
  | explain id =>
    obtain ⟨n, found⟩ := q.exists_node?_of_lt id known
    obtain ⟨q', explained, explored⟩ := settled.explain_explored known
    obtain ⟨n', found', -⟩ := explored.evolves found
    refine ⟨q', .explained n'.reason, ?_⟩
    rw [answer, explained]
    show (q'.node id >>= _) = _
    rw [node_eq_ok_iff.2 found']
    rfl
  | explainBatch canceled ids =>
    obtain ⟨q', outcome, explained⟩ := settled.exists_explainBatch canceled known
    refine ⟨q', .explainedBatch outcome, ?_⟩
    rw [answer, explained]
    rfl
  | decidingEvents id =>
    obtain ⟨n, found⟩ := q.exists_node?_of_lt id known
    obtain ⟨events, gathered, -⟩ := settled.sound.decidingEvents_eq found
    refine ⟨q, .decidedBy events, ?_⟩
    rw [answer, gathered]
    rfl

/-- Whatever comes of a request, the nodes of the question endure. -/
theorem endures_answer {request : Request} (answered : q.answer request = .ok (q', reply)) :
    q.Endures q' := by
  have replied : (q.converse [request]).1 = q' := by
    rw [converse, answered]
    rfl
  exact replied ▸ (settled.evolves_converse [request]).2.endures

theorem endures_converse (requests : List Request) : q.Endures (q.converse requests).1 :=
  (settled.evolves_converse requests).2.endures

end Settled

/-- Whatever has been asked of a question, a request about nodes that it has gets a reply.  Each
request, also one that names an unknown instruction or is called off, and so each conversation,
leaves every node under its number and with what it stands for; a node that is done keeps its
reason, what its analysis saw and what decided it, and only what it decided becomes more.  No two
nodes stand for the same, and looking up finds the one that does.  To explain a node that is done
changes nothing. -/
theorem explained_nodes_endure (s : Scope) (q : Question) (reachable : Reachable s q) :
    (∀ request, request.Known q → ∃ q' reply, q.answer request = .ok (q', reply)) ∧
    (∀ request q' reply, q.answer request = .ok (q', reply) → q.Endures q') ∧
    (∀ requests, q.Endures (q.converse requests).1) ∧
    (∀ a b n m, q.node a = .ok n → q.node b = .ok m → n.instruction = m.instruction →
      n.expectation = m.expectation → a = b) ∧
    (∀ instruction x id, q.lookup? instruction x = some id ↔
      ∃ n, q.node id = .ok n ∧ n.instruction = instruction ∧ n.expectation = x) ∧
    ∀ id n, q.node id = .ok n → n.status = .done → q.explain id = .ok q := by
  have settled := reachable.settled
  refine ⟨fun request => settled.exists_answer, fun request q' reply => settled.endures_answer,
    settled.endures_converse, fun a b n m found found' instruction expectation => ?_,
    fun instruction x id => ?_, fun id n => explain_again⟩
  · have stands := key?_of_node? (node_eq_ok_iff.1 found)
    have stands' := key?_of_node? (node_eq_ok_iff.1 found')
    have same : n.key = m.key := Prod.ext instruction expectation
    exact settled.sound.distinct stands (stands'.trans (congrArg some same.symm))
  · rw [settled.sound.indexed.lookup?_eq_some_iff, key?_eq_some_iff]
    simp only [node_eq_ok_iff, Unexecuted.key, Prod.mk.injEq]

/-- The second branch of the gate is asked about before what it guards. -/
def gateBranchAsked : Question := Question.add { scope := gateScope } ⟨1⟩ (.receiver ⟨1⟩)

/-- The first branch, which did execute, decided the second one. -/
def gateBranchExplained : Question where
  scope := gateScope
  nodes := #[
    { instruction := ⟨1⟩, expectation := .receiver ⟨1⟩, status := .done,
      reason := .wrongWay ⟨1⟩ [⟨0⟩], methodExecution := some ⟨0⟩, others := [⟨2⟩],
      incoming := .ofList [⟨1⟩] },
    { instruction := ⟨0⟩, expectation := .receiver ⟨1⟩, status := .done,
      reason := .didExecute ⟨1⟩, methodExecution := some ⟨0⟩, others := [⟨2⟩],
      outgoing := .ofList [⟨0⟩] }]
  index := gateBranchAsked.index.insert (⟨0⟩, .receiver ⟨1⟩) ⟨1⟩

theorem reachable_gateBranchExplained : Reachable gateScope gateBranchExplained := by
  have asked : Question.ask { scope := gateScope } ⟨1⟩ (.receiver ⟨1⟩) =
      .ok (gateBranchAsked, ⟨0⟩) := by with_unfolding_all rfl
  have explained : gateBranchAsked.explain ⟨0⟩ = .ok gateBranchExplained := by
    with_unfolding_all rfl
  exact .explain (.ask .fresh asked) explained

/-- Then the guarded instruction is asked about and explained, after an instruction that the program
does not have.  The second branch now decided it, and is as it was in all else. -/
theorem explained_nodes_endure_gate :
    Reachable gateScope gateBranchExplained ∧
    (∃ n, (gateBranchExplained.converse [.ask ⟨9⟩ .unconstrained, .ask ⟨2⟩ (.receiver ⟨1⟩),
        .explain ⟨2⟩]).1.node ⟨0⟩ = .ok n ∧
      n.reason = .wrongWay ⟨1⟩ [⟨0⟩] ∧ n.incoming = .ofList [⟨1⟩] ∧ ⟨2⟩ ∈ n.outgoing) ∧
    gateBranchExplained.lookup? ⟨0⟩ (.receiver ⟨1⟩) = some ⟨1⟩ ∧
    gateBranchExplained.explain ⟨0⟩ = .ok gateBranchExplained := by
  obtain ⟨-, -, endures, -, looked, again⟩ :=
    explained_nodes_endure gateScope gateBranchExplained reachable_gateBranchExplained
  obtain ⟨n, found, endured⟩ := endures [.ask ⟨9⟩ .unconstrained, .ask ⟨2⟩ (.receiver ⟨1⟩),
    .explain ⟨2⟩] ⟨0⟩ _ rfl
  refine ⟨reachable_gateBranchExplained,
    ⟨n, found, endured.reason rfl, endured.incoming rfl, ?_⟩,
    (looked _ _ _).2 ⟨_, rfl, rfl, rfl⟩, again _ _ rfl rfl⟩
  have decided : (gateBranchExplained.converse [.ask ⟨9⟩ .unconstrained, .ask ⟨2⟩ (.receiver ⟨1⟩),
      .explain ⟨2⟩]).1.node ⟨0⟩ = .ok { gateBranchExplained.nodes[0] with
        outgoing := .ofList [⟨2⟩] } := by with_unfolding_all rfl
  cases found.symm.trans decided
  decide

end Question

end Inquest
