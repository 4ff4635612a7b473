import Inquest.Proofs.Unexecuted.Requests

/-!
# Conversations

A conversation is a run of requests to a question, each of which may change the question before the
next one is made.  A broken contract ends it.  What asking for a node and explaining a node
preserve, a conversation preserves; above all, it leaves alone what is explained.

## Main Definitions

* `Request`, `Reply` - what a question is asked for, and what it replies
* `Question.answer`, `Question.converse` - one request, and several
* `Question.Evolves` - how the nodes of a question may change over time

## Main Statements

* `Question.converse_induction` - what asking and explaining preserve, a conversation preserves
* `Question.Settled.evolves_converse` - a conversation leaves alone what is explained
-/

namespace Inquest

/-- A request to a question. -/
inductive Request where
  /-- The node of an instruction under an expectation. -/
  | ask (instruction : InstructionId) (x : Expectation)
  /-- The explanation of a node. -/
  | explain (id : UnexecutedId)
  /-- The explanation of several nodes, until the work is called off. -/
  | explainBatch (canceled : Nat → Bool) (ids : List UnexecutedId)
  /-- The events that decided a node. -/
  | decidingEvents (id : UnexecutedId)

/-- What a question replies to a request. -/
inductive Reply where
  | asked (outcome : Except QueryError UnexecutedId)
  | explained (reason : Reason)
  | explainedBatch (outcome : Except QueryError Unit)
  | decidedBy (events : IdentSet .event)

namespace Question

variable {s : Scope} {q q' : Question} {a : UnexecutedId} {n : Unexecuted} {reply : Reply}
variable {P : Question → Prop}

/-- The reply to a request, and the question after it. -/
def answer (q : Question) : Request → Except Fault (Question × Reply)
  | .ask instruction x =>
    match q.ask instruction x with
    | .ok (q, id) => .ok (q, .asked (.ok id))
    | .error error => .ok (q, .asked (.error error))
  | .explain id => do
    let q ← q.explain id
    let n ← q.node id
    return (q, .explained n.reason)
  | .explainBatch canceled ids => do
    let (q, outcome) ← q.explainBatch canceled ids
    return (q, .explainedBatch outcome)
  | .decidingEvents id => do
    let events ← q.decidingEvents id
    return (q, .decidedBy events)

/-- The replies to some requests that are made one after the other, until one of them meets a
broken contract, and the question after them. -/
def converse (q : Question) : List Request → Question × List (Except Fault Reply)
  | [] => (q, [])
  | request :: rest =>
    match q.answer request with
    | .ok (q, reply) => ((q.converse rest).1, .ok reply :: (q.converse rest).2)
    | .error fault => (q, [.error fault])

/-! ### What conversations preserve -/

section Induction

variable (asks : ∀ {q q' instruction x id}, P q → q.ask instruction x = .ok (q', id) → P q')
variable (explains : ∀ {q q' id}, P q → q.explain id = .ok q' → P q')

include asks explains

theorem answer_induction {request : Request} (start : P q)
    (answered : q.answer request = .ok (q', reply)) : P q' := by
  cases request with
  | ask instruction x =>
    cases asked : q.ask instruction x with
    | error error =>
      simp only [answer, asked] at answered
      cases answered
      exact start
    | ok result =>
      simp only [answer, asked] at answered
      cases answered
      exact asks start asked
  | explain id =>
    obtain ⟨p, explained, rest⟩ := bind_eq_ok_iff.1 answered
    obtain ⟨n, -, replied⟩ := bind_eq_ok_iff.1 rest
    cases replied
    exact explains start explained
  | explainBatch canceled ids =>
    obtain ⟨result, explained, replied⟩ := bind_eq_ok_iff.1 answered
    cases replied
    exact explainBatch_induction explains start explained
  | decidingEvents id =>
    obtain ⟨events, -, replied⟩ := bind_eq_ok_iff.1 answered
    cases replied
    exact start

/-- What asking for a node and explaining a node preserve, a conversation preserves. -/
theorem converse_induction (start : P q) (requests : List Request) : P (q.converse requests).1 := by
  induction requests generalizing q with
  | nil => exact start
  | cons request rest ih =>
    unfold converse
    cases answered : q.answer request with
    | error fault => exact start
    | ok result => exact ih (answer_induction asks explains start answered)

end Induction

/-! ### What is explained stays as it is -/

/-- Every node of the question `q` is still there in `q'`, and changed as it may. -/
def Evolves (q q' : Question) : Prop :=
  ∀ a n, q.node? a = some n → ∃ n', q'.node? a = some n' ∧ n.Evolves n'

theorem Evolves.refl (q : Question) : q.Evolves q := fun _ n found => ⟨n, found, .refl n⟩

theorem Evolves.trans {q'' : Question} (first : q.Evolves q') (second : q'.Evolves q'') :
    q.Evolves q'' := by
  intro a n found
  obtain ⟨n', found', evolves⟩ := first a n found
  obtain ⟨n'', found'', evolves'⟩ := second a n' found'
  exact ⟨n'', found'', evolves.trans evolves'⟩

theorem evolves_ask {instruction : InstructionId} {x : Expectation} {id : UnexecutedId}
    (asked : q.ask instruction x = .ok (q', id)) : q.Evolves q' :=
  fun _ n found => ⟨n, (appends_ask asked).kept found, .refl n⟩

namespace Settled

variable (settled : Settled s q)

include settled

theorem evolves_explain {id : UnexecutedId} (explained : q.explain id = .ok q') :
    q.Evolves q' :=
  fun _ _ found => (settled.explored_of_explain explained).evolves found

/-- A conversation settles, and leaves alone what is explained. -/
theorem evolves_converse (requests : List Request) :
    Settled s (q.converse requests).1 ∧ q.Evolves (q.converse requests).1 := by
  refine @converse_induction q (fun q' => Settled s q' ∧ q.Evolves q') ?_ ?_ ⟨settled, .refl q⟩
    requests
  · rintro p p' instruction x id ⟨settled, evolves⟩ asked
    exact ⟨settled.ask asked, evolves.trans (evolves_ask asked)⟩
  · rintro p p' id ⟨settled, evolves⟩ explained
    exact ⟨settled.explain explained, evolves.trans (settled.evolves_explain explained)⟩

end Settled

end Question

end Inquest
