import Inquest.Unexecuted.Question

/-!
# Snapshots

A snapshot is a question as plain data: its boundary, and for each node what was asked and what
was found, with the links as ascending lists.

## Main Definitions

* `NodeSnapshot`, `QuestionSnapshot` - the data
* `Question.snapshot` - the snapshot of a question
-/

namespace Inquest

/-- A node of a question as plain data. -/
structure NodeSnapshot where
  id : UnexecutedId
  instruction : InstructionId
  expectation : Expectation
  reason : Reason
  incoming : List UnexecutedId
  outgoing : List UnexecutedId
  others : List EventId
  methodExecution : Option EventId
deriving DecidableEq

/-- A question as plain data. -/
structure QuestionSnapshot where
  boundary : EventId
  nodes : List NodeSnapshot
deriving DecidableEq

/-- A node as plain data. -/
def Unexecuted.snapshot (n : Unexecuted) (id : UnexecutedId) : NodeSnapshot where
  id := id
  instruction := n.instruction
  expectation := n.expectation
  reason := n.reason
  incoming := n.incoming.toList
  outgoing := n.outgoing.toList
  others := n.others
  methodExecution := n.methodExecution

/-- A question as plain data. -/
def Question.snapshot (q : Question) : QuestionSnapshot where
  boundary := q.scope.boundary
  nodes := q.nodes.toList.zipIdx.map fun (n, index) => n.snapshot ⟨index⟩

end Inquest
