import Inquest.Unexecuted.Analysis
import Inquest.Walk

/-!
# Questions

A question is a graph over unexecuted instructions.  Each node is an instruction under an
expectation, and a table says which node that is.  Explaining a node explains the instructions that
decide it first, and links it to those of them that are explained by then.  A node that is met again
while it is being explained closes a cycle, and is passed over.

## Main Definitions

* `Unexecuted` - a node: an instruction, an expectation and what is known about it
* `Question` - the nodes that were asked about or met, within one scope
* `Question.ask` - the node of an instruction under an expectation, made on demand
* `Question.explain`, `Question.explainBatch` - explains one node, or several
* `Question.decidingEvents` - the events behind a node, gathered along its links

## Design Notes

The expectations that one explanation can meet are the one it starts from, the empty one and,
for each parameter that the program reads, the object as that parameter and as that operand.
A node is explained once, so the nesting of explanations is bounded by the number of
instructions times the number of these expectations; `Question.depthBound` counts generously.
-/

namespace Inquest

/-- An instruction that did not execute, under an expectation. -/
structure Unexecuted where
  instruction : InstructionId
  expectation : Expectation
  reason : Reason := .unexplained
  status : Status := .unvisited
  /-- The nodes that decided this one. -/
  incoming : IdentSet .unexecuted := ∅
  /-- The nodes that this one decided. -/
  outgoing : IdentSet .unexecuted := ∅
  /-- The invocations that ran for other objects. -/
  others : List EventId := []
  /-- The invocation that was searched. -/
  methodExecution : Option EventId := none
deriving DecidableEq

/-- Instructions under an expectation are ordered by the instruction first. -/
def compareKeys : InstructionId × Expectation → InstructionId × Expectation → Ordering :=
  compareLex (compareOn Prod.fst) (compareOn Prod.snd)

instance : Std.TransCmp compareKeys :=
  inferInstanceAs (Std.TransCmp (compareLex (compareOn Prod.fst) (compareOn Prod.snd)))

theorem compareKeys_eq_iff {k k' : InstructionId × Expectation} :
    compareKeys k k' = .eq ↔ k = k' := by
  rw [compareKeys, compareLex, Ordering.then_eq_eq, compareOn, compareOn, Ident.compare_eq_iff,
    Expectation.compare_eq_iff, Prod.ext_iff]

/-- A graph over unexecuted instructions. -/
structure Question where
  scope : Scope
  nodes : Array Unexecuted := #[]
  /-- The node of each instruction under an expectation that has one. -/
  index : Std.TreeMap (InstructionId × Expectation) UnexecutedId compareKeys := ∅

namespace Question

/-- The number of nodes. -/
def size (q : Question) : Nat := q.nodes.size

/-- The node of an identifier. -/
def node (q : Question) (id : UnexecutedId) : Except Fault Unexecuted :=
  match q.nodes[id.index]? with
  | some n => .ok n
  | none => .error (.outOfBounds q.size id.index)

/-- The graph with one node changed. -/
def modify (q : Question) (id : UnexecutedId) (f : Unexecuted → Unexecuted) : Question :=
  { q with nodes := q.nodes.modify id.index f }

/-! ### Nodes on demand -/

/-- The node of an instruction under an expectation. -/
def lookup? (q : Question) (instruction : InstructionId) (x : Expectation) :
    Option UnexecutedId :=
  q.index[(instruction, x)]?

/-- The graph with one more node, noted in the table. -/
def add (q : Question) (instruction : InstructionId) (x : Expectation) : Question :=
  { q with
    nodes := q.nodes.push { instruction, expectation := x }
    index := q.index.insert (instruction, x) ⟨q.size⟩ }

/-- The node of an instruction under an expectation, made on demand. -/
def intern (q : Question) (instruction : InstructionId) (x : Expectation) :
    Question × UnexecutedId :=
  match q.lookup? instruction x with
  | some id => (q, id)
  | none => (q.add instruction x, ⟨q.size⟩)

/-- The nodes of several instructions, made on demand. -/
def internAll (q : Question) : List (InstructionId × Expectation) → Question × List UnexecutedId
  | [] => (q, [])
  | (instruction, x) :: rest =>
    let (q, id) := q.intern instruction x
    let (q, ids) := internAll q rest
    (q, id :: ids)

/-- The node of an instruction of the program under an expectation, made on demand. -/
def ask (q : Question) (instruction : InstructionId) (x : Expectation) :
    Except QueryError (Question × UnexecutedId) :=
  match q.scope.trace.program.instruction? instruction with
  | some _ => .ok (q.intern instruction x)
  | none => .error (.unknownInstruction instruction)

/-! ### Explanation -/

/-- Marks a node as being explained and notes what its analysis saw. -/
def begin (q : Question) (id : UnexecutedId) (finding : Finding) : Question :=
  q.modify id fun n =>
    { n with
      status := .inProgress
      others := finding.others
      methodExecution := finding.methodExecution }

/-- Gives a node its reason. -/
def conclude (q : Question) (id : UnexecutedId) (reason : Reason) : Question :=
  q.modify id fun n => { n with reason, status := .done }

/-- Links a node to one that decided it. -/
def link (q : Question) (effect cause : UnexecutedId) : Question :=
  let q := q.modify effect fun n => { n with incoming := n.incoming.insert cause }
  q.modify cause fun n => { n with outgoing := n.outgoing.insert effect }

/-- Whether a node is explained. -/
def isDone (q : Question) (id : UnexecutedId) : Except Fault Bool :=
  (fun n => decide (n.status = .done)) <$> q.node id

/-- The event at which the instruction of an explained node did execute. -/
def execution? (q : Question) (id : UnexecutedId) : Except Fault (Option EventId) :=
  (fun n => if n.status = .done then n.reason.execution? else none) <$> q.node id

/-- The reason that follows from a verdict once its children have been visited. -/
def reasonFor (q : Question) (children : List UnexecutedId) : Verdict → Except Fault Reason
  | .final reason => .ok reason
  | .callers method callers _ => .ok (.methodDidNotExecute method callers)
  | .guards guards _ => do
    match ← children.findSomeM? q.execution? with
    | some branch => Reason.wrongWay branch <$> q.scope.trace.operands branch
    | none => .ok (.branchDidNotExecute (.ofList guards))

/-- Links a node to its explained children and gives it the reason that follows. -/
def finish (q : Question) (id : UnexecutedId) (children : List UnexecutedId) (verdict : Verdict) :
    Except Fault Question := do
  let explained ← children.filterM q.isDone
  let q := explained.foldl (·.link id ·) q
  return q.conclude id (← q.reasonFor children verdict)

/-- Explains a node that nobody has visited, with no more than the given nesting. -/
def visit : Nat → Question → UnexecutedId → Except Fault Question
  | 0, q, id => do
    let n ← q.node id
    match n.status with
    | .unvisited => .error .exhausted
    | _ => .ok q
  | depth + 1, q, id => do
    let n ← q.node id
    match n.status with
    | .unvisited =>
      let finding := q.scope.analyse n.instruction n.expectation
      let (q, children) := (q.begin id finding).internAll finding.verdict.children
      let q ← children.foldlM (visit depth) q
      q.finish id children finding.verdict
    | _ => .ok q

/-- A bound on the nesting of explanations. -/
def depthBound (q : Question) : Nat :=
  let instructions := q.scope.trace.program.instructions.size
  instructions * (2 * instructions + 4) + 2

/-- Explains a node. -/
def explain (q : Question) (id : UnexecutedId) : Except Fault Question :=
  visit q.depthBound q id

/-- Explains nodes one after the other until the work is called off.  The argument `canceled` is
asked before each of them, by its position, and the nodes explained before that stay so. -/
def explainBatch (q : Question) (canceled : Nat → Bool) (ids : List UnexecutedId) :
    Except Fault (Question × Except QueryError Unit) :=
  go q 0 ids
where
  /-- The rest of a batch, from a position on. -/
  go (q : Question) (position : Nat) :
      List UnexecutedId → Except Fault (Question × Except QueryError Unit)
    | [] => .ok (q, .ok ())
    | id :: rest =>
      if canceled position then .ok (q, .error .canceled)
      else do
        let q ← q.explain id
        go q (position + 1) rest

/-- The events that decided a node, and the nodes that decided it, and so on. -/
def decidingEvents (q : Question) (id : UnexecutedId) : Except Fault (IdentSet .event) := do
  let reached ← walk (fun id => (·.incoming.toList) <$> q.node id) (q.size + 1) [id] []
  let reasons ← reached.mapM fun id => Unexecuted.reason <$> q.node id
  return .ofList (reasons.flatMap Reason.decidingEvents)

/-- The long text of a question. -/
def debug (q : Question) : String :=
  "Question \x7b boundary: " ++ q.scope.boundary.debug ++ ", nodes: " ++ toString q.size ++
    ", .. \x7d"

end Question

end Inquest
