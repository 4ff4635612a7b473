import Inquest.Explanation.Terminal

/-!
# Answers

An answer is what a reader works with: an explanation graph over one trace, grown by requests,
with listeners that hear what each request created and changed.  Answers are ranked by
priority, and by age within a priority.

## Main Definitions

* `Answer` - a graph with its trace, configuration, rank and listeners
* `Answer.explain`, `Answer.request`, `Answer.terminals` - the requests
* `Answer.Rank`, `Answer.sort` - the order of answers
-/

namespace Inquest

/-- Gives out the sequence numbers of answers. -/
structure AnswerCounter where
  next : Nat := 0
deriving DecidableEq

/-- An explanation that a reader works with. -/
structure Answer where
  trace : Trace
  config : Config
  /-- Its number among the answers of one counter. -/
  sequence : Nat
  priority : Int := 0
  graph : Graph := {}
  /-- The number of listeners. -/
  listeners : Nat := 0

namespace Answer

/-- A fresh answer, numbered by a counter. -/
def new (trace : Trace) (config : Config) (counter : AnswerCounter) : Answer × AnswerCounter :=
  ({ trace, config, sequence := counter.next }, { next := counter.next + 1 })

/-- Adds a listener and gives its number. -/
def listen (a : Answer) : Answer × Nat :=
  ({ a with listeners := a.listeners + 1 }, a.listeners)

/-! ### Requests -/

/-- A notice and the listener that hears it. -/
structure Delivery where
  listener : Nat
  notice : Graph.Notice
deriving DecidableEq

/-- What came of a request. -/
structure Outcome (α : Type) where
  /-- The answer afterwards. -/
  answer : Answer
  value : α
  /-- What the listeners heard, in order. -/
  deliveries : List Delivery

/-- Closes a pass and tells every listener, one after the other, what it did. -/
def conclude {α : Type} (a : Answer) (graph : Graph) (value : α) : Outcome α :=
  let (graph, notices) := graph.flush
  { answer := { a with graph }
    value
    deliveries := (List.range a.listeners).flatMap fun listener =>
      notices.map fun notice => { listener, notice } }

/-- Explains an event. -/
def explain (a : Answer) (event : EventId) : Except Fault (Outcome NodeId) := do
  let (graph, id) ← a.graph.explain a.trace a.config event
  return a.conclude graph id

/-- Gives the node of an event; what controls it is explained. -/
def request (a : Answer) (event : EventId) : Except Fault (Outcome NodeId) := do
  let (graph, id) ← a.graph.request a.trace a.config event
  return a.conclude graph id

/-- Explains an event and gives its terminal dependencies. -/
def terminals (a : Answer) (event : EventId) :
    Except Fault (Outcome (Std.TreeMap EventId EventId)) := do
  let outcome ← a.explain event
  let found ← outcome.answer.graph.terminals a.trace outcome.value
  return { outcome with value := found }

/-- Takes the blocks whose announced changes nobody has taken. -/
def takeChanged (a : Answer) : Answer × List NodeId :=
  let (graph, blocks) := a.graph.takeChanged
  ({ a with graph }, blocks)

/-- The loop path of a node. -/
def loopPath (a : Answer) (id : NodeId) : Except Fault (Answer × Option LoopPathId) := do
  let (graph, path) ← a.graph.loopPath a.trace id
  return ({ a with graph }, path)

/-! ### Order -/

/-- The rank of an answer: its priority, then its sequence number. -/
abbrev Rank := Int × Nat

/-- The rank of an answer. -/
def rank (a : Answer) : Rank := (a.priority, a.sequence)

/-- Answers compare as their ranks do. -/
def compareRank (a b : Answer) : Ordering :=
  (compare a.priority b.priority).then (compare a.sequence b.sequence)

/-- The positions of a list of answers in ascending order of rank; answers of one rank keep
their order. -/
def sort (answers : List Answer) : List Nat :=
  (answers.zipIdx.mergeSort fun a b => (a.1.compareRank b.1).isLE).map Prod.snd

/-- The long text of an answer. -/
def debug (a : Answer) : String :=
  "Answer \x7b sequence: " ++ toString a.sequence ++ ", priority: " ++ toString a.priority ++
    ", nodes: " ++ toString a.graph.size ++ ", thread_blocks: " ++
    toString a.graph.threadBlocks.size ++ ", loop_blocks: " ++
    toString a.graph.loopBlocks.size ++ ", .. \x7d"

end Answer

end Inquest
