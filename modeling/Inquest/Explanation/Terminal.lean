import Inquest.Explanation.Cause
import Inquest.Walk

/-!
# Terminal dependencies

A reader who asks for the data behind an event is not shown every intermediate value.  The
chain of causes is followed through the values that were computed on the way, and it ends at
the events worth showing: definitions, arguments, calls, returns, instantiations, and values
that have no causes themselves.

## Main Definitions

* `Graph.endsChain` - whether a chain of causes ends at a cause
* `Graph.terminals` - the events at the ends, each with an effect that it is a cause of
-/

namespace Inquest.Graph

/-- Whether a chain of causes ends at this cause. -/
def endsChain (g : Graph) (t : Trace) (cause : Cause) : Except Fault Bool := do
  let kind ← t.kind cause.event
  if kind.isValueProduced then return (← (← g.node cause.node).readCauses).isEmpty
  else return kind.isTerminal

/-- The causes of a node that end a chain, or those that do not. -/
def causesEnding (g : Graph) (t : Trace) (ending : Bool) (id : NodeId) :
    Except Fault (List Cause) := do
  let causes ← (← g.node id).readCauses
  causes.filterM fun cause => (· == ending) <$> g.endsChain t cause

/-- The events at which the chains of causes from a node end, each with the last visited effect
that it is a cause of. -/
def terminals (g : Graph) (t : Trace) (root : NodeId) :
    Except Fault (Std.TreeMap EventId EventId) := do
  let effects ← walk (fun id => List.map Cause.node <$> g.causesEnding t false id) g.size [root] []
  effects.foldlM (fun found id => do
    let effect := (← g.node id).event
    let causes ← g.causesEnding t true id
    return causes.foldl (fun found cause => found.insert cause.event effect) found) ∅

end Inquest.Graph
