import Inquest.Fault

/-!
# Depth-first walks

A walk starts from some elements and goes on to the successors of each element it visits.  The
elements still to be visited lie on a stack, the latest on top, and an element that has been
visited is passed over.

## Main Definitions

* `walk` - the elements of a depth-first walk in order of their first visit
-/

namespace Inquest

/-- The elements visited so far, followed by those that a walk visits from the stack `pending`,
in order of visit.  The walk visits no more than the given number of further elements. -/
def walk {α : Type} [DecidableEq α] (next : α → Except Fault (List α)) :
    Nat → List α → List α → Except Fault (List α)
  | n, pending, visited =>
    match n, pending.dropWhile (· ∈ visited) with
    | _, [] => .ok visited.reverse
    | 0, _ :: _ => .error .exhausted
    | n + 1, a :: rest => do
      let successors ← next a
      walk next n (successors.reverse ++ rest) (a :: visited)

end Inquest
