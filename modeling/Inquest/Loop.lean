import Inquest.Fault
import Inquest.IdentSet

/-!
# Loops

A loop goes through one state after the other until a round has a result.  It is run with a bound
on the number of rounds, and a loop that uses up its bound has no result; that a loop comes to its
end is seen from something that goes down in every round.

Many loops follow references from one element to the next.  References may come back to where they
have been, so such a chase keeps what it has passed.

## Main Definitions

* `loop` - a loop, run for a number of rounds
* `resultOf` - the result of a computation that is known to succeed
* `Chase` - the state of a loop that follows references

## Main Statements

* `loop_ends` - a loop comes to its end if something goes down in every round
* `length_filter_not_lt` - there is less left once one more element has been met
* `Chase.left_pass_lt` - a chase has fewer elements left once it has passed one
-/

namespace Inquest

section Loop

variable {σ α : Type} {round : σ → σ ⊕ α}

/-- The result of a loop from a state on, if it has one within the given number of rounds.  A round
gives the next state or the result. -/
def loop (round : σ → σ ⊕ α) : Nat → σ → Except Fault α
  | 0, _ => .error .exhausted
  | n + 1, s =>
    match round s with
    | .inl next => loop round n next
    | .inr result => .ok result

theorem loop_of_next {n : Nat} {s s' : σ} (goesOn : round s = .inl s') :
    loop round (n + 1) s = loop round n s' := by
  simp only [loop, goesOn]

theorem loop_of_result {n : Nat} {s : σ} {result : α} (ends : round s = .inr result) :
    loop round (n + 1) s = .ok result := by
  simp only [loop, ends]

/-- A loop comes to its end if something goes down in every round that goes on. -/
theorem loop_ends (left : σ → Nat) (down : ∀ {s s'}, round s = .inl s' → left s' < left s)
    {n : Nat} {s : σ} (enough : left s < n) : ∃ result, loop round n s = .ok result := by
  induction n generalizing s with
  | zero => exact absurd enough (Nat.not_lt_zero _)
  | succ n ih =>
    cases step : round s with
    | inl next =>
      rw [loop_of_next step]
      exact ih (Nat.lt_of_lt_of_le (down step) (Nat.le_of_lt_succ enough))
    | inr result => exact ⟨result, loop_of_result step⟩

/-- The result of a computation that is known to succeed. -/
def resultOf (x : Except Fault α) (succeeds : ∃ a, x = .ok a) : α :=
  match x, succeeds with
  | .ok a, _ => a
  | .error _, succeeds => False.elim (by obtain ⟨a, same⟩ := succeeds; cases same)

theorem eq_ok_resultOf {x : Except Fault α} (succeeds : ∃ a, x = .ok a) :
    x = .ok (resultOf x succeeds) := by
  obtain ⟨a, rfl⟩ := succeeds
  rfl

end Loop

/-! ### Following references -/

variable {kind : IdentKind}

/-- There is less left to be met once one more element has been met. -/
theorem length_filter_not_lt {α : Type} {met met' : α → Bool} {all : List α} {a : α}
    (mono : ∀ {b}, met b = true → met' b = true) (member : a ∈ all) (new : met a = false)
    (now : met' a = true) :
    (all.filter (!met' ·)).length < (all.filter (!met ·)).length := by
  have finer : all.filter (!met' ·) = (all.filter (!met ·)).filter (!met' ·) := by
    rw [List.filter_filter]
    refine List.filter_congr fun b _ => ?_
    cases before : met b with
    | false => simp
    | true => simp [mono before]
  rw [finer, List.length_filter_lt_length_iff_exists]
  exact ⟨a, List.mem_filter.2 ⟨member, by simp [new]⟩, by simp [now]⟩

namespace IdentSet

variable {s : IdentSet kind} {a : Ident kind} {count : Nat}

/-- How many of the first elements are not in a set. -/
def missing (s : IdentSet kind) (count : Nat) : Nat :=
  ((List.range count).filter fun index => !decide (⟨index⟩ ∈ s)).length

theorem missing_le (s : IdentSet kind) (count : Nat) : s.missing count ≤ count := by
  have bound := List.length_filter_le (fun index => !decide (⟨index⟩ ∈ s)) (List.range count)
  rwa [List.length_range] at bound

theorem missing_insert_le : (s.insert a).missing count ≤ s.missing count := by
  rw [missing, missing, ← List.countP_eq_length_filter, ← List.countP_eq_length_filter]
  refine List.countP_mono_left fun index _ missing => ?_
  simp_all

theorem missing_insert_lt (new : a ∉ s) (inside : a.index < count) :
    (s.insert a).missing count < s.missing count := by
  refine length_filter_not_lt (a := a.index) (fun before => ?_) (List.mem_range.2 inside) ?_ ?_
  · simp_all
  · exact decide_eq_false new
  · exact decide_eq_true (mem_insert.2 (.inl rfl))

end IdentSet

/-- A loop that follows references: what to look at next, and what has been passed. -/
structure Chase (kind : IdentKind) where
  current : Option (Ident kind)
  seen : IdentSet kind := ∅

namespace Chase

variable {s : Chase kind} {a : Ident kind} {next : Option (Ident kind)} {count : Nat}

/-- Passes an element and goes on to the next one. -/
def pass (s : Chase kind) (a : Ident kind) (next : Option (Ident kind)) : Chase kind where
  current := next
  seen := s.seen.insert a

/-- How many elements a chase can still look at if references lead on from the first ones only. -/
def left (s : Chase kind) (count : Nat) : Nat :=
  s.seen.missing count + if s.current.isSome then 1 else 0

/-- At first a chase can look at all elements that references lead on from, and at one more. -/
theorem left_start_le (current : Option (Ident kind)) (count : Nat) :
    (Chase.mk current ∅).left count ≤ count + 1 := by
  refine Nat.add_le_add (IdentSet.missing_le _ count) ?_
  split
  · exact Nat.le_refl 1
  · exact Nat.zero_le 1

/-- A chase has fewer elements left once it has passed one. -/
theorem left_pass_lt (here : s.current = some a) (new : a ∉ s.seen)
    (leads : next.isSome → a.index < count) : (s.pass a next).left count < s.left count := by
  cases next with
  | none =>
    have fewer : (s.seen.insert a).missing count ≤ s.seen.missing count :=
      IdentSet.missing_insert_le
    simp only [left, pass, here, Option.isSome_none, Option.isSome_some, Bool.false_eq_true,
      if_false, if_true]
    omega
  | some b =>
    have fewer := IdentSet.missing_insert_lt new (leads rfl)
    simp only [left, pass, here, Option.isSome_some, if_true]
    omega

end Chase

end Inquest
