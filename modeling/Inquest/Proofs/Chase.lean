import Mathlib.Logic.Relation
import Inquest.Loop

/-!
# Chases find the nearest hit

A chase looks at one element after the other along references.  It ends at the first element that
has what is searched for, where the references end, or at an element that it has passed before.

Nothing is lost in the last case.  Where references lead from an element on does not depend on the
way to it, so a chase that meets an element again would only go through the same elements again, and
none of them was a hit.

## Main Definitions

* `follow` - the element that a number of references lead to
* `Nearest` - what is found at the nearest element along references that has anything
* `Chase.Passed` - a chase has come along a number of references and met no hit

## Main Statements

* `loop_induction` - what every round preserves holds at the end of a loop
* `loop_mono` - more rounds give the same result
* `exists_follow_iff` - an element is reached in some number of steps if references lead to it
* `Chase.Passed.nearest_none_of_seen` - an element that was passed before leads to no hit
* `Nearest.eq` - a search has one result at most
-/

namespace Inquest

/-- What holds at first and is preserved by every round holds at the end of a loop. -/
theorem loop_induction {σ α : Type} {round : σ → σ ⊕ α} {P : σ → Prop} {Q : α → Prop} {n : Nat}
    {s : σ} {result : α} (goesOn : ∀ {s s'}, P s → round s = .inl s' → P s')
    (ends : ∀ {s a}, P s → round s = .inr a → Q a) (start : P s)
    (done : loop round n s = .ok result) : Q result := by
  induction n generalizing s with
  | zero => cases done
  | succ n ih =>
    cases step : round s with
    | inl s' =>
      rw [loop_of_next step] at done
      exact ih (goesOn start step) done
    | inr a =>
      rw [loop_of_result step] at done
      exact Except.ok.inj done ▸ ends start step

/-- A result is the same if more rounds are allowed. -/
theorem loop_mono {σ α : Type} {round : σ → σ ⊕ α} {n m : Nat} {s : σ} {result : α}
    (done : loop round n s = .ok result) (le : n ≤ m) : loop round m s = .ok result := by
  induction n generalizing m s with
  | zero => cases done
  | succ n ih =>
    obtain ⟨m, rfl⟩ := Nat.exists_eq_add_of_lt le
    cases step : round s with
    | inl s' =>
      rw [loop_of_next step] at done ⊢
      exact ih done (Nat.le_add_right n m)
    | inr a =>
      rw [loop_of_result step] at done ⊢
      exact done

variable {kind : IdentKind} {β : Type} {next : Ident kind → Option (Ident kind)}
  {hit : Ident kind → Option β} {start a b : Ident kind} {i j k : Nat}

/-! ### References -/

/-- The element that a number of references lead to. -/
def follow (next : Ident kind → Option (Ident kind)) : Nat → Ident kind → Option (Ident kind)
  | 0, a => some a
  | k + 1, a => (next a).bind (follow next k)

theorem follow_add (next : Ident kind → Option (Ident kind)) (i j : Nat) (a : Ident kind) :
    follow next (i + j) a = (follow next i a).bind (follow next j) := by
  induction i generalizing a with
  | zero => rw [Nat.zero_add, follow, Option.bind_some]
  | succ i ih =>
    rw [Nat.add_right_comm, follow, follow, Option.bind_assoc]
    exact congrArg _ (funext ih)

theorem follow_succ (reached : follow next k start = some a) :
    follow next (k + 1) start = next a := by
  rw [follow_add, reached, Option.bind_some, follow]
  exact Option.bind_fun_some (next a)

theorem exists_follow_iff :
    (∃ k, follow next k a = some b) ↔ Relation.ReflTransGen (fun a b => next a = some b) a b := by
  constructor
  · rintro ⟨k, reached⟩
    induction k generalizing a with
    | zero =>
      cases reached
      exact .refl
    | succ k ih =>
      obtain ⟨c, step, reached⟩ := Option.bind_eq_some_iff.1 reached
      exact .head step (ih reached)
  · intro leads
    induction leads using Relation.ReflTransGen.head_induction_on with
    | refl => exact ⟨0, rfl⟩
    | head step _ ih =>
      obtain ⟨k, reached⟩ := ih
      exact ⟨k + 1, by rw [follow, step, Option.bind_some, reached]⟩

/-! ### The nearest hit -/

/-- What is found at the nearest element along references that has anything, and nothing if there is
no such element. -/
def Nearest (next : Ident kind → Option (Ident kind)) (hit : Ident kind → Option β)
    (start : Ident kind) : Option β → Prop
  | some found => ∃ k a, follow next k start = some a ∧ hit a = some found ∧
      ∀ j < k, ∀ b, follow next j start = some b → hit b = none
  | none => ∀ k a, follow next k start = some a → hit a = none

/-- A search has one result at most. -/
theorem Nearest.eq {x y : Option β} (here : Nearest next hit start x)
    (there : Nearest next hit start y) : x = y := by
  match x, y with
  | none, none => rfl
  | none, some _ =>
    obtain ⟨k, a, reached, found, -⟩ := there
    cases found.symm.trans (here k a reached)
  | some _, none =>
    obtain ⟨k, a, reached, found, -⟩ := here
    cases found.symm.trans (there k a reached)
  | some _, some _ =>
    obtain ⟨k, a, reached, found, nearest⟩ := here
    obtain ⟨k', a', reached', found', nearest'⟩ := there
    rcases Nat.lt_trichotomy k k' with less | rfl | greater
    · cases found.symm.trans (nearest' k less a reached)
    · cases reached.symm.trans reached'
      exact found.symm.trans found'
    · cases found'.symm.trans (nearest k' greater a' reached')

theorem Nearest.eq_iff {x y : Option β} (here : Nearest next hit start x) :
    x = y ↔ Nearest next hit start y :=
  ⟨fun same => same ▸ here, here.eq⟩

/-- A hit at the start is the nearest one. -/
theorem nearest_start {found : β} (here : hit start = some found) :
    Nearest next hit start (some found) :=
  ⟨0, start, rfl, here, fun _ before => absurd before (Nat.not_lt_zero _)⟩

/-! ### Chases -/

namespace Chase

variable {s : Chase kind}

/-- A chase has come along a number of references: it has seen what it has passed, and none of that
was a hit. -/
structure Passed (next : Ident kind → Option (Ident kind)) (hit : Ident kind → Option β)
    (start : Ident kind) (k : Nat) (s : Chase kind) : Prop where
  current : s.current = follow next k start
  seen : ∀ {b}, b ∈ s.seen → ∃ j < k, follow next j start = some b
  missed : ∀ j < k, ∀ b, follow next j start = some b → hit b = none

namespace Passed

theorem initially : Passed next hit start 0 { current := some start } where
  current := rfl
  seen member := absurd member IdentSet.not_mem_empty
  missed _ before := absurd before (Nat.not_lt_zero _)

theorem pass (passed : Passed next hit start k s) (here : s.current = some a)
    (miss : hit a = none) : Passed next hit start (k + 1) (s.pass a (next a)) where
  current := (follow_succ (passed.current.symm.trans here)).symm
  seen member := by
    rcases IdentSet.mem_insert.1 member with rfl | before
    · exact ⟨k, Nat.lt_succ_self k, passed.current.symm.trans here⟩
    · obtain ⟨j, before, reached⟩ := passed.seen before
      exact ⟨j, Nat.lt_succ_of_lt before, reached⟩
  missed j before b reached := by
    rcases Nat.lt_succ_iff_lt_or_eq.1 before with earlier | rfl
    · exact passed.missed j earlier b reached
    · cases (passed.current.symm.trans here).symm.trans reached
      exact miss

theorem nearest_some (passed : Passed next hit start k s) (here : s.current = some a) {found : β}
    (hits : hit a = some found) : Nearest next hit start (some found) :=
  ⟨k, a, passed.current.symm.trans here, hits, passed.missed⟩

/-- Where the references end nothing was missed. -/
theorem nearest_none (passed : Passed next hit start k s) (ends : s.current = none) :
    Nearest next hit start none := by
  intro j b reached
  by_cases met : j < k
  · exact passed.missed j met b reached
  · obtain ⟨rest, rfl⟩ := Nat.exists_eq_add_of_le (Nat.le_of_not_lt met)
    rw [follow_add, ← passed.current, ends] at reached
    cases reached

/-- An element that was passed before leads to no hit: what lies behind it was passed as well. -/
theorem nearest_none_of_seen (passed : Passed next hit start k s) (here : s.current = some a)
    (before : a ∈ s.seen) : Nearest next hit start none := by
  obtain ⟨i, earlier, reached⟩ := passed.seen before
  intro m
  induction m using Nat.strongRecOn with
  | ind m ih =>
    intro b reachedB
    by_cases met : m < k
    · exact passed.missed m met b reachedB
    · -- the same element is reached with fewer steps, without the round trip
      obtain ⟨rest, rfl⟩ := Nat.exists_eq_add_of_le (Nat.le_of_not_lt met)
      refine ih (i + rest) (Nat.add_lt_add_right earlier rest) b ?_
      rw [follow_add, ← passed.current, here] at reachedB
      rw [follow_add, reached]
      exact reachedB

end Passed

end Chase

end Inquest
