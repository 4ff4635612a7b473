import Inquest.Program.Dispatch
import Inquest.Proofs.Chase

/-!
# Inheritance

A class inherits from every class that superclass references lead to.  Two searches go along the
references, and the references may form a cycle or lead to a class that is missing.  The test for a
subclass compares a class before it asks whether the class was passed, and a resolution asks first.
Both find the nearest hit: a class that was passed before was no hit then.

## Main Definitions

* `Program.ancestor?` - the class that a number of superclass references lead to
* `Program.Inherits` - one class is reached from another one by superclass references

## Main Statements

* `Program.subclassTest_nearest`, `Program.resolution_nearest` - both searches find the nearest hit
* `Program.isSubclassOf_iff` - the test for subclasses decides inheritance
-/

namespace Inquest.Program

variable {p : Program} {a b c : ClassId} {name : String} {k rounds : Nat}
  {s : Chase .objectClass}

/-- The class that a number of superclass references lead to. -/
def ancestor? (p : Program) : Nat → ClassId → Option ClassId := follow p.superclass?

/-- A class is another one, or reaches it by superclass references. -/
def Inherits (p : Program) : ClassId → ClassId → Prop :=
  Relation.ReflTransGen fun c parent => p.superclass? c = some parent

theorem inherits_iff : p.Inherits c a ↔ ∃ k, p.ancestor? k c = some a := exists_follow_iff.symm

/-- A class that is reached inherits from those that are reached later. -/
theorem inherits_of_le {j : Nat} (reached : p.ancestor? k c = some a)
    (later : p.ancestor? j c = some b) (le : k ≤ j) : p.Inherits a b := by
  obtain ⟨rest, rfl⟩ := Nat.exists_eq_add_of_le le
  rw [ancestor?, follow_add] at later
  rw [ancestor?] at reached
  rw [reached, Option.bind_some] at later
  exact inherits_iff.2 ⟨rest, later⟩

/-! ### The test for a subclass -/

/-- The test ends where there is no class, at the ancestor, or at a class that was passed. -/
theorem subclassRound_eq_inr {result : Bool} (ends : p.subclassRound a s = .inr result) :
    s.current = none ∧ result = false ∨ s.current = some a ∧ result = true ∨
      ∃ b ∈ s.seen, s.current = some b ∧ result = false := by
  unfold subclassRound at ends
  split at ends
  · next missing => exact .inl ⟨missing, (Sum.inr.inj ends).symm⟩
  · next b here =>
    split at ends
    · next same => exact .inr (.inl ⟨same ▸ here, (Sum.inr.inj ends).symm⟩)
    · split at ends
      · next before => exact .inr (.inr ⟨b, before, here, (Sum.inr.inj ends).symm⟩)
      · cases ends

/-- The test finds the ancestor wherever it is along the references. -/
theorem subclassTest_nearest {result : Bool} (done : p.subclassTest rounds c a = .ok result) :
    Nearest p.superclass? (Option.guard (· = a)) c (if result then some a else none) := by
  refine loop_induction
    (P := fun s => ∃ k, Chase.Passed p.superclass? (Option.guard (· = a)) c k s)
    (Q := fun result => Nearest p.superclass? _ c (if result then some a else none))
    ?_ ?_ ⟨0, .initially⟩ done
  · rintro s s' ⟨k, passed⟩ goesOn
    obtain ⟨b, here, other, -, rfl⟩ := subclassRound_eq_inl goesOn
    exact ⟨k + 1, passed.pass here (by simp [Option.guard, other])⟩
  · rintro s result ⟨k, passed⟩ ends
    rcases subclassRound_eq_inr ends with ⟨missing, rfl⟩ | ⟨here, rfl⟩ | ⟨b, before, here, rfl⟩
    · exact passed.nearest_none missing
    · exact passed.nearest_some here (by simp [Option.guard])
    · exact passed.nearest_none_of_seen here before

/-- A test that ends has decided inheritance. -/
theorem subclassTest_iff {result : Bool} (done : p.subclassTest rounds c a = .ok result) :
    result = true ↔ p.Inherits c a := by
  have nearest := subclassTest_nearest done
  rw [inherits_iff]
  cases result with
  | true =>
    obtain ⟨k, b, reached, found, -⟩ := nearest
    have same : b = a := by simpa [Option.guard] using found
    exact ⟨fun _ => ⟨k, same ▸ reached⟩, fun _ => rfl⟩
  | false =>
    refine ⟨fun wrong => Bool.noConfusion wrong, ?_⟩
    rintro ⟨k, reached⟩
    have missed := nearest k a reached
    simp [Option.guard] at missed

/-- The test has the same answer however many rounds it is allowed beyond its bound. -/
theorem subclassTest_of_le (enough : p.climbBound ≤ rounds) :
    p.subclassTest rounds c a = .ok (p.isSubclassOf c a) :=
  loop_mono (eq_ok_resultOf (p.subclassTest_ends c a)) enough

/-- The test for subclasses decides inheritance. -/
theorem isSubclassOf_iff : p.isSubclassOf c a = true ↔ p.Inherits c a :=
  subclassTest_iff (eq_ok_resultOf (p.subclassTest_ends c a))

/-! ### Resolution -/

/-- The first method of a name that a class declares, by its number. -/
def declaredId? (p : Program) (name : String) (c : ClassId) : Option MethodId :=
  (p.declared? c name).map Method.id

/-- A resolution ends where there is no class, at a class that was passed, or at one that declares
the name. -/
theorem resolutionRound_eq_inr {result : Option MethodId}
    (ends : p.resolutionRound name s = .inr result) :
    s.current = none ∧ result = none ∨
      (∃ b ∈ s.seen, s.current = some b ∧ result = none) ∨
      ∃ b id, s.current = some b ∧ p.declaredId? name b = some id ∧ result = some id := by
  unfold resolutionRound at ends
  split at ends
  · next missing => exact .inl ⟨missing, (Sum.inr.inj ends).symm⟩
  · next b here =>
    split at ends
    · next before => exact .inr (.inl ⟨b, before, here, (Sum.inr.inj ends).symm⟩)
    · split at ends
      · next m declared =>
        refine .inr (.inr ⟨b, m.id, here, ?_, (Sum.inr.inj ends).symm⟩)
        rw [declaredId?, declared, Option.map_some]
      · cases ends

/-- A resolution finds the method of the nearest class that declares one. -/
theorem resolution_nearest {result : Option MethodId}
    (done : p.resolution rounds c name = .ok result) :
    Nearest p.superclass? (p.declaredId? name) c result := by
  refine loop_induction
    (P := fun s => ∃ k, Chase.Passed p.superclass? (p.declaredId? name) c k s)
    ?_ ?_ ⟨0, .initially⟩ done
  · rintro s s' ⟨k, passed⟩ goesOn
    obtain ⟨b, here, -, missing, rfl⟩ := resolutionRound_eq_inl goesOn
    exact ⟨k + 1, passed.pass here (by rw [declaredId?, missing, Option.map_none])⟩
  · rintro s result ⟨k, passed⟩ ends
    rcases resolutionRound_eq_inr ends with
      ⟨missing, rfl⟩ | ⟨b, before, here, rfl⟩ | ⟨b, id, here, found, rfl⟩
    · exact passed.nearest_none missing
    · exact passed.nearest_none_of_seen here before
    · exact passed.nearest_some here found

theorem resolution_of_le (enough : p.climbBound ≤ rounds) :
    p.resolution rounds c name = .ok (p.resolve c name) :=
  loop_mono (eq_ok_resultOf (p.resolution_ends c name)) enough

theorem resolve_nearest (p : Program) (c : ClassId) (name : String) :
    Nearest p.superclass? (p.declaredId? name) c (p.resolve c name) :=
  resolution_nearest (eq_ok_resultOf (p.resolution_ends c name))

end Inquest.Program
