import Inquest.Proofs.Program.Parameters
import Inquest.Proofs.Unexecuted.Horizon

/-!
# Expectations on methods and on callers

An expectation on an instruction is turned into one on the invocations of its method, and into one
on the call sites of the method.  The two are worked out apart from each other, for the search of an
invocation and for the callers that are asked if there is none, and they have to mean the same.

They do: the expectation on the call sites is the one on the method with its parameters read as
operands.  Only a static method makes a difference, since it has no receiver and the callers are
still asked about one.

## Main Definitions

* `Expectation.onReceiver` - an expectation on the receiver of a method
* `Expectation.Concerns` - the objects that an expectation is about
* `Expectation.Tracks` - an expectation on an object as what an operand comes from

## Main Statements

* `Expectation.forMethodSearch_forMethodSearch` - the expectation on a method stays the same for
  every instruction of the method
* `Expectation.forCallers_eq_asOperand` - the expectation on the call sites, from the one on the
  method
* `Expectation.tracks_of_parameterSource` - an operand is followed to the parameter that it comes
  from
* `Expectation.translations_agree` - how the two translations fit together
-/

namespace Inquest.Expectation

variable {p : Program} {i : InstructionId} {position : Nat} {o : ObjectId}

/-- The expectation is one on the receiver of a method. -/
def onReceiver : Expectation → Bool
  | .object _ none => true
  | .anyOf _ => true
  | _ => false

/-- The expectation is about the object. -/
def Concerns : Expectation → ObjectId → Prop
  | .unconstrained, _ => False
  | .object o _, o' => o' = o
  | .parameter o _, o' => o' = o
  | .anyOf objects, o' => o' ∈ objects

/-! ### From an instruction to its method -/

/-- The expectation on a method means the same to every instruction of the method. -/
theorem forMethodSearch_forMethodSearch (p : Program) (i j : InstructionId)
    (isStatic : Bool) (x : Expectation) :
    (x.forMethodSearch p i isStatic).forMethodSearch p j isStatic =
      x.forMethodSearch p i isStatic := by
  cases x with
  | unconstrained => rfl
  | parameter o index => rfl
  | anyOf objects => cases isStatic <;> rfl
  | object o argument =>
    cases argument with
    | none => cases isStatic <;> rfl
    | some position =>
      rw [forMethodSearch]
      cases p.parameterSource i position <;> rfl

/-- Whether the method is static makes a difference to expectations on its receiver only. -/
theorem forMethodSearch_isStatic (p : Program) (i : InstructionId) {isStatic : Bool}
    {x : Expectation} (applies : ¬ (isStatic = true ∧ x.onReceiver = true)) :
    x.forMethodSearch p i isStatic = x.forMethodSearch p i false := by
  cases isStatic with
  | false => rfl
  | true =>
    cases x with
    | unconstrained => rfl
    | parameter o index => rfl
    | anyOf objects => exact absurd ⟨rfl, rfl⟩ applies
    | object o argument =>
      cases argument with
      | none => exact absurd ⟨rfl, rfl⟩ applies
      | some position => rfl

/-! ### From a method to its call sites -/

/-- The expectation on the call sites is the one on the method, as if this had a receiver, with the
parameters read as operands. -/
theorem forCallers_eq_asOperand (p : Program) (i : InstructionId) (x : Expectation) :
    x.forCallers p i = (x.forMethodSearch p i false).asOperand := by
  cases x with
  | unconstrained => rfl
  | parameter o index => rfl
  | anyOf objects => rfl
  | object o argument =>
    cases argument with
    | none => rfl
    | some position =>
      rw [forCallers, forMethodSearch]
      cases p.parameterSource i position <;> rfl

/-- The step to the call sites can be made from the expectation on the method. -/
theorem forCallers_forMethodSearch (p : Program) (i j : InstructionId) {isStatic : Bool}
    {x : Expectation} (applies : ¬ (isStatic = true ∧ x.onReceiver = true)) :
    (x.forMethodSearch p i isStatic).forCallers p j = x.forCallers p i := by
  rw [forMethodSearch_isStatic p i applies, forCallers_eq_asOperand, forCallers_eq_asOperand,
    forMethodSearch_forMethodSearch]

/-! ### From an operand to a parameter -/

/-- An expectation ties an object to the parameter that an operand comes from; if the operand comes
from none, it is dropped. -/
structure Tracks (p : Program) (i : InstructionId) (position : Nat) (o : ObjectId)
    (tie : Nat → Expectation) (y : Expectation) : Prop where
  tied : ∀ k, y = tie k ↔ p.ComesFrom i position k
  dropped : (∀ k, ¬ p.ComesFrom i position k) → y = .unconstrained
  concerns : ∀ o', y.Concerns o' → o' = o

/-- An operand is followed to the parameter that it comes from, if there are different ways to tie
an object to different parameters. -/
theorem tracks_of_parameterSource {tie : Nat → Expectation} (different : Function.Injective tie)
    (constrains : ∀ k, tie k ≠ .unconstrained) (about : ∀ k o', (tie k).Concerns o' → o' = o) :
    Tracks p i position o tie (((p.parameterSource i position).map tie).getD .unconstrained) := by
  refine ⟨fun k => ?_, fun nowhere => ?_, fun o' concerns => ?_⟩
  · rw [← Program.parameterSource_iff]
    cases p.parameterSource i position with
    | none => simp [(constrains k).symm]
    | some k' => simp [different.eq_iff]
  · cases source : p.parameterSource i position with
    | none => rfl
    | some k => exact absurd (Program.parameterSource_iff.1 source) (nowhere k)
  · cases source : p.parameterSource i position with
    | none => simp [source, Concerns] at concerns
    | some k => exact about k o' (by simpa [source] using concerns)

theorem forMethodSearch_operand (p : Program) (i : InstructionId) (isStatic : Bool) (o : ObjectId)
    (position : Nat) :
    (operand o position).forMethodSearch p i isStatic =
      ((p.parameterSource i position).map (parameter o)).getD .unconstrained := by
  rw [operand, forMethodSearch]
  cases p.parameterSource i position <;> rfl

theorem forCallers_operand (p : Program) (i : InstructionId) (o : ObjectId) (position : Nat) :
    (operand o position).forCallers p i =
      ((p.parameterSource i position).map (operand o)).getD .unconstrained := by
  rw [operand, forCallers]
  cases p.parameterSource i position <;> rfl

theorem tracks_forMethodSearch (p : Program) (i : InstructionId) (isStatic : Bool) (o : ObjectId)
    (position : Nat) :
    Tracks p i position o (parameter o) ((operand o position).forMethodSearch p i isStatic) := by
  rw [forMethodSearch_operand]
  refine tracks_of_parameterSource (fun k k' same => ?_) (fun k same => ?_) fun k o' same => same
  · exact (parameter.inj same).2
  · cases same

theorem tracks_forCallers (p : Program) (i : InstructionId) (o : ObjectId) (position : Nat) :
    Tracks p i position o (operand o) ((operand o position).forCallers p i) := by
  rw [forCallers_operand]
  refine tracks_of_parameterSource (fun k k' same => ?_) (fun k same => ?_) fun k o' same => same
  · exact Option.some.inj (object.inj same).2
  · cases same

/-- The expectation on a method is the same for all of its instructions, and the expectation on the
call sites can be worked out from it, unless the method is static and a receiver is expected.  An
operand that comes from a parameter becomes that parameter of the method and that operand of the
call; one that comes from none is dropped; and no other object comes in. -/
theorem translations_agree (p : Program) (x : Expectation) (i j : InstructionId)
    (isStatic : Bool) :
    (x.forMethodSearch p i isStatic).forMethodSearch p j isStatic =
      x.forMethodSearch p i isStatic ∧
    (¬ (isStatic = true ∧ x.onReceiver = true) →
      (x.forMethodSearch p i isStatic).forCallers p j = x.forCallers p i) ∧
    ∀ o position,
      Tracks p i position o (parameter o) ((operand o position).forMethodSearch p i isStatic) ∧
      Tracks p i position o (operand o) ((operand o position).forCallers p i) :=
  ⟨forMethodSearch_forMethodSearch p i j isStatic x, forCallers_forMethodSearch p i j,
    fun o position => ⟨tracks_forMethodSearch p i isStatic o position,
      tracks_forCallers p i o position⟩⟩

/-- The operands of a call: a parameter that is handed on twice, and one of two passthroughs that
hand on each other. -/
def handedOver : Program where
  classes := #[{ id := ⟨0⟩, name := "Shape", superclass := none }]
  methods := #[
    { id := ⟨0⟩, declaringClass := ⟨0⟩, name := "draw", isStatic := true,
      instructions := #[⟨0⟩, ⟨1⟩, ⟨2⟩, ⟨3⟩, ⟨4⟩, ⟨5⟩] }]
  instructions := #[
    { id := ⟨0⟩, method := ⟨0⟩, position := 0, kind := .loadParameter 2 },
    { id := ⟨1⟩, method := ⟨0⟩, position := 1, kind := .passthrough,
      operands := [some ⟨0⟩, some ⟨3⟩] },
    { id := ⟨2⟩, method := ⟨0⟩, position := 2, kind := .passthrough, operands := [some ⟨1⟩] },
    { id := ⟨3⟩, method := ⟨0⟩, position := 3, kind := .passthrough, operands := [some ⟨4⟩] },
    { id := ⟨4⟩, method := ⟨0⟩, position := 4, kind := .passthrough, operands := [some ⟨3⟩] },
    { id := ⟨5⟩, method := ⟨0⟩, position := 5, kind := .invoke ⟨0⟩,
      operands := [some ⟨2⟩, some ⟨4⟩] }]

/-- The first operand of the call comes from the parameter, in a static method too; the second one
comes from nowhere. -/
theorem translations_agree_handedOver :
    ¬ (true = true ∧ (operand ⟨7⟩ 0).onReceiver = true) ∧
      ((operand ⟨7⟩ 0).forMethodSearch handedOver ⟨5⟩ true).forCallers handedOver ⟨0⟩ =
        (operand ⟨7⟩ 0).forCallers handedOver ⟨5⟩ ∧
      handedOver.ComesFrom ⟨5⟩ 0 2 ∧ (∀ k, ¬ handedOver.ComesFrom ⟨5⟩ 1 k) ∧
      (operand ⟨7⟩ 1).forCallers handedOver ⟨5⟩ = .unconstrained := by
  have applies : ¬ (true = true ∧ (operand ⟨7⟩ 0).onReceiver = true) := by decide
  obtain ⟨-, commutes, tracks⟩ :=
    translations_agree handedOver (operand ⟨7⟩ 0) ⟨5⟩ ⟨0⟩ true
  have nowhere : ∀ k, ¬ handedOver.ComesFrom ⟨5⟩ 1 k := fun k comes => by
    have tied := ((tracks ⟨7⟩ 1).2.tied k).2 comes
    cases tied
  exact ⟨applies, commutes applies, ((tracks ⟨7⟩ 0).1.tied 2).1 rfl, nowhere,
    (tracks ⟨7⟩ 1).2.dropped nowhere⟩

end Inquest.Expectation
