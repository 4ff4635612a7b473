import Inquest.Proofs.Program.Parameters
import Inquest.Proofs.Unexecuted.Reference

/-!
# The expectations that an explanation can meet

Explaining an instruction under an expectation leads to other instructions under other
expectations.  An expectation changes in two ways only: it becomes one on the method, or one on
the call sites of the method.  Both keep the object and take its position from the parameters
that the program reads.  So there are finitely many expectations to be met, and with them
finitely many instructions under an expectation that can lead any further.

## Main Definitions

* `Program.parameters` - the parameters that the instructions of a program read
* `Expectation.horizon` - the expectations that can be met from one
* `Scope.horizon` - the instructions of the program under these expectations

## Main Statements

* `Expectation.horizon_forMethodSearch`, `Expectation.horizon_forCallers` - nothing leads out of
  a horizon
* `Scope.expectation_mem_horizon` - what decides an instruction stays within the horizon
* `Scope.length_horizon_le` - a bound on the size of a horizon
-/

namespace Inquest

namespace Program

variable {p : Program}

/-- The parameters that the instructions of a program read. -/
def parameters (p : Program) : List Nat := p.instructions.toList.filterMap Instruction.parameter?

theorem length_parameters_le (p : Program) : p.parameters.length ≤ p.instructions.size := by
  simpa [parameters] using List.length_filterMap_le Instruction.parameter? p.instructions.toList

/-- The parameter that an operand comes from is one that the program reads. -/
theorem mem_parameters_of_parameterSource {id : InstructionId} {operand k : Nat}
    (found : p.parameterSource id operand = some k) : k ∈ p.parameters := by
  obtain ⟨-, -, last, -, -, -, i, known, kind⟩ := parameterSource_iff.1 found
  have member : i ∈ p.instructions.toList := by simpa using Array.mem_of_getElem? known
  exact List.mem_filterMap.2 ⟨i, member, by rw [Instruction.parameter?, kind]⟩

end Program

namespace Expectation

variable {p : Program} {x y : Expectation}

/-- The object that an expectation ties to a position among operands or parameters. -/
def pinned? : Expectation → Option ObjectId
  | .object o (some _) => some o
  | .parameter o _ => some o
  | _ => none

/-- The expectation with a parameter read as an operand of a call. -/
def asOperand : Expectation → Expectation
  | .parameter o index => operand o index
  | x => x

/-- The expectations on an object as a parameter that a program reads, and as such an operand. -/
def positions (p : Program) (o : ObjectId) : List Expectation :=
  p.parameters.map (parameter o) ++ p.parameters.map (operand o)

/-- The expectations that can be met from one. -/
def horizon (p : Program) (x : Expectation) : List Expectation :=
  x :: x.asOperand :: .unconstrained :: (x.pinned?.map (positions p)).getD []

theorem length_horizon_le (p : Program) (x : Expectation) :
    (x.horizon p).length ≤ 2 * p.instructions.size + 3 := by
  have reads := p.length_parameters_le
  cases pinned : x.pinned? with
  | none => simp [horizon, pinned]
  | some o =>
    simp only [horizon, pinned, positions, Option.map_some, Option.getD_some, List.length_cons,
      List.length_append, List.length_map]
    omega

theorem mem_horizon_self : x ∈ x.horizon p := by simp [horizon]

theorem unconstrained_mem_horizon : .unconstrained ∈ x.horizon p := by simp [horizon]

theorem mem_horizon_of_mem_positions {o : ObjectId} (pinned : x.pinned? = some o)
    (member : y ∈ positions p o) : y ∈ x.horizon p := by
  simp [horizon, pinned, member]

/-- The three ways to lie in a horizon. -/
theorem mem_horizon_cases (member : y ∈ x.horizon p) :
    y = x ∨ y = x.asOperand ∨ y = .unconstrained ∨
      ∃ o, x.pinned? = some o ∧ y ∈ positions p o := by
  simp only [horizon, List.mem_cons] at member
  rcases member with same | same | same | member
  · exact .inl same
  · exact .inr (.inl same)
  · exact .inr (.inr (.inl same))
  · cases pinned : x.pinned? with
    | none => simp [pinned] at member
    | some o => exact .inr (.inr (.inr ⟨o, rfl, by simpa [pinned] using member⟩))

theorem pinned?_asOperand (x : Expectation) : x.asOperand.pinned? = x.pinned? := by
  cases x <;> rfl

/-- Within a horizon, only the object of its origin is tied to a position. -/
theorem pinned?_of_mem_horizon {o : ObjectId} (member : y ∈ x.horizon p)
    (pinned : y.pinned? = some o) : x.pinned? = some o := by
  rcases mem_horizon_cases member with rfl | rfl | rfl | ⟨o', origin, member⟩
  · exact pinned
  · rwa [pinned?_asOperand] at pinned
  · cases pinned
  · simp only [positions, List.mem_append, List.mem_map] at member
    rcases member with ⟨k, -, rfl⟩ | ⟨k, -, rfl⟩
    · exact origin.trans pinned
    · exact origin.trans pinned

/-- A parameter that the program reads lies in the horizon of every expectation on its object. -/
theorem parameter_mem_horizon {o : ObjectId} {k : Nat} (pinned : x.pinned? = some o)
    (reads : k ∈ p.parameters) : .parameter o k ∈ x.horizon p :=
  mem_horizon_of_mem_positions pinned (List.mem_append_left _ (List.mem_map_of_mem reads))

/-- So does the operand at that position. -/
theorem operand_mem_horizon {o : ObjectId} {k : Nat} (pinned : x.pinned? = some o)
    (reads : k ∈ p.parameters) : operand o k ∈ x.horizon p :=
  mem_horizon_of_mem_positions pinned (List.mem_append_right _ (List.mem_map_of_mem reads))

/-- The step from an instruction to its method does not lead out of a horizon. -/
theorem horizon_forMethodSearch (member : y ∈ x.horizon p) (instruction : InstructionId)
    (isStatic : Bool) : y.forMethodSearch p instruction isStatic ∈ x.horizon p := by
  cases y with
  | unconstrained => exact member
  | parameter o k => exact member
  | anyOf objects =>
    cases isStatic with
    | false => exact member
    | true => exact unconstrained_mem_horizon
  | object o argument =>
    cases argument with
    | none =>
      cases isStatic with
      | false => exact member
      | true => exact unconstrained_mem_horizon
    | some position =>
      rw [forMethodSearch]
      cases source : p.parameterSource instruction position with
      | none => exact unconstrained_mem_horizon
      | some k =>
        exact parameter_mem_horizon (pinned?_of_mem_horizon member rfl)
          (Program.mem_parameters_of_parameterSource source)

/-- The step from a method to its call sites does not lead out of a horizon. -/
theorem horizon_forCallers (member : y ∈ x.horizon p) (instruction : InstructionId) :
    y.forCallers p instruction ∈ x.horizon p := by
  cases y with
  | unconstrained => exact member
  | anyOf objects => exact member
  | parameter o k =>
    rcases mem_horizon_cases member with rfl | same | same | ⟨o', origin, member⟩
    · exact List.mem_cons_of_mem _ List.mem_cons_self
    · cases x <;> simp [asOperand, operand] at same
    · cases same
    · simp only [positions, List.mem_append, List.mem_map] at member
      rcases member with ⟨k', reads, same⟩ | ⟨k', -, same⟩
      · cases same
        exact operand_mem_horizon origin reads
      · cases same
  | object o argument =>
    cases argument with
    | none => exact member
    | some position =>
      rw [forCallers]
      cases source : p.parameterSource instruction position with
      | none => exact unconstrained_mem_horizon
      | some k =>
        exact operand_mem_horizon (pinned?_of_mem_horizon member rfl)
          (Program.mem_parameters_of_parameterSource source)

end Expectation

namespace Scope

variable {s : Scope} {x y : Expectation}

/-- What decides an instruction comes with an expectation from the same horizon. -/
theorem expectation_mem_horizon (member : y ∈ x.horizon s.trace.program)
    {instruction : InstructionId} {decider : InstructionId × Expectation}
    (decides : decider ∈ s.decidersOf instruction y) :
    decider.2 ∈ x.horizon s.trace.program := by
  unfold decidersOf at decides
  rcases s.analyse_cases instruction y with
    ⟨reason, verdict, -⟩ | ⟨e, r, verdict, -⟩ | ⟨i, m, -, -, verdict | verdict⟩
  · simp [verdict, Verdict.children] at decides
  · simp [verdict, Verdict.children] at decides
  · rw [verdict, Verdict.children, List.mem_map] at decides
    obtain ⟨guard, -, rfl⟩ := decides
    exact Expectation.horizon_forMethodSearch member i.id m.isStatic
  · rw [verdict, Verdict.children, List.mem_map] at decides
    obtain ⟨site, -, rfl⟩ := decides
    exact Expectation.horizon_forCallers member i.id

/-- An instruction that others decide is one of the program. -/
theorem instruction_lt_of_not_isFinal {instruction : InstructionId}
    (undecided : (s.analyse instruction y).verdict.isFinal = false) :
    instruction.index < s.trace.program.instructions.size := by
  rcases s.analyse_cases instruction y with
    ⟨reason, verdict, -⟩ | ⟨e, r, verdict, -⟩ | ⟨i, m, known, -⟩
  · simp [verdict, Verdict.isFinal] at undecided
  · simp [verdict, Verdict.isFinal] at undecided
  · exact (Array.getElem?_eq_some_iff.1 known).1

/-- The instructions of the program under the expectations that can be met from one. -/
def horizon (s : Scope) (x : Expectation) : List (InstructionId × Expectation) :=
  (List.range s.trace.program.instructions.size).flatMap fun index =>
    (x.horizon s.trace.program).map (Prod.mk ⟨index⟩)

theorem mem_horizon {instruction : InstructionId} :
    (instruction, y) ∈ s.horizon x ↔
      instruction.index < s.trace.program.instructions.size ∧ y ∈ x.horizon s.trace.program := by
  simp only [horizon, List.mem_flatMap, List.mem_range, List.mem_map, Prod.mk.injEq]
  constructor
  · rintro ⟨index, inside, z, member, rfl, rfl⟩
    exact ⟨inside, member⟩
  · rintro ⟨inside, member⟩
    exact ⟨instruction.index, inside, y, member, rfl, rfl⟩

/-- The size of a horizon is bounded by the size of the program. -/
theorem length_horizon_le (s : Scope) (x : Expectation) :
    (s.horizon x).length ≤
      s.trace.program.instructions.size * (2 * s.trace.program.instructions.size + 3) := by
  have each := x.length_horizon_le s.trace.program
  calc (s.horizon x).length
      = s.trace.program.instructions.size * (x.horizon s.trace.program).length := by
        simp [horizon, List.length_flatMap, List.map_const']
    _ ≤ _ := Nat.mul_le_mul_left _ each

end Scope

end Inquest
