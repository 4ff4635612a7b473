import Inquest.Loop
import Inquest.Program.Basic

/-!
# Where an operand comes from

An operand that is handed on by passthroughs comes from the instruction at the end of the
chain; when that instruction reads a parameter, the operand is that parameter.

## Main Definitions

* `Program.parameterSearch` - follows the chain from a producer
* `Program.parameterSource` - the parameter that an operand comes from

## Main Statements

* `Program.parameterSearch_ends` - the search comes to an end

## Design Notes

Operand references may form a cycle, which hands on no value.  The search keeps the producers that
it has passed and gives up at one that it meets again; it goes on only from an instruction of the
program, so it passes each of them once at most.
-/

namespace Inquest.Program

variable {p : Program} {s s' : Chase .instruction}

/-- One round of the search along passthroughs. -/
def parameterRound (p : Program) (s : Chase .instruction) : Chase .instruction ⊕ Option Nat :=
  match s.current with
  | none => .inr none
  | some producer =>
    if producer ∈ s.seen then .inr none
    else
      match p.instruction? producer with
      | none => .inr none
      | some i =>
        match i.kind with
        | .loadParameter parameter => .inr (some parameter)
        | .passthrough => .inl (s.pass producer i.operands.head?.join)
        | _ => .inr none

/-- The search for the parameter that is read at the end of the chain of passthroughs from a
producer. -/
def parameterSearch (p : Program) (rounds : Nat) (producer : InstructionId) :
    Except Fault (Option Nat) :=
  loop p.parameterRound rounds { current := some producer }

theorem parameterRound_eq_inl (goesOn : p.parameterRound s = .inl s') :
    ∃ producer i, s.current = some producer ∧ producer ∉ s.seen ∧
      p.instruction? producer = some i ∧ i.kind = .passthrough ∧
      s' = s.pass producer i.operands.head?.join := by
  unfold parameterRound at goesOn
  split at goesOn
  · cases goesOn
  · next producer here =>
    split at goesOn
    · cases goesOn
    · next new =>
      split at goesOn
      · cases goesOn
      · next i known =>
        split at goesOn
        · cases goesOn
        · next kind => exact ⟨producer, i, here, new, known, kind, (Sum.inl.inj goesOn).symm⟩
        · cases goesOn

/-- A bound on the rounds of a search along passthroughs. -/
def handoverBound (p : Program) : Nat := p.instructions.size + 2

theorem parameterSearch_ends (p : Program) (producer : InstructionId) :
    ∃ result, p.parameterSearch p.handoverBound producer = .ok result := by
  refine loop_ends (·.left p.instructions.size) (fun goesOn => ?_) ?_
  · obtain ⟨producer, i, here, new, known, -, rfl⟩ := parameterRound_eq_inl goesOn
    exact Chase.left_pass_lt here new fun _ => (Array.getElem?_eq_some_iff.1 known).1
  · exact Nat.lt_succ_of_le (Chase.left_start_le (some producer) p.instructions.size)

/-- The parameter that is read at the end of the chain of passthroughs from a producer, if there is
one. -/
def parameterFrom (p : Program) (producer : InstructionId) : Option Nat :=
  resultOf (p.parameterSearch p.handoverBound producer) (p.parameterSearch_ends producer)

/-- The producer of an operand of an instruction, if it is known. -/
def producer? (p : Program) (id : InstructionId) (operand : Nat) : Option InstructionId :=
  (p.instruction? id).bind (·.operands[operand]?.join)

/-- The parameter that an operand of an instruction comes from, if it comes from one. -/
def parameterSource (p : Program) (id : InstructionId) (operand : Nat) : Option Nat :=
  (p.producer? id operand).bind p.parameterFrom

end Inquest.Program
