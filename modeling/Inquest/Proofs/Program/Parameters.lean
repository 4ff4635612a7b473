import Inquest.Program.Parameter
import Inquest.Proofs.Chase

/-!
# The parameter that an operand comes from

An operand comes from a parameter if a chain of passthroughs leads from its producer to an
instruction that reads the parameter.  The search for it follows the chain, and the references may
form a cycle or lead out of the program.

An instruction that reads a parameter hands nothing on.  So a chain that leads to one ends there,
and what the search finds first is all that there is to be found.

## Main Definitions

* `Program.HandsOn`, `Program.Reads` - one step of a chain, and its end
* `Program.ComesFrom` - a chain leads from an operand to a parameter

## Main Statements

* `Program.parameterSearch_nearest` - the search finds the nearest producer that reads a parameter
* `Program.parameterFrom_eq_some_iff` - which is the only one
* `Program.parameterSource_iff` - the search decides whether an operand comes from a parameter
* `Program.parameterSource_exact` - it comes to an end, and finds no parameter only where there is
  none
-/

namespace Inquest

/-- The parameter that an instruction reads. -/
def Instruction.parameter? (i : Instruction) : Option Nat :=
  match i.kind with
  | .loadParameter parameter => some parameter
  | _ => none

namespace Program

variable {p : Program} {id producer next : InstructionId} {operand k rounds : Nat}

/-! ### Chains -/

/-- The producer is a passthrough, and hands on what the next one produces. -/
def HandsOn (p : Program) (producer next : InstructionId) : Prop :=
  ∃ i, p.instruction? producer = some i ∧ i.kind = .passthrough ∧
    i.operands.head? = some (some next)

/-- The producer reads a parameter. -/
def Reads (p : Program) (producer : InstructionId) (k : Nat) : Prop :=
  ∃ i, p.instruction? producer = some i ∧ i.kind = .loadParameter k

/-- A chain of passthroughs leads from the producer of an operand to one that reads a parameter. -/
def ComesFrom (p : Program) (id : InstructionId) (operand k : Nat) : Prop :=
  ∃ i producer last, p.instruction? id = some i ∧ i.operands[operand]? = some (some producer) ∧
    Relation.ReflTransGen p.HandsOn producer last ∧ p.Reads last k

/-- The producer of what a producer hands on. -/
def handedOn? (p : Program) (producer : InstructionId) : Option InstructionId :=
  (p.instruction? producer).bind fun i =>
    if i.kind = .passthrough then i.operands.head?.join else none

/-- The parameter that a producer reads. -/
def read? (p : Program) (producer : InstructionId) : Option Nat :=
  (p.instruction? producer).bind Instruction.parameter?

theorem handedOn?_eq_some_iff : p.handedOn? producer = some next ↔ p.HandsOn producer next := by
  simp only [handedOn?, HandsOn, Option.bind_eq_some_iff, Option.ite_none_right_eq_some,
    Option.join_eq_some_iff]

theorem read?_eq_some_iff : p.read? producer = some k ↔ p.Reads producer k := by
  rw [read?, Reads, Option.bind_eq_some_iff]
  refine exists_congr fun i => and_congr_right fun _ => ?_
  unfold Instruction.parameter?
  split <;> simp_all

/-- What hands on something reads no parameter itself. -/
theorem HandsOn.read?_eq_none (hands : p.HandsOn producer next) : p.read? producer = none := by
  obtain ⟨i, known, kind, -⟩ := hands
  simp [read?, known, Instruction.parameter?, kind]

/-! ### The search along a chain -/

/-- The search ends where no producer is known, at one that was passed, or at one that hands nothing
on. -/
theorem parameterRound_eq_inr {s : Chase .instruction} {result : Option Nat}
    (ends : p.parameterRound s = .inr result) :
    s.current = none ∧ result = none ∨
      (∃ producer ∈ s.seen, s.current = some producer ∧ result = none) ∨
      ∃ producer, s.current = some producer ∧ p.handedOn? producer = none ∧
        result = p.read? producer := by
  unfold parameterRound at ends
  split at ends
  · next missing => exact .inl ⟨missing, (Sum.inr.inj ends).symm⟩
  · next producer here =>
    split at ends
    · next before => exact .inr (.inl ⟨producer, before, here, (Sum.inr.inj ends).symm⟩)
    · refine .inr (.inr ⟨producer, here, ?_⟩)
      split at ends
      · next unknown => simp [handedOn?, read?, unknown, ← Sum.inr.inj ends]
      · next i known =>
        split at ends
        · next parameter kind =>
          simp [handedOn?, read?, known, kind, Instruction.parameter?, ← Sum.inr.inj ends]
        · cases ends
        · next computes passes =>
          have nothing : i.parameter? = none := by
            unfold Instruction.parameter?
            split
            · next parameter kind => exact absurd kind (computes parameter)
            · rfl
          simp [handedOn?, read?, known, if_neg passes, nothing, ← Sum.inr.inj ends]

/-- The search finds the nearest producer that reads a parameter. -/
theorem parameterSearch_nearest {result : Option Nat}
    (done : p.parameterSearch rounds producer = .ok result) :
    Nearest p.handedOn? p.read? producer result := by
  refine loop_induction (P := fun s => ∃ k, Chase.Passed p.handedOn? p.read? producer k s)
    ?_ ?_ ⟨0, .initially⟩ done
  · rintro s s' ⟨k, passed⟩ goesOn
    obtain ⟨producer, i, here, -, known, kind, rfl⟩ := parameterRound_eq_inl goesOn
    have leads : p.handedOn? producer = i.operands.head?.join := by simp [handedOn?, known, kind]
    refine ⟨k + 1, leads ▸ passed.pass here ?_⟩
    simp [read?, known, Instruction.parameter?, kind]
  · rintro s result ⟨k, passed⟩ ends
    rcases parameterRound_eq_inr ends with
      ⟨missing, rfl⟩ | ⟨producer, before, here, rfl⟩ | ⟨producer, here, last, rfl⟩
    · exact passed.nearest_none missing
    · exact passed.nearest_none_of_seen here before
    · cases reads : p.read? producer with
      | some k => exact passed.nearest_some here reads
      | none => exact (passed.pass here reads).nearest_none last

/-- The search has the same result however many rounds it is allowed beyond its bound. -/
theorem parameterSearch_of_le (enough : p.handoverBound ≤ rounds) :
    p.parameterSearch rounds producer = .ok (p.parameterFrom producer) :=
  loop_mono (eq_ok_resultOf (p.parameterSearch_ends producer)) enough

/-- The search finds the parameter that a chain leads to. -/
theorem parameterFrom_eq_some_iff : p.parameterFrom producer = some k ↔
    ∃ last, Relation.ReflTransGen p.HandsOn producer last ∧ p.Reads last k := by
  have nearest := parameterSearch_nearest (eq_ok_resultOf (p.parameterSearch_ends producer))
  have steps : p.HandsOn = fun a b => p.handedOn? a = some b := by
    funext a b
    exact propext handedOn?_eq_some_iff.symm
  simp only [parameterFrom, nearest.eq_iff, steps, ← exists_follow_iff, ← read?_eq_some_iff]
  constructor
  · rintro ⟨j, last, reached, reads, -⟩
    exact ⟨last, ⟨j, reached⟩, reads⟩
  · rintro ⟨last, ⟨j, reached⟩, reads⟩
    refine ⟨j, last, reached, reads, fun i before b passed => ?_⟩
    -- a producer before the last one hands something on
    obtain ⟨rest, rfl⟩ := Nat.exists_eq_add_of_lt before
    rw [Nat.add_assoc, follow_add, passed, Option.bind_some, follow] at reached
    obtain ⟨next, hands, -⟩ := Option.bind_eq_some_iff.1 reached
    exact (handedOn?_eq_some_iff.1 hands).read?_eq_none

/-- The search decides whether an operand comes from a parameter. -/
theorem parameterSource_iff : p.parameterSource id operand = some k ↔ p.ComesFrom id operand k := by
  simp only [parameterSource, producer?, ComesFrom, Option.bind_eq_some_iff,
    Option.join_eq_some_iff, parameterFrom_eq_some_iff]
  constructor
  · rintro ⟨producer, ⟨i, known, fetched⟩, last, chain, reads⟩
    exact ⟨i, producer, last, known, fetched, chain, reads⟩
  · rintro ⟨i, producer, last, known, fetched, chain, reads⟩
    exact ⟨producer, ⟨i, known, fetched⟩, last, chain, reads⟩

/-- From the producer of an operand the search along passthroughs comes to an end, and more rounds
change nothing.  The operand has a parameter as its source exactly if a finite chain, from its
producer and at each passthrough on to the producer of its first operand, ends at an instruction
that reads the parameter.  It has none exactly if there is no such chain, be it that a producer is
unknown or missing, computes something or is met again. -/
theorem parameterSource_exact (p : Program) (id : InstructionId) (operand : Nat) :
    (∀ rounds, p.instructions.size + 2 ≤ rounds → ∀ producer,
      p.producer? id operand = some producer →
        p.parameterSearch rounds producer = .ok (p.parameterSource id operand)) ∧
    (∀ k, p.parameterSource id operand = some k ↔ p.ComesFrom id operand k) ∧
    (p.parameterSource id operand = none ↔ ∀ k, ¬ p.ComesFrom id operand k) := by
  refine ⟨fun rounds enough producer produced => ?_, fun k => parameterSource_iff, ?_⟩
  · rw [parameterSource, produced, Option.bind_some]
    exact parameterSearch_of_le enough
  · rw [Option.eq_none_iff_forall_ne_some]
    exact forall_congr' fun k => not_congr parameterSource_iff

/-- A parameter that is handed on twice, two passthroughs that hand on to each other, one that hands
on what no instruction produces, and one whose producer is unknown; the last instruction uses all
four. -/
def handovers : Program where
  classes := #[]
  methods := #[]
  instructions := #[
    { id := ⟨0⟩, method := ⟨0⟩, position := 0, kind := .loadParameter 2 },
    { id := ⟨1⟩, method := ⟨0⟩, position := 1, kind := .passthrough, operands := [some ⟨0⟩] },
    { id := ⟨2⟩, method := ⟨0⟩, position := 2, kind := .passthrough,
      operands := [some ⟨1⟩, some ⟨3⟩] },
    { id := ⟨3⟩, method := ⟨0⟩, position := 3, kind := .passthrough, operands := [some ⟨4⟩] },
    { id := ⟨4⟩, method := ⟨0⟩, position := 4, kind := .passthrough,
      operands := [some ⟨3⟩, some ⟨0⟩] },
    { id := ⟨5⟩, method := ⟨0⟩, position := 5, kind := .passthrough, operands := [some ⟨77⟩] },
    { id := ⟨6⟩, method := ⟨0⟩, position := 6, kind := .passthrough,
      operands := [none, some ⟨0⟩] },
    { id := ⟨7⟩, method := ⟨0⟩, position := 7, kind := .other,
      operands := [some ⟨2⟩, some ⟨3⟩, some ⟨5⟩, some ⟨6⟩] }]

/-- The search from the cycle ends although the cycle is not left however far it is followed. -/
theorem parameterSource_exact_handovers :
    handovers.ComesFrom ⟨7⟩ 0 2 ∧ (∀ k, ¬ handovers.ComesFrom ⟨7⟩ 1 k) ∧
      (∀ k, ¬ handovers.ComesFrom ⟨7⟩ 2 k) ∧ (∀ k, ¬ handovers.ComesFrom ⟨7⟩ 3 k) ∧
      handovers.instructions.size + 2 ≤ 1000 ∧ handovers.producer? ⟨7⟩ 1 = some ⟨3⟩ ∧
      handovers.parameterSearch 1000 ⟨3⟩ = .ok none := by
  obtain ⟨-, chain, -⟩ := parameterSource_exact handovers ⟨7⟩ 0
  obtain ⟨ends, -, cycle⟩ := parameterSource_exact handovers ⟨7⟩ 1
  obtain ⟨-, -, dangling⟩ := parameterSource_exact handovers ⟨7⟩ 2
  obtain ⟨-, -, unknown⟩ := parameterSource_exact handovers ⟨7⟩ 3
  have few : handovers.instructions.size + 2 ≤ 1000 := by decide
  have nothing : handovers.parameterSource ⟨7⟩ 1 = none := by decide
  have produced : handovers.producer? ⟨7⟩ 1 = some ⟨3⟩ := rfl
  exact ⟨(chain 2).1 (by decide), cycle.1 nothing, dangling.1 (by decide), unknown.1 (by decide),
    few, produced, nothing ▸ ends 1000 few ⟨3⟩ produced⟩

end Program

end Inquest
