import Inquest.Loop
import Inquest.Program.Basic

/-!
# Inheritance and dispatch

A class inherits along the chain of its superclasses, a call on a receiver dispatches to the
first method of its name along the chain of the receiver's class, and a call site can reach a
method when it declares it or a method that it overrides.

## Main Definitions

* `Program.subclassTest`, `Program.isSubclassOf` - reflexive inheritance
* `Program.resolution`, `Program.resolve` - the method that a call reaches on an instance of a class
* `Program.dispatchesTo` - whether a call site reaches a method on a class of receivers
* `Program.callSitesOf` - the call sites that can reach a method

## Main Statements

* `Program.subclassTest_ends`, `Program.resolution_ends` - both searches come to an end

## Design Notes

Superclass references may form a cycle, or lead to a class that the program does not have.  A search
along them keeps the classes that it has passed and gives up at one that it meets again.  Only a
class of the program leads on to another one, so a search passes each of them once at most, and one
class that is missing.
-/

namespace Inquest.Program

variable {p : Program} {s s' : Chase .objectClass}

/-! ### Searches along superclass references -/

/-- A class that has a superclass is a class of the program. -/
theorem lt_size_of_superclass? {c parent : ClassId} (extended : p.superclass? c = some parent) :
    c.index < p.classes.size := by
  obtain ⟨decl, found, -⟩ := Option.bind_eq_some_iff.1 extended
  exact (Array.getElem?_eq_some_iff.1 found).1

/-- A bound on the rounds of a search along superclass references. -/
def climbBound (p : Program) : Nat := p.classes.size + 2

/-- A search that goes on only from a class to its superclass comes to an end. -/
theorem climb_ends {α : Type} {round : Chase .objectClass → Chase .objectClass ⊕ α}
    (climbs : ∀ {s s'}, round s = .inl s' →
      ∃ c, s.current = some c ∧ c ∉ s.seen ∧ s' = s.pass c (p.superclass? c))
    (c : ClassId) : ∃ result, loop round p.climbBound { current := some c } = .ok result := by
  refine loop_ends (·.left p.classes.size) (fun goesOn => ?_) ?_
  · obtain ⟨c, here, new, rfl⟩ := climbs goesOn
    refine Chase.left_pass_lt here new fun leads => ?_
    obtain ⟨parent, extended⟩ := Option.isSome_iff_exists.1 leads
    exact lt_size_of_superclass? extended
  · exact Nat.lt_succ_of_le (Chase.left_start_le (some c) p.classes.size)

/-! ### Inheritance -/

/-- One round of the test for a subclass: a class is compared before it counts as passed. -/
def subclassRound (p : Program) (ancestor : ClassId) (s : Chase .objectClass) :
    Chase .objectClass ⊕ Bool :=
  match s.current with
  | none => .inr false
  | some c =>
    if c = ancestor then .inr true
    else if c ∈ s.seen then .inr false
    else .inl (s.pass c (p.superclass? c))

/-- The test whether a class is the other one or inherits from it. -/
def subclassTest (p : Program) (rounds : Nat) (c ancestor : ClassId) : Except Fault Bool :=
  loop (p.subclassRound ancestor) rounds { current := some c }

theorem subclassRound_eq_inl {ancestor : ClassId} (goesOn : p.subclassRound ancestor s = .inl s') :
    ∃ c, s.current = some c ∧ c ≠ ancestor ∧ c ∉ s.seen ∧ s' = s.pass c (p.superclass? c) := by
  unfold subclassRound at goesOn
  split at goesOn
  · cases goesOn
  · next c here =>
    split at goesOn
    · cases goesOn
    · next other =>
      split at goesOn
      · cases goesOn
      · next new => exact ⟨c, here, other, new, (Sum.inl.inj goesOn).symm⟩

theorem subclassTest_ends (p : Program) (c ancestor : ClassId) :
    ∃ result, p.subclassTest p.climbBound c ancestor = .ok result := by
  refine climb_ends (fun goesOn => ?_) c
  obtain ⟨c, here, -, new, next⟩ := subclassRound_eq_inl goesOn
  exact ⟨c, here, new, next⟩

/-- Whether a class is the other one or inherits from it. -/
def isSubclassOf (p : Program) (c ancestor : ClassId) : Bool :=
  resultOf (p.subclassTest p.climbBound c ancestor) (p.subclassTest_ends c ancestor)

/-! ### Resolution -/

/-- The first instance method of a name that a class declares itself. -/
def declared? (p : Program) (c : ClassId) (name : String) : Option Method :=
  p.methods.find? fun m => m.declaringClass = c && !m.isStatic && m.name = name

/-- One round of a resolution: a class counts as passed before its methods are looked at. -/
def resolutionRound (p : Program) (name : String) (s : Chase .objectClass) :
    Chase .objectClass ⊕ Option MethodId :=
  match s.current with
  | none => .inr none
  | some c =>
    if c ∈ s.seen then .inr none
    else
      match p.declared? c name with
      | some m => .inr (some m.id)
      | none => .inl (s.pass c (p.superclass? c))

/-- The search for the method that a call of a name reaches on an instance of a class. -/
def resolution (p : Program) (rounds : Nat) (c : ClassId) (name : String) :
    Except Fault (Option MethodId) :=
  loop (p.resolutionRound name) rounds { current := some c }

theorem resolutionRound_eq_inl {name : String} (goesOn : p.resolutionRound name s = .inl s') :
    ∃ c, s.current = some c ∧ c ∉ s.seen ∧ p.declared? c name = none ∧
      s' = s.pass c (p.superclass? c) := by
  unfold resolutionRound at goesOn
  split at goesOn
  · cases goesOn
  · next c here =>
    split at goesOn
    · cases goesOn
    · next new =>
      split at goesOn
      · cases goesOn
      · next missing => exact ⟨c, here, new, missing, (Sum.inl.inj goesOn).symm⟩

theorem resolution_ends (p : Program) (c : ClassId) (name : String) :
    ∃ result, p.resolution p.climbBound c name = .ok result := by
  refine climb_ends (fun goesOn => ?_) c
  obtain ⟨c, here, new, -, next⟩ := resolutionRound_eq_inl goesOn
  exact ⟨c, here, new, next⟩

/-- The method that a call of a name reaches on an instance of a class. -/
def resolve (p : Program) (c : ClassId) (name : String) : Option MethodId :=
  resultOf (p.resolution p.climbBound c name) (p.resolution_ends c name)

/-! ### Call sites -/

/-- Whether a call site reaches a method when its receiver is an instance of a class. -/
def dispatchesTo (p : Program) (callSite : InstructionId) (receiver : ClassId)
    (method : MethodId) : Bool :=
  match (p.instruction? callSite).bind Instruction.invoked? |>.bind p.method? with
  | none => false
  | some target =>
    if target.isStatic then target.id = method
    else
      p.isSubclassOf receiver target.declaringClass &&
        p.resolve receiver target.name = some method

/-- Whether a method can stand in for the declared target of a call. -/
def overrides (p : Program) (callee : Method) (target : MethodId) : Bool :=
  !callee.isStatic &&
    (p.method? target).any fun declared =>
      !declared.isStatic && declared.name = callee.name &&
        p.isSubclassOf callee.declaringClass declared.declaringClass

/-- The call sites that can reach a method, in ascending order. -/
def callSitesOf (p : Program) (method : MethodId) : List InstructionId :=
  match p.method? method with
  | none => []
  | some callee =>
    (p.instructions.toList.filter fun i =>
      i.invoked?.any fun target => target = method || p.overrides callee target).map
        Instruction.id

end Inquest.Program
