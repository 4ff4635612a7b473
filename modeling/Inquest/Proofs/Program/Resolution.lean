import Inquest.Proofs.Program.Dispatch

/-!
# Resolution along the chain of superclasses

Both queries about classes search along the superclass references, which may form a cycle or lead
out of the program.  A test for a subclass asks whether a class is met, and a resolution asks for
the nearest class that declares an instance method of a name; of its methods of the name the one
with the lowest number counts.

## Main Definitions

* `Program.Declares` - a class declares an instance method of a name itself

## Main Statements

* `Program.declaredId?_eq_some_iff` - of the methods of a class the lowest number counts
* `Program.resolve_eq_some_iff`, `Program.resolve_eq_none_iff` - what a name is resolved to
* `Draft.classQueries_exact` - the queries about classes of a drafted program
-/

namespace Inquest

namespace Program

variable {p : Program} {c : ClassId} {name : String} {id : MethodId}

/-! ### The methods of one class -/

/-- A class declares an instance method of a name itself. -/
def Declares (p : Program) (c : ClassId) (name : String) (id : MethodId) : Prop :=
  ∃ m, p.method? id = some m ∧ m.declaringClass = c ∧ m.isStatic = false ∧ m.name = name

/-- Of the instance methods of a name in a class the one with the lowest number counts. -/
theorem declaredId?_eq_some_iff (numbered : p.MethodsNumbered) :
    p.declaredId? name c = some id ↔
      p.Declares c name id ∧ ∀ other, p.Declares c name other → id ≤ other := by
  constructor
  · intro found
    obtain ⟨m, declared, rfl⟩ := Option.map_eq_some_iff.1 found
    refine ⟨⟨m, declared?_spec numbered declared⟩, ?_⟩
    rintro other ⟨m', known, rfl, bound, rfl⟩
    obtain ⟨-, index, inside, here, missed⟩ := Array.find?_eq_some_iff_getElem.1 declared
    rw [numbered ⟨index⟩ m (Array.getElem?_eq_some_iff.2 ⟨inside, here⟩)]
    by_contra lower
    have earlier : other.index < index := Nat.lt_of_not_le lower
    obtain ⟨inside', here'⟩ := Array.getElem?_eq_some_iff.1 known
    have passed := missed other.index earlier
    simp [here', bound] at passed
  · rintro ⟨⟨m, known, rfl, bound, rfl⟩, lowest⟩
    have first : p.IsDeclaredFirst m := by
      refine ⟨bound, fun other listed bound' sameClass sameName => ?_⟩
      obtain ⟨index, listed⟩ := Array.mem_iff_getElem?.1 listed
      have known' : p.method? ⟨index⟩ = some other := listed
      rw [numbered id m known, numbered ⟨index⟩ other known']
      exact lowest ⟨index⟩ ⟨other, known', sameClass, bound', sameName⟩
    rw [declaredId?, declared?_of_isDeclaredFirst numbered known first, Option.map_some,
      numbered id m known]

theorem declaredId?_eq_none_iff :
    p.declaredId? name c = none ↔ ∀ id, ¬ p.Declares c name id := by
  rw [declaredId?, Option.map_eq_none_iff]
  constructor
  · rintro missing id ⟨m, known, rfl, bound, rfl⟩
    have declared := isSome_declared? known bound
    rw [missing] at declared
    cases declared
  · intro missing
    refine Array.find?_eq_none.2 fun m listed meets => ?_
    obtain ⟨index, listed⟩ := Array.mem_iff_getElem?.1 listed
    simp only [Bool.and_eq_true, decide_eq_true_eq, Bool.not_eq_true'] at meets
    exact missing ⟨index⟩ ⟨m, listed, meets.1.1, meets.1.2, meets.2⟩

/-! ### Resolution -/

/-- A name is resolved to the method of the nearest class that declares one. -/
theorem resolve_eq_some_iff (numbered : p.MethodsNumbered) : p.resolve c name = some id ↔
    ∃ k a, p.ancestor? k c = some a ∧ p.Declares a name id ∧
      (∀ other, p.Declares a name other → id ≤ other) ∧
      ∀ j < k, ∀ b, p.ancestor? j c = some b → ∀ other, ¬ p.Declares b name other := by
  rw [(p.resolve_nearest c name).eq_iff]
  simp only [Nearest, ancestor?, declaredId?_eq_some_iff numbered, declaredId?_eq_none_iff,
    and_assoc]

/-- A name is resolved to nothing exactly if no class on the way declares a method of the name. -/
theorem resolve_eq_none_iff : p.resolve c name = none ↔
    ∀ a, p.Inherits c a → ∀ id, ¬ p.Declares a name id := by
  rw [(p.resolve_nearest c name).eq_iff]
  simp only [Nearest, inherits_iff, ancestor?, declaredId?_eq_none_iff, forall_exists_index]
  exact forall_comm

end Program

namespace Draft

/-- In a drafted program, whatever its superclass references are, both searches along them come to
an end, and more rounds change nothing.  A class is a subclass of exactly those that superclass
references lead to, no step included.  A name is resolved to the lowest number among the instance
methods of the name in the first class on the way that declares any, and to nothing exactly if no
class on the way does. -/
theorem classQueries_exact (steps : List Step) (d : Draft) (drafted : run steps = .ok d) :
    (∀ rounds, d.program.classes.size + 2 ≤ rounds →
      (∀ c a, d.program.subclassTest rounds c a = .ok (d.program.isSubclassOf c a)) ∧
      ∀ c name, d.program.resolution rounds c name = .ok (d.program.resolve c name)) ∧
    (∀ c a, d.program.isSubclassOf c a = true ↔ d.program.Inherits c a) ∧
    (∀ c, d.program.isSubclassOf c c = true) ∧
    (∀ c b a, d.program.isSubclassOf c b = true → d.program.isSubclassOf b a = true →
      d.program.isSubclassOf c a = true) ∧
    (∀ c name id, d.program.resolve c name = some id ↔
      ∃ k a, d.program.ancestor? k c = some a ∧ d.program.Declares a name id ∧
        (∀ other, d.program.Declares a name other → id ≤ other) ∧
        ∀ j < k, ∀ b, d.program.ancestor? j c = some b →
          ∀ other, ¬ d.program.Declares b name other) ∧
    ∀ c name, d.program.resolve c name = none ↔
      ∀ a, d.program.Inherits c a → ∀ id, ¬ d.program.Declares a name id := by
  have numbered := methodsNumbered_of_run drafted
  refine ⟨fun rounds enough => ⟨fun c a => Program.subclassTest_of_le enough,
      fun c name => Program.resolution_of_le enough⟩,
    fun c a => Program.isSubclassOf_iff, fun c => Program.isSubclassOf_iff.2 .refl,
    fun c b a below above => ?_, fun c name id => Program.resolve_eq_some_iff numbered,
    fun c name => Program.resolve_eq_none_iff⟩
  have below := Program.isSubclassOf_iff.1 below
  exact Program.isSubclassOf_iff.2 (below.trans (Program.isSubclassOf_iff.1 above))

/-- In a ring each class is a subclass of the other one, and no class is one of a third.  The first
`push` of a class hides the second one and that of its superclass, and `main` is not found because
it is static; the search for it goes round the ring and ends there. -/
theorem classQueries_exact_ring :
    run ringSteps = .ok ring ∧
      ring.program.Inherits ⟨0⟩ ⟨1⟩ ∧ ring.program.Inherits ⟨1⟩ ⟨0⟩ ∧
      ¬ ring.program.Inherits ⟨0⟩ ⟨7⟩ ∧
      ring.program.resolve ⟨0⟩ "push" = some ⟨0⟩ ∧ ring.program.resolve ⟨1⟩ "push" = some ⟨1⟩ ∧
      (∀ other, ring.program.Declares ⟨1⟩ "push" other → ⟨1⟩ ≤ other) ∧
      (∀ a, ring.program.Inherits ⟨1⟩ a → ∀ id, ¬ ring.program.Declares a "main" id) ∧
      ring.program.classes.size + 2 ≤ 1000 ∧
      ring.program.subclassTest 1000 ⟨0⟩ ⟨7⟩ = .ok false ∧
      ring.program.resolution 1000 ⟨1⟩ "main" = .ok none := by
  obtain ⟨ends, subclass, -, -, resolved, missed⟩ :=
    classQueries_exact ringSteps ring run_ringSteps
  have second : ring.program.resolve ⟨1⟩ "push" = some ⟨1⟩ := by decide
  have nothing : ring.program.resolve ⟨1⟩ "main" = none := by decide
  have foreign : ring.program.isSubclassOf ⟨0⟩ ⟨7⟩ = false := by decide
  have few : ring.program.classes.size + 2 ≤ 1000 := by decide
  obtain ⟨k, a, -, ⟨m, known, rfl, -⟩, lowest, -⟩ := (resolved ⟨1⟩ "push" ⟨1⟩).1 second
  cases known
  refine ⟨run_ringSteps, (subclass ⟨0⟩ ⟨1⟩).1 (by decide), (subclass ⟨1⟩ ⟨0⟩).1 (by decide),
    fun inherits => ?_, by decide, second, lowest, (missed ⟨1⟩ "main").1 nothing, few,
    foreign ▸ (ends 1000 few).1 ⟨0⟩ ⟨7⟩, nothing ▸ (ends 1000 few).2 ⟨1⟩ "main"⟩
  cases foreign.symm.trans ((subclass ⟨0⟩ ⟨7⟩).2 inherits)

end Draft

end Inquest
