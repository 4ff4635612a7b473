import Inquest.Proofs.Program.Inheritance
import Inquest.Proofs.Program.Numbering

/-!
# Dispatch and call sites

Whether a call reaches a method can be seen from two sides.  Dispatch starts at the class of the
receiver and goes up to the first class that declares a method of the name.  The call sites of a
method are found without a receiver: they are the calls that declare the method itself, or a method
of its name in a class that its own class inherits from.

The two agree because of the order in which dispatch goes up.  The class that the call declares lies
on the way and has a method of the name, so dispatch stops there or before; and the class at which
it stops inherits from all that would have come later.

## Main Definitions

* `Program.target?` - the method that a call site declares
* `Program.IsDeclaredFirst` - a method is the first one of its name in its class

## Main Statements

* `Program.resolve_spec` - a call reaches the nearest class that declares a method of its name
* `Program.mem_callSitesOf_of_dispatchesTo` - a call site that reaches a method is one of its own
* `Program.dispatchesTo_of_isDeclaredFirst` - a call site of a method reaches it from its own class
* `Draft.callSites_agree` - the two views of a drafted program
-/

namespace Inquest

namespace Program

variable {p : Program} {callSite : InstructionId} {b c : ClassId} {name : String}
variable {id t : MethodId} {m callee : Method}

/-- The method that a call site declares. -/
def target? (p : Program) (callSite : InstructionId) : Option MethodId :=
  (p.instruction? callSite).bind Instruction.invoked?

/-! ### Declared methods -/

theorem declared?_spec (numbered : p.MethodsNumbered) (found : p.declared? c name = some m) :
    p.method? m.id = some m ∧ m.declaringClass = c ∧ m.isStatic = false ∧ m.name = name := by
  have meets := Array.find?_some found
  simp only [Bool.and_eq_true, decide_eq_true_eq, Bool.not_eq_true'] at meets
  obtain ⟨⟨here, bound⟩, named⟩ := meets
  obtain ⟨index, listed⟩ := Array.mem_iff_getElem?.1 (Array.mem_of_find?_eq_some found)
  have known : p.method? ⟨index⟩ = some m := listed
  exact ⟨numbered ⟨index⟩ m known ▸ known, here, bound, named⟩

/-- A class that has an instance method of a name declares one. -/
theorem isSome_declared? (known : p.method? id = some m) (bound : m.isStatic = false) :
    (p.declared? m.declaringClass m.name).isSome := by
  refine Array.find?_isSome.2 ⟨m, Array.mem_of_getElem? known, ?_⟩
  simp [bound]

/-- A method is the first instance method of its name in its class. -/
def IsDeclaredFirst (p : Program) (m : Method) : Prop :=
  m.isStatic = false ∧ ∀ other ∈ p.methods, other.isStatic = false →
    other.declaringClass = m.declaringClass → other.name = m.name → m.id ≤ other.id

instance (p : Program) (m : Method) : Decidable (p.IsDeclaredFirst m) :=
  inferInstanceAs (Decidable (_ ∧ _))

theorem declared?_of_isDeclaredFirst (numbered : p.MethodsNumbered)
    (known : p.method? id = some m) (first : p.IsDeclaredFirst m) :
    p.declared? m.declaringClass m.name = some m := by
  obtain ⟨inside, here⟩ := Array.getElem?_eq_some_iff.1 known
  refine Array.find?_eq_some_iff_getElem.2 ⟨by simp [first.1], id.index, inside, here, ?_⟩
  intro index before
  rw [Bool.not_eq_true', Bool.eq_false_iff]
  intro declares
  simp only [Bool.and_eq_true, decide_eq_true_eq, Bool.not_eq_true'] at declares
  obtain ⟨⟨sameClass, bound⟩, sameName⟩ := declares
  have later := first.2 _ (Array.getElem_mem (before.trans inside)) bound sameClass sameName
  rw [numbered id m known, numbered ⟨index⟩ _ (Array.getElem?_eq_getElem (before.trans inside))]
    at later
  exact absurd before (Nat.not_lt.2 later)

/-! ### Resolution -/

/-- A call reaches the nearest class that declares a method of its name: the class of the method
inherits from every other such class on the way. -/
theorem resolve_spec (numbered : p.MethodsNumbered) (resolved : p.resolve c name = some id) :
    ∃ m, p.method? id = some m ∧ m.isStatic = false ∧ m.name = name ∧
      ∀ b, p.Inherits c b → (p.declared? b name).isSome → p.Inherits m.declaringClass b := by
  have nearest := p.resolve_nearest c name
  rw [resolved] at nearest
  obtain ⟨k, a, reached, found, missed⟩ := nearest
  obtain ⟨m, declared, rfl⟩ := Option.map_eq_some_iff.1 found
  obtain ⟨known, rfl, bound, named⟩ := declared?_spec numbered declared
  refine ⟨m, known, bound, named, fun b inherits declares => ?_⟩
  obtain ⟨j, reachedB⟩ := inherits_iff.1 inherits
  refine inherits_of_le reached reachedB (Nat.le_of_not_lt fun before => ?_)
  -- a class that comes before declares nothing of the name
  have missing := Option.map_eq_none_iff.1 (missed j before b reachedB)
  rw [missing] at declares
  cases declares

theorem resolve_of_declared? (declared : p.declared? c name = some m) :
    p.resolve c name = some m.id :=
  (p.resolve_nearest c name).eq (nearest_start (by rw [declaredId?, declared, Option.map_some]))

/-! ### Both views -/

theorem dispatchesTo_iff : p.dispatchesTo callSite c id = true ↔
    ∃ t target, p.target? callSite = some t ∧ p.method? t = some target ∧
      (target.isStatic = true ∧ target.id = id ∨
        target.isStatic = false ∧ p.Inherits c target.declaringClass ∧
          p.resolve c target.name = some id) := by
  rw [dispatchesTo, ← target?]
  cases declares : p.target? callSite with
  | none => simp
  | some t =>
    cases known : p.method? t with
    | none => simp [known]
    | some target => cases static : target.isStatic <;> simp [known, static, isSubclassOf_iff]

theorem overrides_iff : p.overrides callee t = true ↔
    callee.isStatic = false ∧ ∃ target, p.method? t = some target ∧ target.isStatic = false ∧
      target.name = callee.name ∧ p.Inherits callee.declaringClass target.declaringClass := by
  simp [overrides, Option.any_eq_true, isSubclassOf_iff, and_assoc]

theorem mem_callSitesOf_iff (numbered : p.Numbered) : callSite ∈ p.callSitesOf id ↔
    ∃ callee t, p.method? id = some callee ∧ p.target? callSite = some t ∧
      (t = id ∨ p.overrides callee t = true) := by
  unfold callSitesOf
  cases known : p.method? id with
  | none => simp
  | some callee =>
    simp only [List.mem_map, List.mem_filter, Option.any_eq_true, Bool.or_eq_true,
      decide_eq_true_eq, Option.some.injEq]
    constructor
    · rintro ⟨i, ⟨listed, t, declares, reaches⟩, rfl⟩
      obtain ⟨index, listed⟩ := List.mem_iff_getElem?.1 listed
      have found : p.instruction? ⟨index⟩ = some i := Array.getElem?_toList.symm.trans listed
      refine ⟨callee, t, rfl, ?_, reaches⟩
      rw [target?, numbered ⟨index⟩ i found, found, Option.bind_some, declares]
    · rintro ⟨callee, t, rfl, declares, reaches⟩
      obtain ⟨i, found, declares⟩ := Option.bind_eq_some_iff.1 declares
      have listed : i ∈ p.instructions.toList :=
        Array.mem_toList_iff.2 (Array.mem_of_getElem? found)
      exact ⟨i, ⟨listed, t, declares, reaches⟩, numbered callSite i found⟩

/-! ### How they agree -/

/-- A call site that reaches a method is one of the call sites of the method. -/
theorem mem_callSitesOf_of_dispatchesTo (numbered : p.Numbered)
    (methodsNumbered : p.MethodsNumbered) (reaches : p.dispatchesTo callSite c id = true) :
    callSite ∈ p.callSitesOf id := by
  obtain ⟨t, target, declares, known, dispatch⟩ := dispatchesTo_iff.1 reaches
  rcases dispatch with ⟨-, rfl⟩ | ⟨bound, inherits, resolved⟩
  · have same := methodsNumbered t target known
    exact (mem_callSitesOf_iff numbered).2 ⟨target, t, same ▸ known, declares, .inl same.symm⟩
  · obtain ⟨m, known', bound', named, nearest⟩ := resolve_spec methodsNumbered resolved
    have above := nearest target.declaringClass inherits (isSome_declared? known bound)
    refine (mem_callSitesOf_iff numbered).2 ⟨m, t, known', declares, .inr ?_⟩
    exact overrides_iff.2 ⟨bound', target, known, bound, named.symm, above⟩

/-- A call site of a static method reaches it, whatever the receiver. -/
theorem dispatchesTo_of_isStatic (numbered : p.Numbered) (methodsNumbered : p.MethodsNumbered)
    (called : callSite ∈ p.callSitesOf id) (known : p.method? id = some callee)
    (static : callee.isStatic = true) (c : ClassId) : p.dispatchesTo callSite c id = true := by
  obtain ⟨m, t, known', declares, rfl | overrides⟩ := (mem_callSitesOf_iff numbered).1 called
  · exact dispatchesTo_iff.2
      ⟨t, callee, declares, known, .inl ⟨static, methodsNumbered t callee known⟩⟩
  · cases known.symm.trans known'
    rw [(overrides_iff.1 overrides).1] at static
    cases static

/-- A call site of the first method of a name in its class reaches it on an instance of that
class. -/
theorem dispatchesTo_of_isDeclaredFirst (numbered : p.Numbered)
    (methodsNumbered : p.MethodsNumbered) (called : callSite ∈ p.callSitesOf id)
    (known : p.method? id = some callee) (first : p.IsDeclaredFirst callee) :
    p.dispatchesTo callSite callee.declaringClass id = true := by
  have resolved : p.resolve callee.declaringClass callee.name = some id := by
    rw [resolve_of_declared? (declared?_of_isDeclaredFirst methodsNumbered known first),
      methodsNumbered id callee known]
  obtain ⟨m, t, known', declares, rfl | overrides⟩ := (mem_callSitesOf_iff numbered).1 called
  · exact dispatchesTo_iff.2 ⟨t, callee, declares, known, .inr ⟨first.1, .refl, resolved⟩⟩
  · cases known.symm.trans known'
    obtain ⟨-, target, declared, bound, named, inherits⟩ := overrides_iff.1 overrides
    exact dispatchesTo_iff.2
      ⟨t, target, declares, declared, .inr ⟨bound, inherits, named ▸ resolved⟩⟩

end Program

namespace Draft

/-- In a drafted program, whatever its superclass references and the names of its methods are, every
call site that dispatches to a method on some class of receivers is among the call sites of the
method.  The other way round, a call site of a static method dispatches to it on every class, and a
call site of the first method of a name in a class dispatches to it on that class. -/
theorem callSites_agree (steps : List Step) (d : Draft) (drafted : run steps = .ok d)
    (callSite : InstructionId) (method : MethodId) :
    (∀ receiver, d.program.dispatchesTo callSite receiver method = true →
      callSite ∈ d.program.callSitesOf method) ∧
    (callSite ∈ d.program.callSitesOf method →
      ∃ callee, d.program.method? method = some callee ∧
        (callee.isStatic = true → ∀ c, d.program.dispatchesTo callSite c method = true) ∧
        (d.program.IsDeclaredFirst callee →
          d.program.dispatchesTo callSite callee.declaringClass method = true)) := by
  have numbered := numbered_of_run drafted
  have methodsNumbered := methodsNumbered_of_run drafted
  refine ⟨fun receiver => Program.mem_callSitesOf_of_dispatchesTo numbered methodsNumbered,
    fun called => ?_⟩
  obtain ⟨callee, -, known, -⟩ := (Program.mem_callSitesOf_iff numbered).1 called
  refine ⟨callee, known, fun static => ?_, fun first => ?_⟩
  · exact Program.dispatchesTo_of_isStatic numbered methodsNumbered called known static
  · exact Program.dispatchesTo_of_isDeclaredFirst numbered methodsNumbered called known first

/-- Two classes that extend each other.  Both have a method `push`, the second one has two of them,
and a static method calls the first one and itself. -/
def ringSteps : List Step := [
  .addClass "Queue" (some ⟨1⟩),
  .addClass "Stack" (some ⟨0⟩),
  .addMethod ⟨0⟩ "push" false,
  .addMethod ⟨1⟩ "push" false,
  .addMethod ⟨1⟩ "push" false,
  .addMethod ⟨0⟩ "main" true,
  .addCall ⟨3⟩ ⟨0⟩ [],
  .addCall ⟨3⟩ ⟨3⟩ []]

/-- The program that is drafted. -/
def ring : Draft where
  program :=
    { classes := #[
        { id := ⟨0⟩, name := "Queue", superclass := some ⟨1⟩ },
        { id := ⟨1⟩, name := "Stack", superclass := some ⟨0⟩ }]
      methods := #[
        { id := ⟨0⟩, declaringClass := ⟨0⟩, name := "push", isStatic := false },
        { id := ⟨1⟩, declaringClass := ⟨1⟩, name := "push", isStatic := false },
        { id := ⟨2⟩, declaringClass := ⟨1⟩, name := "push", isStatic := false },
        { id := ⟨3⟩, declaringClass := ⟨0⟩, name := "main", isStatic := true,
          instructions := #[⟨0⟩, ⟨1⟩] }]
      instructions := #[
        { id := ⟨0⟩, method := ⟨3⟩, position := 0, kind := .invoke ⟨0⟩ },
        { id := ⟨1⟩, method := ⟨3⟩, position := 1, kind := .invoke ⟨3⟩ }] }

theorem run_ringSteps : run ringSteps = .ok ring := by decide

/-- The call of `push` reaches the first `push` of the second class on its instances.  It is a call
site of the second one as well, which it does not reach there. -/
theorem callSites_agree_ring :
    run ringSteps = .ok ring ∧
      ring.program.dispatchesTo ⟨0⟩ ⟨1⟩ ⟨1⟩ = true ∧ ⟨0⟩ ∈ ring.program.callSitesOf ⟨1⟩ ∧
      ⟨0⟩ ∈ ring.program.callSitesOf ⟨2⟩ ∧ ring.program.dispatchesTo ⟨0⟩ ⟨1⟩ ⟨2⟩ = false ∧
      ⟨1⟩ ∈ ring.program.callSitesOf ⟨3⟩ ∧ ∀ c, ring.program.dispatchesTo ⟨1⟩ c ⟨3⟩ = true := by
  have agree := callSites_agree ringSteps ring run_ringSteps
  have shadowed : ⟨0⟩ ∈ ring.program.callSitesOf ⟨2⟩ := by decide
  have missed : ring.program.dispatchesTo ⟨0⟩ ⟨1⟩ ⟨2⟩ = false := by decide
  have recursive : ⟨1⟩ ∈ ring.program.callSitesOf ⟨3⟩ := by decide
  have called : ⟨0⟩ ∈ ring.program.callSitesOf ⟨1⟩ := (agree ⟨0⟩ ⟨1⟩).1 ⟨1⟩ (by decide)
  obtain ⟨callee, known, -, first⟩ := (agree ⟨0⟩ ⟨1⟩).2 called
  cases known
  obtain ⟨callee, known, static, -⟩ := (agree ⟨1⟩ ⟨3⟩).2 recursive
  cases known
  exact ⟨run_ringSteps, first (by decide), called, shadowed, missed, recursive, static rfl⟩

end Draft

end Inquest
