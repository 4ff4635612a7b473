import Inquest.Proofs.Trace.Index
import Inquest.Proofs.Unexecuted.Callers

/-!
# Sets of receivers

Who expects one of several receivers expects the first one, or the second one, and so on.  Each
step of an analysis treats the set in a way of its own.  An invocation meets the expectation if its
receiver is a member, so it is known to miss it if it misses each member.  A call site is left out
only if the classes of all members are known and none of them dispatches to the method: as soon as
one member is of an unknown class, all call sites count, as they do for this member alone.

Together these come to a union over the members.

## Main Statements

* `Expectation.check_anyOf_yes`, `Expectation.check_anyOf_no` - which invocations meet a set
* `Scope.missesReceivers_iff` - when a call site is left out for its receivers
* `Scope.mem_callersOf_anyOf` - the callers under a set are the callers under its members
* `Question.anyOf_is_union` - an explanation under a set, from those under its members
-/

namespace Inquest

/-! ### The last of a union -/

section Latest

variable {kind : IdentKind} {l : List (Ident kind)} {a : Ident kind}
variable {index : IdentKind} {members : IdentSet index} {part : Ident index → List (Ident kind)}
variable {last : Ident index → Option (Ident kind)}

/-- The last element of a union is the latest of the last elements of its parts. -/
theorem Ident.getLast?_union (ascending : l.Pairwise (· < ·))
    (parts : ∀ o, (part o).Pairwise (· < ·)) (union : ∀ b, b ∈ l ↔ ∃ o ∈ members, b ∈ part o)
    (lasts : ∀ o ∈ members, last o = (part o).getLast?) :
    l.getLast? = some a ↔
      (∃ o ∈ members, last o = some a) ∧ ∀ o ∈ members, ∀ b, last o = some b → b ≤ a := by
  rw [Ident.getLast?_eq_some_iff ascending]
  constructor
  · rintro ⟨listed, above⟩
    obtain ⟨o, member, listed⟩ := (union a).1 listed
    refine ⟨⟨o, member, ?_⟩, fun o member b latest => ?_⟩
    · rw [lasts o member, Ident.getLast?_eq_some_iff (parts o)]
      exact ⟨listed, fun b other => above b ((union b).2 ⟨o, member, other⟩)⟩
    · rw [lasts o member] at latest
      exact above b ((union b).2 ⟨o, member, List.mem_of_getLast? latest⟩)
  · rintro ⟨⟨o, member, latest⟩, above⟩
    rw [lasts o member] at latest
    refine ⟨(union a).2 ⟨o, member, List.mem_of_getLast? latest⟩, fun b listed => ?_⟩
    obtain ⟨o, member, listed⟩ := (union b).1 listed
    obtain ⟨c, latest⟩ : ∃ c, (part o).getLast? = some c :=
      Option.isSome_iff_exists.1 (List.getLast?_isSome.2 (List.ne_nil_of_mem listed))
    exact Nat.le_trans (((Ident.getLast?_eq_some_iff (parts o)).1 latest).2 b listed)
      (above o member c ((lasts o member).trans latest))

theorem Ident.getLast?_union_none (union : ∀ b, b ∈ l ↔ ∃ o ∈ members, b ∈ part o)
    (lasts : ∀ o ∈ members, last o = (part o).getLast?) :
    l.getLast? = none ↔ ∀ o ∈ members, last o = none := by
  rw [List.getLast?_eq_none_iff, List.eq_nil_iff_forall_not_mem]
  constructor
  · intro nothing o member
    rw [lasts o member, List.getLast?_eq_none_iff, List.eq_nil_iff_forall_not_mem]
    exact fun b listed => nothing b ((union b).2 ⟨o, member, listed⟩)
  · intro nothing b listed
    obtain ⟨o, member, listed⟩ := (union b).1 listed
    have empty := nothing o member
    rw [lasts o member, List.getLast?_eq_none_iff] at empty
    exact List.ne_nil_of_mem listed empty

end Latest

/-! ### Invocations -/

namespace Expectation

variable {t : Trace} {start : EventId} {objects : IdentSet .object}

theorem check_anyOf :
    (anyOf objects).check t start = checkArgument t start 0 (· ∈ objects) := rfl

theorem check_receiver {o : ObjectId} :
    (receiver o).check t start = checkArgument t start 0 (· = o) := rfl

theorem check_anyOf_yes : (anyOf objects).check t start = .yes ↔
    ∃ o ∈ objects, (receiver o).check t start = .yes := by
  simp only [check_anyOf, check_receiver, checkArgument]
  cases t.argument start 0 <;> simp

theorem check_anyOf_no (somebody : ∃ o, o ∈ objects) : (anyOf objects).check t start = .no ↔
    ∀ o ∈ objects, (receiver o).check t start = .no := by
  simp only [check_anyOf, check_receiver, checkArgument]
  cases t.argument start 0 with
  | error _ =>
    -- where the receiver is not known, no member is missed, and there is one
    simpa using somebody
  | ok receiver =>
    have outside : receiver ∉ objects ↔ ∀ o ∈ objects, receiver ≠ o :=
      ⟨fun out o member same => out (same ▸ member),
        fun differs member => differs receiver member rfl⟩
    simpa using outside

theorem forMethodSearch_anyOf (p : Program) (instruction : InstructionId) :
    (anyOf objects).forMethodSearch p instruction false = .anyOf objects := rfl

theorem forMethodSearch_receiver (p : Program) (instruction : InstructionId) (o : ObjectId) :
    (receiver o).forMethodSearch p instruction false = .receiver o := rfl

end Expectation

theorem Trace.AllMiss.anyOf {t : Trace} {method : MethodId} {before : EventId}
    {objects : IdentSet .object} (somebody : ∃ o, o ∈ objects)
    (miss : ∀ o ∈ objects, t.AllMiss method before (.receiver o)) :
    t.AllMiss method before (.anyOf objects) := by
  intro start listed
  exact (Expectation.check_anyOf_no somebody).2 fun o member => miss o member start listed

namespace Scope

variable {s : Scope} {m : Method} {method : MethodId} {site : InstructionId}
variable {start : EventId} {x : Expectation} {outcome : Match} {receivers : List ObjectId}
variable {objects : IdentSet .object}

theorem mem_invocationsMatching_iff : start ∈ s.invocationsMatching method x outcome ↔
    start ∈ s.trace.invocationsOf method s.boundary ∧ x.check s.trace start = outcome := by
  rw [invocationsMatching, List.mem_filter, decide_eq_true_eq]

theorem pairwise_invocationsMatching (s : Scope) (method : MethodId) (x : Expectation)
    (outcome : Match) : (s.invocationsMatching method x outcome).Pairwise (· < ·) :=
  (s.trace.pairwise_invocationsOf method s.boundary).filter _

/-- The invocations to search under a set are those to search under its members. -/
theorem mem_invocationsMatching_anyOf_yes :
    start ∈ s.invocationsMatching method (.anyOf objects) .yes ↔
      ∃ o ∈ objects, start ∈ s.invocationsMatching method (.receiver o) .yes := by
  simp only [mem_invocationsMatching_iff, Expectation.check_anyOf_yes]
  constructor
  · rintro ⟨listed, o, member, meets⟩
    exact ⟨o, member, listed, meets⟩
  · rintro ⟨o, member, listed, meets⟩
    exact ⟨listed, o, member, meets⟩

/-- The invocations on other objects than those of a set are on other objects than each. -/
theorem mem_invocationsMatching_anyOf_no (somebody : ∃ o, o ∈ objects) :
    start ∈ s.invocationsMatching method (.anyOf objects) .no ↔
      ∀ o ∈ objects, start ∈ s.invocationsMatching method (.receiver o) .no := by
  simp only [mem_invocationsMatching_iff, Expectation.check_anyOf_no somebody]
  constructor
  · rintro ⟨listed, misses⟩ o member
    exact ⟨listed, misses o member⟩
  · intro each
    obtain ⟨o, member⟩ := somebody
    exact ⟨(each o member).1, fun o member => (each o member).2⟩

/-! ### Callers -/

/-- A call site is left out for its receivers if there are some and each of them is known to
dispatch to another method. -/
theorem missesReceivers_iff : s.missesReceivers site method receivers = true ↔
    receivers ≠ [] ∧ ∀ o ∈ receivers, ∃ c, s.trace.classOf? o = some c ∧
      s.trace.program.dispatchesTo site c method = false := by
  unfold missesReceivers
  simp only [Bool.and_eq_true, Bool.not_eq_true', List.isEmpty_eq_false_iff, decide_eq_true_eq,
    List.filterMap_length_eq_length, Option.isSome_iff_exists, List.any_eq_false,
    List.mem_filterMap, Bool.not_eq_true]
  constructor
  · rintro ⟨⟨some, known⟩, misses⟩
    refine ⟨some, fun o listed => ?_⟩
    obtain ⟨c, known⟩ := known o listed
    exact ⟨c, known, misses c ⟨o, listed, known⟩⟩
  · rintro ⟨some, each⟩
    refine ⟨⟨some, fun o listed => ?_⟩, ?_⟩
    · obtain ⟨c, known, -⟩ := each o listed
      exact ⟨c, known⟩
    · rintro c ⟨o, listed, known⟩
      obtain ⟨c', known', misses⟩ := each o listed
      rw [Option.some.inj (known.symm.trans known')]
      exact misses

/-- A call site counts for the receivers of a set if it counts for one of them. -/
theorem missesReceivers_toList (somebody : ∃ o, o ∈ objects) :
    s.missesReceivers site method objects.toList = false ↔
      ∃ o ∈ objects, s.missesReceivers site method [o] = false := by
  have some : objects.toList ≠ [] := by
    obtain ⟨o, member⟩ := somebody
    exact List.ne_nil_of_mem member
  rw [← Bool.not_eq_true, missesReceivers_iff]
  simp only [← Bool.not_eq_true, missesReceivers_iff, ne_eq, List.cons_ne_self,
    not_false_eq_true, true_and, List.mem_singleton, forall_eq, some, not_forall, exists_prop,
    IdentSet.mem_def]

/-- The callers under a set are the callers under its members. -/
theorem mem_callersOf_anyOf (bound : m.isStatic = false) (somebody : ∃ o, o ∈ objects) :
    site ∈ s.callersOf m (.anyOf objects) ↔
      ∃ o ∈ objects, site ∈ s.callersOf m (.receiver o) := by
  simp only [mem_callersOf_iff, isFeasible_iff, bound, Expectation.receivers, Expectation.receiver,
    Bool.false_eq_true, if_false, missesReceivers_toList somebody]
  constructor
  · rintro ⟨listed, counts, instances⟩
    by_cases on : s.config.pruneByReceiver = true
    · obtain ⟨o, member, counts⟩ := counts on
      exact ⟨o, member, listed, fun _ => counts, instances⟩
    · obtain ⟨o, member⟩ := somebody
      exact ⟨o, member, listed, fun on' => absurd on' on, instances⟩
  · rintro ⟨o, member, listed, counts, instances⟩
    exact ⟨listed, fun on => ⟨o, member, counts on⟩, instances⟩

end Scope

namespace Question

/-- An instruction of an instance method is explained under every expectation, and under a set of
receivers as under its members together.  The invocation that is searched is the latest of those
that are searched for the members, and the other ones are those that are other ones for each member.
Where all invocations miss all members, the callers decide, and the callers are those of the
members. -/
theorem anyOf_is_union (s : Scope) (instruction : InstructionId) (i : Instruction) (m : Method)
    (known : s.trace.program.instruction? instruction = some i)
    (owner : s.trace.program.method? i.method = some m) (bound : m.isStatic = false)
    (objects : IdentSet .object) (somebody : ∃ o, o ∈ objects) :
    (∀ x, ∃ n, s.ExplainedBy instruction x n) ∧
    ∀ (n : Unexecuted) (single : ObjectId → Unexecuted),
      s.ExplainedBy instruction (.anyOf objects) n →
      (∀ o ∈ objects, s.ExplainedBy instruction (.receiver o) (single o)) →
      (∀ start, n.methodExecution = some start ↔
        (∃ o ∈ objects, (single o).methodExecution = some start) ∧
          ∀ o ∈ objects, ∀ other, (single o).methodExecution = some other → other ≤ start) ∧
      (n.methodExecution = none ↔ ∀ o ∈ objects, (single o).methodExecution = none) ∧
      n.others.Pairwise (· < ·) ∧
      (∀ start, start ∈ n.others ↔ ∀ o ∈ objects, start ∈ (single o).others) ∧
      ((∀ o ∈ objects, s.trace.AllMiss m.id s.boundary (.receiver o)) →
        n.reason = s.reasonFromCallers m (s.callersOf m (.anyOf objects)) ∧
        (∀ o ∈ objects,
          (single o).reason = s.reasonFromCallers m (s.callersOf m (.receiver o))) ∧
        ∀ site, site ∈ s.callersOf m (.anyOf objects) ↔
          ∃ o ∈ objects, site ∈ s.callersOf m (.receiver o)) := by
  refine ⟨Scope.exists_explainedBy known, fun n single explained each => ?_⟩
  obtain ⟨execution, others⟩ := explained.seen known owner
  have executions := fun o member => ((each o member).seen known owner).1
  have missed := fun o member => ((each o member).seen known owner).2
  have reason := explained.reason_of_allMiss known owner
  have reasons := fun o member => (each o member).reason_of_allMiss known owner
  simp only [bound, Expectation.forMethodSearch_anyOf] at execution others reason
  simp only [bound, Expectation.forMethodSearch_receiver] at executions missed reasons
  have union : ∀ start, start ∈ s.invocationsMatching m.id (.anyOf objects) .yes ↔
      ∃ o ∈ objects, start ∈ s.invocationsMatching m.id (.receiver o) .yes :=
    fun _ => Scope.mem_invocationsMatching_anyOf_yes
  refine ⟨fun start => ?_, ?_, ?_, fun start => ?_, fun miss => ⟨?_, fun o member => ?_, ?_⟩⟩
  · rw [execution]
    exact Ident.getLast?_union (s.pairwise_invocationsMatching _ _ _)
      (fun o => s.pairwise_invocationsMatching _ _ _) union executions
  · rw [execution]
    exact Ident.getLast?_union_none union executions
  · rw [others]
    exact s.pairwise_invocationsMatching _ _ _
  · rw [others]
    refine (Scope.mem_invocationsMatching_anyOf_no somebody).trans ?_
    exact forall₂_congr fun o member => by rw [missed o member]
  · exact reason (.anyOf somebody miss)
  · exact reasons o member (miss o member)
  · exact fun site => Scope.mem_callersOf_anyOf bound somebody

/-- `main` makes a shape and calls `draw`, which circles override.  The override ran, for an object
that nobody expects. -/
def gallery : Scope where
  trace :=
    { program :=
        { classes := #[
            { id := ⟨0⟩, name := "Shape", superclass := none },
            { id := ⟨1⟩, name := "Circle", superclass := some ⟨0⟩ }]
          methods := #[
            { id := ⟨0⟩, declaringClass := ⟨0⟩, name := "draw", isStatic := false,
              instructions := #[⟨0⟩] },
            { id := ⟨1⟩, declaringClass := ⟨1⟩, name := "draw", isStatic := false,
              instructions := #[⟨1⟩] },
            { id := ⟨2⟩, declaringClass := ⟨0⟩, name := "main", isStatic := true,
              isEntryPoint := true, instructions := #[⟨2⟩, ⟨3⟩] }]
          instructions := #[
            { id := ⟨0⟩, method := ⟨0⟩, position := 0, kind := .other },
            { id := ⟨1⟩, method := ⟨1⟩, position := 0, kind := .other },
            { id := ⟨2⟩, method := ⟨2⟩, position := 0, kind := .instantiate ⟨0⟩ },
            { id := ⟨3⟩, method := ⟨2⟩, position := 1, kind := .invoke ⟨0⟩ }] }
      events := #[
        { kind := .instantiation, instruction := ⟨2⟩, object := some ⟨1⟩ },
        { kind := .invocation, instruction := ⟨3⟩ },
        { kind := .startMethod, instruction := ⟨1⟩, start := some ⟨2⟩, arguments := [some ⟨9⟩] }]
      ends := ∅ }
  config := {}
  boundary := ⟨3⟩

/-- The object that `main` made, and one that nothing is known about. -/
def galleryObjects : IdentSet .object := .ofList [⟨1⟩, ⟨3⟩]

/-- Why the override did not run for some object. -/
def galleryNode (x : Expectation) (reason : Reason) : Unexecuted where
  instruction := ⟨1⟩
  expectation := x
  status := .done
  reason := reason
  others := [⟨2⟩]

/-- The call by `main` does not reach the override on a shape. -/
def gallerySingle (o : ObjectId) : Unexecuted :=
  galleryNode (.receiver o) (if o = ⟨1⟩ then .unreachable ⟨1⟩ else .didExecute ⟨1⟩)

theorem explainedBy_gallery {x : Expectation} {reason : Reason}
    (asked : Question.ask { scope := gallery } ⟨1⟩ x =
      .ok (Question.add { scope := gallery } ⟨1⟩ x, ⟨0⟩))
    (explained : (Question.add { scope := gallery } ⟨1⟩ x).explain ⟨0⟩ =
      .ok { Question.add { scope := gallery } ⟨1⟩ x with nodes := #[galleryNode x reason] }) :
    gallery.ExplainedBy ⟨1⟩ x (galleryNode x reason) :=
  ⟨_, ⟨0⟩, .explain (.ask .fresh asked) explained, rfl, rfl, rfl, rfl⟩

theorem explainedBy_galleryObjects :
    gallery.ExplainedBy ⟨1⟩ (.anyOf galleryObjects)
      (galleryNode (.anyOf galleryObjects) (.didExecute ⟨1⟩)) :=
  explainedBy_gallery (by with_unfolding_all rfl) (by with_unfolding_all rfl)

theorem explainedBy_gallerySingle : ∀ o ∈ galleryObjects,
    gallery.ExplainedBy ⟨1⟩ (.receiver o) (gallerySingle o) := by
  intro o member
  have listed : o = ⟨1⟩ ∨ o = ⟨3⟩ := by simpa [galleryObjects] using member
  rcases listed with rfl | rfl
  · exact explainedBy_gallery (by with_unfolding_all rfl) (by with_unfolding_all rfl)
  · exact explainedBy_gallery (by with_unfolding_all rfl) (by with_unfolding_all rfl)

/-- The call site counts for the object of an unknown class, so it counts for both. -/
theorem anyOf_is_union_gallery :
    gallery.ExplainedBy ⟨1⟩ (.anyOf galleryObjects)
        (galleryNode (.anyOf galleryObjects) (.didExecute ⟨1⟩)) ∧
      (∀ o ∈ galleryObjects, gallery.ExplainedBy ⟨1⟩ (.receiver o) (gallerySingle o)) ∧
      (∀ o ∈ galleryObjects, gallery.trace.AllMiss ⟨1⟩ ⟨3⟩ (.receiver o)) ∧
      ∀ site,
        site ∈ gallery.callersOf gallery.trace.program.methods[1] (.anyOf galleryObjects) ↔
          ∃ o ∈ galleryObjects,
            site ∈ gallery.callersOf gallery.trace.program.methods[1] (.receiver o) := by
  have miss : ∀ o ∈ galleryObjects.toList,
      gallery.trace.AllMiss ⟨1⟩ ⟨3⟩ (.receiver o) := by decide +kernel
  obtain ⟨-, compared⟩ := anyOf_is_union gallery ⟨1⟩ _ _ rfl rfl rfl galleryObjects
    ⟨⟨1⟩, by decide⟩
  obtain ⟨-, -, -, -, callers⟩ :=
    compared _ gallerySingle explainedBy_galleryObjects explainedBy_gallerySingle
  exact ⟨explainedBy_galleryObjects, explainedBy_gallerySingle, miss, (callers miss).2.2⟩

end Question

end Inquest
