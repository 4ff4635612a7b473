import Inquest.Proofs.Unexecuted.Invocation
import Inquest.Proofs.Unexecuted.Requests

/-!
# What the callers of a method decide

Where every invocation of a method is known to miss an expectation, the callers of the method
decide.  A call from one of them did execute, or none of them made a call, or there are none.  Which
call sites count as callers is up to two switches, each of which leaves some of them out.

Leaving out more can turn one kind of reason into another one, but only in one direction.  The last
call may go away with its call site, and then an earlier call is the last one, or none of the
callers made a call, or nobody is left who could.

## Main Definitions

* `Trace.AllMiss` - every invocation of a method is known to miss an expectation
* `Scope.reasonFromCallers` - the reason that some callers come to
* `Scope.ExplainedBy` - what some question says about an instruction under an expectation
* `Config.PrunesMore` - a configuration leaves out all the callers that another one leaves out

## Main Statements

* `Scope.reasonOf_of_allMiss` - where all invocations miss, the callers decide
* `Scope.exists_explainedBy` - every instruction of the program can be explained
* `Scope.exists_le_lastCall?` - with more callers, the last call is not an earlier one
* `Question.pruning_removes_callers` - what changes if more callers are left out
-/

namespace Inquest

/-- Every invocation of a method before an event is known to miss an expectation. -/
def Trace.AllMiss (t : Trace) (method : MethodId) (before : EventId) (x : Expectation) : Prop :=
  ∀ start ∈ t.invocationsOf method before, x.check t start = .no

instance (t : Trace) (method : MethodId) (before : EventId) (x : Expectation) :
    Decidable (t.AllMiss method before x) :=
  inferInstanceAs (Decidable (∀ start ∈ _, _))

namespace Scope

variable {s : Scope} {i : Instruction} {m : Method} {x search : Expectation} {event : EventId}
variable {instruction site : InstructionId} {receivers : List ObjectId} {method : MethodId}
variable {callers others : IdentSet .instruction}

/-! ### Call sites that count -/

/-- A call site counts if neither switch that is on leaves it out. -/
theorem isFeasible_iff : s.isFeasible method receivers site = true ↔
    (s.config.pruneByReceiver = true → s.missesReceivers site method receivers = false) ∧
      (s.config.pruneUninstantiated = true → s.lacksInstance site = false) := by
  unfold isFeasible
  cases s.config.pruneByReceiver <;> cases s.config.pruneUninstantiated <;> simp

theorem mem_callersOf_iff : site ∈ s.callersOf m search ↔
    site ∈ s.trace.program.callSitesOf m.id ∧
      s.isFeasible m.id (search.receivers m.isStatic) site = true := by
  rw [callersOf, IdentSet.mem_ofList, List.mem_filter]

/-! ### What callers come to -/

/-- The reason that some callers of a method come to. -/
def reasonFromCallers (s : Scope) (m : Method) (callers : IdentSet .instruction) : Reason :=
  match s.lastCall? callers with
  | some event => .didExecute event
  | none =>
    if callers.isEmpty = true ∧ m.isEntryPoint = false then .unreachable m.id
    else .methodDidNotExecute m.id callers

theorem lastCall?_found (called : s.lastCall? callers = some event) :
    ∃ last r, s.boundary.previous = some last ∧ s.trace.record? event = some r ∧
      r.kind = .invocation ∧ r.instruction ∈ callers ∧ event ≤ last := by
  obtain ⟨last, previous, found⟩ := Option.bind_eq_some_iff.1 called
  obtain ⟨r, recorded, meets, -, high⟩ := Trace.findLastBetween_found found
  rw [Bool.and_eq_true, decide_eq_true_eq, decide_eq_true_eq] at meets
  exact ⟨last, r, previous, recorded, meets.1, meets.2, high⟩

/-- With more callers, the last call is not an earlier one. -/
theorem exists_le_lastCall? (subset : ∀ site ∈ callers, site ∈ others)
    (called : s.lastCall? callers = some event) :
    ∃ later, s.lastCall? others = some later ∧ event ≤ later := by
  obtain ⟨last, r, previous, recorded, invokes, member, high⟩ := lastCall?_found called
  unfold lastCall?
  rw [previous]
  exact Trace.exists_le_findLastBetween (Nat.zero_le _) high recorded
    (by simp [invokes, subset r.instruction member])

theorem lastCall?_of_isEmpty (nobody : callers.isEmpty = true) : s.lastCall? callers = none := by
  rw [Option.eq_none_iff_forall_ne_some]
  intro event called
  obtain ⟨-, r, -, -, -, member, -⟩ := lastCall?_found called
  rw [IdentSet.mem_def, List.isEmpty_iff.1 nobody] at member
  cases member

theorem reasonFromCallers_didExecute :
    s.reasonFromCallers m callers = .didExecute event ↔ s.lastCall? callers = some event := by
  unfold reasonFromCallers
  cases s.lastCall? callers with
  | some last => simp
  | none =>
    dsimp only
    split <;> simp

theorem reasonFromCallers_unreachable : s.reasonFromCallers m callers = .unreachable method ↔
    callers.isEmpty = true ∧ m.isEntryPoint = false ∧ m.id = method := by
  unfold reasonFromCallers
  cases called : s.lastCall? callers with
  | some event =>
    have somebody : callers.isEmpty ≠ true := fun nobody => by
      rw [lastCall?_of_isEmpty nobody] at called
      cases called
    simp [somebody]
  | none =>
    dsimp only
    split <;> simp_all

theorem reasonFromCallers_methodDidNotExecute :
    s.reasonFromCallers m callers = .methodDidNotExecute method others ↔
      s.lastCall? callers = none ∧ ¬ (callers.isEmpty = true ∧ m.isEntryPoint = false) ∧
        m.id = method ∧ callers = others := by
  unfold reasonFromCallers
  cases s.lastCall? callers with
  | some event => simp
  | none =>
    dsimp only
    split <;> simp_all

section Fewer

variable (subset : ∀ site ∈ callers, site ∈ others)

include subset

/-- A method that could not be reached cannot be reached with fewer callers. -/
theorem unreachable_of_fewer (unreachable : s.reasonFromCallers m others = .unreachable method) :
    s.reasonFromCallers m callers = .unreachable method := by
  obtain ⟨nobody, inner, same⟩ := reasonFromCallers_unreachable.1 unreachable
  refine reasonFromCallers_unreachable.2 ⟨?_, inner, same⟩
  rw [IdentSet.isEmpty, List.isEmpty_iff, List.eq_nil_iff_forall_not_mem] at nobody ⊢
  exact fun site member => nobody site (subset site member)

/-- A call from one of fewer callers was not the last one, at most. -/
theorem didExecute_of_fewer (called : s.reasonFromCallers m callers = .didExecute event) :
    ∃ later, s.reasonFromCallers m others = .didExecute later ∧ event ≤ later := by
  obtain ⟨later, called', after⟩ :=
    exists_le_lastCall? subset (reasonFromCallers_didExecute.1 called)
  exact ⟨later, reasonFromCallers_didExecute.2 called', after⟩

/-- If no caller made a call, none of fewer callers did, or there are none any more. -/
theorem silent_of_fewer {named : IdentSet .instruction}
    (silent : s.reasonFromCallers m others = .methodDidNotExecute method named) :
    s.reasonFromCallers m callers = .unreachable method ∨
      ∃ fewer, s.reasonFromCallers m callers = .methodDidNotExecute method fewer ∧
        ∀ site ∈ fewer, site ∈ named := by
  obtain ⟨uncalled, -, same, rfl⟩ := reasonFromCallers_methodDidNotExecute.1 silent
  have uncalled' : s.lastCall? callers = none := by
    rw [Option.eq_none_iff_forall_ne_some]
    intro event called
    obtain ⟨later, called', -⟩ := exists_le_lastCall? subset called
    cases uncalled.symm.trans called'
  by_cases gone : callers.isEmpty = true ∧ m.isEntryPoint = false
  · exact .inl (reasonFromCallers_unreachable.2 ⟨gone.1, gone.2, same⟩)
  · exact .inr ⟨callers,
      reasonFromCallers_methodDidNotExecute.2 ⟨uncalled', gone, same, rfl⟩, subset⟩

end Fewer

/-- What is said about an instruction whose method has no invocation to search is what the callers
come to. -/
theorem settle_withoutInvocation : s.settle (s.withoutInvocation m i x search) =
    .ok (s.reasonFromCallers m (s.callersOf m search)) := by
  unfold withoutInvocation reasonFromCallers
  by_cases nobody : (s.callersOf m search).isEmpty = true
  · rw [lastCall?_of_isEmpty nobody]
    simp only [nobody]
    cases m.isEntryPoint <;> rfl
  · simp only [nobody]
    cases s.lastCall? (s.callersOf m search) <;> rfl

/-- An invocation that is known to miss the expectation is neither one to search nor one to
wonder about. -/
theorem invocationsMatching_of_allMiss (miss : s.trace.AllMiss method s.boundary search)
    (outcome : Match) (other : outcome ≠ .no) :
    s.invocationsMatching method search outcome = [] := by
  rw [invocationsMatching, List.filter_eq_nil_iff]
  intro start listed
  rw [miss start listed, decide_eq_true_eq]
  exact other.symm

/-- Where all invocations miss, the callers decide. -/
theorem reasonOf_of_allMiss (known : s.trace.program.instruction? instruction = some i)
    (owner : s.trace.program.method? i.method = some m)
    (miss : s.trace.AllMiss m.id s.boundary
      (x.forMethodSearch s.trace.program i.id m.isStatic)) :
    s.reasonOf instruction x = .ok (s.reasonFromCallers m
      (s.callersOf m (x.forMethodSearch s.trace.program i.id m.isStatic))) := by
  have unsearched := invocationsMatching_of_allMiss miss .yes (by simp)
  have decided := invocationsMatching_of_allMiss miss .unknown (by simp)
  rw [reasonOf, analyse_eq_analyseIn known owner, analyseIn]
  simp only [unsearched, decided, List.getLast?_nil, List.isEmpty_nil, if_true]
  exact settle_withoutInvocation

end Scope

/-! ### Explained instructions -/

/-- Some question about a scope explains an instruction under an expectation, and the node is this
one. -/
def Scope.ExplainedBy (s : Scope) (instruction : InstructionId) (x : Expectation)
    (n : Unexecuted) : Prop :=
  ∃ q id, Question.Reachable s q ∧ q.node id = .ok n ∧ n.status = .done ∧
    n.instruction = instruction ∧ n.expectation = x

/-- Every instruction of the program can be explained, under every expectation. -/
theorem Scope.exists_explainedBy {s : Scope} {instruction : InstructionId} {i : Instruction}
    (known : s.trace.program.instruction? instruction = some i) (x : Expectation) :
    ∃ n, s.ExplainedBy instruction x n := by
  have asked : Question.ask { scope := s } instruction x =
      .ok (Question.intern { scope := s } instruction x) := by
    simp only [Question.ask, known]
  have reachable : Question.Reachable s _ := .ask .fresh asked
  have stands := Question.key?_intern (Question.indexed_fresh s) instruction x
  obtain ⟨n, found, key⟩ := Question.key?_eq_some_iff.1 stands
  obtain ⟨q, explained, explored⟩ :=
    reachable.settled.explain_explored (Question.lt_size_of_node? found)
  obtain ⟨n', found', evolves⟩ := explored.evolves found
  have done := (explored.visited _ (List.mem_singleton_self _)).resolve_right
    ((reachable.settled.of_explored explored).resting _)
  rw [Question.status?_of_node? found', Option.some.injEq] at done
  have key' : n'.key = (instruction, x) := evolves.key.trans key
  exact ⟨n', q, _, .explain reachable explained, Question.node_eq_ok_iff.2 found', done,
    congrArg Prod.fst key', congrArg Prod.snd key'⟩

namespace Scope.ExplainedBy

variable {s : Scope} {instruction : InstructionId} {x : Expectation} {n : Unexecuted}
variable {i : Instruction} {m : Method} (explained : s.ExplainedBy instruction x n)

include explained

/-- What the node says is what the scope determines. -/
theorem spec : s.reasonOf instruction x = .ok n.reason ∧
    n.methodExecution = (s.analyse instruction x).methodExecution ∧
    n.others = (s.analyse instruction x).others := by
  obtain ⟨q, id, reachable, found, done, rfl, rfl⟩ := explained
  have fits := reachable.fits found
  exact ⟨fits.reason done, fits.methodExecution done, fits.others done⟩

/-- Which invocations the node has seen. -/
theorem seen (known : s.trace.program.instruction? instruction = some i)
    (owner : s.trace.program.method? i.method = some m) :
    n.methodExecution = (s.invocationsMatching m.id
        (x.forMethodSearch s.trace.program i.id m.isStatic) .yes).getLast? ∧
      n.others = s.invocationsMatching m.id
        (x.forMethodSearch s.trace.program i.id m.isStatic) .no := by
  obtain ⟨-, execution, others⟩ := explained.spec
  rw [execution, others, analyse_eq_analyseIn known owner]
  exact ⟨methodExecution_analyseIn, others_analyseIn⟩

/-- Where all invocations miss, the callers give the reason. -/
theorem reason_of_allMiss (known : s.trace.program.instruction? instruction = some i)
    (owner : s.trace.program.method? i.method = some m)
    (miss : s.trace.AllMiss m.id s.boundary
      (x.forMethodSearch s.trace.program i.id m.isStatic)) :
    n.reason = s.reasonFromCallers m
      (s.callersOf m (x.forMethodSearch s.trace.program i.id m.isStatic)) := by
  have reason := explained.spec.1
  rw [reasonOf_of_allMiss known owner miss, Except.ok.injEq] at reason
  exact reason.symm

end Scope.ExplainedBy

/-! ### Leaving out more callers -/

/-- A configuration leaves out callers for every reason for which another one does. -/
structure Config.PrunesMore (c c' : Config) : Prop where
  receivers : c'.pruneByReceiver = true → c.pruneByReceiver = true
  instances : c'.pruneUninstantiated = true → c.pruneUninstantiated = true

namespace Scope

variable {t : Trace} {c c' : Config} {boundary : EventId}

theorem callersOf_subset (more : c.PrunesMore c') {m : Method} {search : Expectation}
    {site : InstructionId} (member : site ∈ callersOf ⟨t, c, boundary⟩ m search) :
    site ∈ callersOf ⟨t, c', boundary⟩ m search := by
  obtain ⟨listed, feasible⟩ := mem_callersOf_iff.1 member
  obtain ⟨receivers, instances⟩ := isFeasible_iff.1 feasible
  refine mem_callersOf_iff.2 ⟨listed, isFeasible_iff.2 ⟨fun on => ?_, fun on => ?_⟩⟩
  · exact receivers (more.receivers on)
  · exact instances (more.instances on)

/-- What an analysis sees of the invocations has nothing to do with the callers. -/
theorem analyse_config (instruction : InstructionId) (x : Expectation) :
    (analyse ⟨t, c, boundary⟩ instruction x).methodExecution =
        (analyse ⟨t, c', boundary⟩ instruction x).methodExecution ∧
      (analyse ⟨t, c, boundary⟩ instruction x).others =
        (analyse ⟨t, c', boundary⟩ instruction x).others := by
  cases known : t.program.instruction? instruction with
  | none => simp [analyse, known]
  | some i =>
    cases owner : t.program.method? i.method with
    | none => simp [analyse, known, owner]
    | some m =>
      rw [analyse_eq_analyseIn known owner, analyse_eq_analyseIn known owner,
        methodExecution_analyseIn, methodExecution_analyseIn, others_analyseIn, others_analyseIn]
      exact ⟨rfl, rfl⟩

end Scope

namespace Question

/-- An instruction is explained whichever callers are left out.  If more are, the same invocation is
searched and the same other ones are seen.  Where all invocations miss, the callers are among those
that there are otherwise.  A method that could not be reached cannot be reached; the last call was
there before, if it was not followed by another one; and a method whose callers made no call has no
callers that did, or no callers. -/
theorem pruning_removes_callers (t : Trace) (boundary : EventId) (c c' : Config)
    (more : c.PrunesMore c') (instruction : InstructionId) (i : Instruction)
    (known : t.program.instruction? instruction = some i) (x : Expectation) :
    (∃ n, Scope.ExplainedBy ⟨t, c, boundary⟩ instruction x n) ∧
    (∃ n, Scope.ExplainedBy ⟨t, c', boundary⟩ instruction x n) ∧
    ∀ n n', Scope.ExplainedBy ⟨t, c, boundary⟩ instruction x n →
      Scope.ExplainedBy ⟨t, c', boundary⟩ instruction x n' →
      n.methodExecution = n'.methodExecution ∧ n.others = n'.others ∧
      ∀ m, t.program.method? i.method = some m →
        t.AllMiss m.id boundary (x.forMethodSearch t.program i.id m.isStatic) →
        (∀ site,
          site ∈ Scope.callersOf ⟨t, c, boundary⟩ m
            (x.forMethodSearch t.program i.id m.isStatic) →
          site ∈ Scope.callersOf ⟨t, c', boundary⟩ m
            (x.forMethodSearch t.program i.id m.isStatic)) ∧
        (∀ method, n'.reason = .unreachable method → n.reason = .unreachable method) ∧
        (∀ event, n.reason = .didExecute event →
          ∃ later, n'.reason = .didExecute later ∧ event ≤ later) ∧
        ∀ method callers, n'.reason = .methodDidNotExecute method callers →
          n.reason = .unreachable method ∨
            ∃ fewer, n.reason = .methodDidNotExecute method fewer ∧
              ∀ site ∈ fewer, site ∈ callers := by
  refine ⟨Scope.exists_explainedBy known x, Scope.exists_explainedBy known x,
    fun n n' explained explained' => ?_⟩
  obtain ⟨-, execution, others⟩ := explained.spec
  obtain ⟨-, execution', others'⟩ := explained'.spec
  obtain ⟨sameExecution, sameOthers⟩ := @Scope.analyse_config t c c' boundary instruction x
  refine ⟨execution.trans (sameExecution.trans execution'.symm),
    others.trans (sameOthers.trans others'.symm), fun m owner miss => ?_⟩
  have subset := fun site => @Scope.callersOf_subset t c c' boundary more m
    (x.forMethodSearch t.program i.id m.isStatic) site
  rw [explained.reason_of_allMiss known owner miss, explained'.reason_of_allMiss known owner miss]
  exact ⟨subset, fun method => Scope.unreachable_of_fewer subset,
    fun event => Scope.didExecute_of_fewer subset,
    fun method callers => Scope.silent_of_fewer subset⟩

/-- `draw` is called by `main` and by `haunt`, which is a method of a class without instances.  It
ran for the second object only, after the call by `main`. -/
def haunted : Trace where
  program :=
    { classes := #[
        { id := ⟨0⟩, name := "Shape", superclass := none },
        { id := ⟨1⟩, name := "Ghost", superclass := none }]
      methods := #[
        { id := ⟨0⟩, declaringClass := ⟨0⟩, name := "draw", isStatic := false,
          instructions := #[⟨0⟩] },
        { id := ⟨1⟩, declaringClass := ⟨0⟩, name := "main", isStatic := true, isEntryPoint := true,
          instructions := #[⟨1⟩] },
        { id := ⟨2⟩, declaringClass := ⟨1⟩, name := "haunt", isStatic := false,
          instructions := #[⟨2⟩] }]
      instructions := #[
        { id := ⟨0⟩, method := ⟨0⟩, position := 0, kind := .other },
        { id := ⟨1⟩, method := ⟨1⟩, position := 0, kind := .invoke ⟨0⟩ },
        { id := ⟨2⟩, method := ⟨2⟩, position := 0, kind := .invoke ⟨0⟩ }] }
  events := #[
    { kind := .invocation, instruction := ⟨1⟩ },
    { kind := .startMethod, instruction := ⟨0⟩, start := some ⟨1⟩, arguments := [some ⟨2⟩] },
    { kind := .invocation, instruction := ⟨2⟩ }]
  ends := ∅

/-- Why did `draw` not run for the first object? -/
def hauntedAsked (c : Config) : Question :=
  Question.add { scope := ⟨haunted, c, ⟨3⟩⟩ } ⟨0⟩ (.receiver ⟨1⟩)

/-- It was called, as far as the recording tells. -/
def hauntedNode (call : EventId) : Unexecuted where
  instruction := ⟨0⟩
  expectation := .receiver ⟨1⟩
  status := .done
  reason := .didExecute call
  others := [⟨1⟩]

/-- So the question is explained. -/
def hauntedExplained (c : Config) (call : EventId) : Question where
  scope := ⟨haunted, c, ⟨3⟩⟩
  nodes := #[hauntedNode call]
  index := (hauntedAsked c).index

theorem reachable_hauntedAsked (c : Config) : Reachable ⟨haunted, c, ⟨3⟩⟩ (hauntedAsked c) := by
  have asked : Question.ask { scope := ⟨haunted, c, ⟨3⟩⟩ } ⟨0⟩ (.receiver ⟨1⟩) =
      .ok (hauntedAsked c, ⟨0⟩) := by with_unfolding_all rfl
  exact .ask .fresh asked

theorem explainedBy_hauntedPruned :
    Scope.ExplainedBy ⟨haunted, {}, ⟨3⟩⟩ ⟨0⟩ (.receiver ⟨1⟩) (hauntedNode ⟨0⟩) := by
  have explained : (hauntedAsked {}).explain ⟨0⟩ = .ok (hauntedExplained {} ⟨0⟩) := by
    with_unfolding_all rfl
  exact ⟨_, ⟨0⟩, .explain (reachable_hauntedAsked {}) explained, rfl, rfl, rfl, rfl⟩

theorem explainedBy_hauntedLiteral :
    Scope.ExplainedBy ⟨haunted, .literal, ⟨3⟩⟩ ⟨0⟩ (.receiver ⟨1⟩) (hauntedNode ⟨2⟩) := by
  have explained : (hauntedAsked .literal).explain ⟨0⟩ = .ok (hauntedExplained .literal ⟨2⟩) := by
    with_unfolding_all rfl
  exact ⟨_, ⟨0⟩, .explain (reachable_hauntedAsked .literal) explained, rfl, rfl, rfl, rfl⟩

/-- If `haunt` is left out, the call by `main` is the last one; the call by `haunt` came later. -/
theorem pruning_removes_callers_haunted :
    Config.PrunesMore {} .literal ∧
      Scope.ExplainedBy ⟨haunted, {}, ⟨3⟩⟩ ⟨0⟩ (.receiver ⟨1⟩) (hauntedNode ⟨0⟩) ∧
      Scope.ExplainedBy ⟨haunted, .literal, ⟨3⟩⟩ ⟨0⟩ (.receiver ⟨1⟩) (hauntedNode ⟨2⟩) ∧
      haunted.AllMiss ⟨0⟩ ⟨3⟩ (.receiver ⟨1⟩) ∧
      (∀ site,
        site ∈ Scope.callersOf ⟨haunted, {}, ⟨3⟩⟩ haunted.program.methods[0] (.receiver ⟨1⟩) →
        site ∈ Scope.callersOf ⟨haunted, .literal, ⟨3⟩⟩ haunted.program.methods[0]
          (.receiver ⟨1⟩)) ∧
      ∃ later, (hauntedNode ⟨2⟩).reason = .didExecute later ∧ ⟨0⟩ ≤ later := by
  have more : Config.PrunesMore {} .literal := ⟨fun _ => rfl, fun _ => rfl⟩
  have miss : haunted.AllMiss ⟨0⟩ ⟨3⟩ (.receiver ⟨1⟩) := by decide +kernel
  obtain ⟨-, -, compared⟩ :=
    pruning_removes_callers haunted ⟨3⟩ {} .literal more ⟨0⟩ _ rfl (.receiver ⟨1⟩)
  obtain ⟨-, -, callers⟩ := compared _ _ explainedBy_hauntedPruned explainedBy_hauntedLiteral
  obtain ⟨subset, -, called, -⟩ := callers _ rfl miss
  exact ⟨more, explainedBy_hauntedPruned, explainedBy_hauntedLiteral, miss, subset,
    called ⟨0⟩ rfl⟩

end Question

end Inquest
