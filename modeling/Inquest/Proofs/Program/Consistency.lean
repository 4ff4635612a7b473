import Mathlib.Data.List.Induction
import Inquest.Proofs.Program.Numbering

/-!
# The tables of a program agree

A program says twice where its instructions belong.  Each instruction names its method and its
position there, and each method lists its instructions.  The two are written by different changes to
different tables, and changes of all kinds come between them.

They agree because both can be read off one of the tables.  The body of a method is what the table
of instructions says about it: the instructions that name the method, in the order of the table.  A
draft keeps the list of every method equal to its body.  The position of a new instruction is the
length of the list, so it is the next index of the body as well; and since instructions are only
added at the end, a body only grows at its end, and no index changes later.

## Main Definitions

* `Program.body` - the instructions that name a method as theirs
* `Program.loopPathIds` - the numbers of all loop paths
* `Program.Agrees` - methods list their bodies, and instructions know their place there
* `Draft.PathsNumbered` - the numbers of the loop paths are those below the next one
* `Draft.count` - the number of elements of a kind

## Main Statements

* `Program.pairwise_body`, `Program.mem_body_iff` - the order of a body, and what stands in it
* `Draft.agrees_apply`, `Draft.agrees_of_run` - a step keeps the tables in agreement
* `Draft.pathsNumbered_apply`, `Draft.pathsNumbered_of_run` - a step uses no number twice
* `Draft.count_apply`, `Draft.count_of_run` - a step numbers what it adds
* `Draft.tables_agree` - the tables of a drafted program
-/

namespace Inquest

namespace Program

variable {p : Program} {id : InstructionId} {method : MethodId}

/-- The instructions that name a method as theirs, in the order of the table. -/
def body (p : Program) (method : MethodId) : List InstructionId :=
  (p.instructions.toList.filter fun i => i.method = method).map Instruction.id

/-- The numbers of the loop paths that the instructions declare. -/
def loopPathIds (p : Program) : List LoopPathId :=
  p.instructions.toList.flatMap fun i => i.loopPaths.map LoopPath.id

/-- The table of instructions and the lists of the methods agree. -/
structure Agrees (p : Program) : Prop where
  /-- The method of an instruction is a method of the program. -/
  enclosed : ∀ {id i}, p.instruction? id = some i → i.method.index < p.methods.size
  /-- An instruction stands at its position of the body of its method. -/
  placed : ∀ {id i}, p.instruction? id = some i → (p.body i.method)[i.position]? = some id
  /-- A method lists its body. -/
  listed : ∀ {id m}, p.method? id = some m → m.instructions.toList = p.body id

/-! ### Reading the table of instructions -/

theorem mem_body_iff (numbered : p.Numbered) :
    id ∈ p.body method ↔ ∃ i, p.instruction? id = some i ∧ i.method = method := by
  simp only [body, List.mem_map, List.mem_filter, decide_eq_true_eq, Array.mem_toList_iff]
  constructor
  · rintro ⟨i, ⟨listed, names⟩, rfl⟩
    obtain ⟨index, found⟩ := Array.mem_iff_getElem?.1 listed
    have same := numbered ⟨index⟩ i found
    exact ⟨i, same ▸ found, names⟩
  · rintro ⟨i, found, names⟩
    exact ⟨i, ⟨Array.mem_of_getElem? found, names⟩, numbered id i found⟩

/-- A body is in ascending order, as the table is. -/
theorem pairwise_body (numbered : p.Numbered) (method : MethodId) :
    (p.body method).Pairwise (· < ·) := by
  have ascending : p.instructions.toList.Pairwise fun i j => i.id < j.id := by
    rw [List.pairwise_iff_getElem]
    intro index index' inside inside' before
    have here := numbered ⟨index⟩ _ (Array.getElem?_eq_getElem inside)
    have there := numbered ⟨index'⟩ _ (Array.getElem?_eq_getElem inside')
    rw [Array.getElem_toList, Array.getElem_toList, here, there]
    exact before
  exact List.pairwise_map.2 (ascending.filter _)

/-- A new instruction stands at the end of the body of its method. -/
theorem body_push (p : Program) (i : Instruction) (method : MethodId) :
    { p with instructions := p.instructions.push i }.body method =
      p.body method ++ if i.method = method then [i.id] else [] := by
  by_cases names : i.method = method <;> simp [body, names]

/-- What a change of an instruction leaves alone lies before it and after it in the table. -/
theorem exists_split_modify (f : Instruction → Instruction)
    (inside : id.index < p.instructions.size) :
    ∃ before i after, p.instructions.toList = before ++ i :: after ∧
      (p.instructions.modify id.index f).toList = before ++ f i :: after := by
  obtain ⟨before, i, after, split, -, modified⟩ :=
    List.exists_of_modify f (l := p.instructions.toList) inside
  exact ⟨before, i, after, split, Array.toList_modify.trans modified⟩

/-- A change that leaves instructions in their methods leaves the bodies alone. -/
theorem body_modify {f : Instruction → Instruction} (inside : id.index < p.instructions.size)
    (kept : ∀ i, (f i).id = i.id ∧ (f i).method = i.method) (method : MethodId) :
    { p with instructions := p.instructions.modify id.index f }.body method = p.body method := by
  obtain ⟨before, i, after, split, modified⟩ := exists_split_modify f inside
  simp only [body, split, modified, List.filter_append, List.filter_cons, kept, List.map_append]
  split_ifs <;> simp [kept]

/-- A change that declares loop paths at an instruction adds their numbers. -/
theorem loopPathIds_modify {f : Instruction → Instruction} {paths : List LoopPath}
    (inside : id.index < p.instructions.size)
    (declares : ∀ i, (f i).loopPaths = i.loopPaths ++ paths) :
    { p with instructions := p.instructions.modify id.index f }.loopPathIds.Perm
      (p.loopPathIds ++ paths.map LoopPath.id) := by
  obtain ⟨before, i, after, split, modified⟩ := exists_split_modify f inside
  simp only [loopPathIds, split, modified, List.flatMap_append, List.flatMap_cons, declares,
    List.map_append, List.append_assoc]
  -- they stand behind those of the instruction, in front of those of later ones
  exact .append_left _ (.append_left _ List.perm_append_comm)

end Program

namespace Draft

variable {d d' : Draft} {steps : List Step} {kind : IdentKind}

/-! ### Instructions and methods -/

theorem agrees_addMethod {declaringClass : ClassId} {name : String} {isStatic : Bool}
    (agrees : d.program.Agrees) :
    (d.addMethod declaringClass name isStatic).1.program.Agrees where
  enclosed := by
    intro id i found
    have inside := agrees.enclosed found
    simp only [addMethod, Array.size_push]
    omega
  placed := agrees.placed
  listed := by
    intro id m known
    simp only [addMethod, Program.method?, Array.getElem?_push] at known
    split at known
    · next last =>
      cases known
      -- an instruction of the new method would have been one of a method of the program
      refine (List.map_eq_nil_iff.2 (List.filter_eq_nil_iff.2 fun i listed names => ?_)).symm
      obtain ⟨index, stands⟩ := Array.mem_iff_getElem?.1 (Array.mem_toList_iff.1 listed)
      have found : d.program.instruction? ⟨index⟩ = some i := stands
      have inside := agrees.enclosed found
      rw [of_decide_eq_true names, last] at inside
      exact absurd inside (Nat.lt_irrefl _)
    · exact agrees.listed known

theorem agrees_markEntryPoint {id : MethodId} (agrees : d.program.Agrees)
    (modified : d.modifyMethod id (fun m => { m with isEntryPoint := true }) = .ok d') :
    d'.program.Agrees := by
  obtain ⟨-, rfl⟩ := eq_of_modifyMethod modified
  refine ⟨fun found => ?_, agrees.placed, fun {id' m} known => ?_⟩
  · rw [Array.size_modify]
    exact agrees.enclosed found
  · rw [Program.method?, Array.getElem?_modify] at known
    split at known
    · obtain ⟨m₀, known₀, rfl⟩ := Option.map_eq_some_iff.1 known
      have listed : m₀.instructions.toList = d.program.body id' := agrees.listed known₀
      exact listed
    · exact agrees.listed known

/-- Appending an instruction adds it to the list of its method and to its body, in both cases at
the end. -/
theorem agrees_addInstruction {method : MethodId} {kind : InstructionKind} {id : InstructionId}
    (agrees : d.program.Agrees) (appended : d.addInstruction method kind = .ok (d', id)) :
    d'.program.Agrees := by
  obtain ⟨m, known, rfl, rfl⟩ := eq_of_addInstruction appended
  have grown := d.program.body_push
    { id := ⟨d.program.instructions.size⟩, method, position := m.instructions.size, kind }
  refine ⟨fun {id i} found => ?_, fun {id i} found => ?_, fun {id' m'} known' => ?_⟩
  · rw [Array.size_modify]
    rw [Program.instruction?, Array.getElem?_push] at found
    split at found
    · cases found
      exact (Array.getElem?_eq_some_iff.1 known).1
    · exact agrees.enclosed found
  · refine (congrArg (·[i.position]?) (grown i.method)).trans ?_
    rw [Program.instruction?, Array.getElem?_push] at found
    split at found
    · next last =>
      cases found
      have next : m.instructions.size = (d.program.body method).length := by
        rw [← agrees.listed known, Array.length_toList]
      rw [next, if_pos rfl, List.getElem?_concat_length]
      exact congrArg some (Ident.ext last.symm)
    · have stands := agrees.placed found
      rw [List.getElem?_append_left (List.getElem?_eq_some_iff.1 stands).1]
      exact stands
  · refine Eq.trans ?_ (grown id').symm
    rw [Program.method?, Array.getElem?_modify] at known'
    split at known'
    · next same =>
      obtain rfl : method = id' := Ident.ext same
      obtain ⟨m₀, known₀, rfl⟩ := Option.map_eq_some_iff.1 known'
      rw [Array.toList_push, agrees.listed known₀, if_pos rfl]
    · next other =>
      rw [if_neg fun same => other (congrArg Ident.index same), List.append_nil]
      exact agrees.listed known'

/-- A change of an instruction that leaves it in its place keeps the agreement. -/
theorem agrees_modifyInstruction {id : InstructionId} {f : Instruction → Instruction}
    (agrees : d.program.Agrees) (modified : d.modifyInstruction id f = .ok d')
    (kept : ∀ i, (f i).id = i.id ∧ (f i).method = i.method ∧ (f i).position = i.position) :
    d'.program.Agrees := by
  obtain ⟨inside, rfl⟩ := eq_of_modifyInstruction modified
  have same := Program.body_modify inside fun i => ⟨(kept i).1, (kept i).2.1⟩
  have before : ∀ {id' i}, (d.program.instructions.modify id.index f)[id'.index]? = some i →
      ∃ i₀, d.program.instruction? id' = some i₀ ∧ i.method = i₀.method ∧
        i.position = i₀.position := by
    intro id' i found
    rw [Array.getElem?_modify] at found
    split at found
    · obtain ⟨i₀, found₀, rfl⟩ := Option.map_eq_some_iff.1 found
      exact ⟨i₀, found₀, (kept i₀).2⟩
    · exact ⟨i, found, rfl, rfl⟩
  refine ⟨fun found => ?_, fun {id' i} found => ?_, fun {id' m} known => ?_⟩
  · obtain ⟨i₀, found₀, method, -⟩ := before found
    rw [method]
    exact agrees.enclosed found₀
  · obtain ⟨i₀, found₀, method, position⟩ := before found
    rw [same, method, position]
    exact agrees.placed found₀
  · rw [same]
    exact agrees.listed known

/-- A step keeps the tables in agreement. -/
theorem agrees_apply {step : Step} {added : Added} (agrees : d.program.Agrees)
    (applied : d.apply step = .ok (d', added)) : d'.program.Agrees := by
  refine apply_induction (P := fun _ d => d.program.Agrees)
    (fun agrees => ⟨agrees.enclosed, agrees.placed, agrees.listed⟩) agrees_addMethod
    agrees_markEntryPoint agrees_addInstruction
    (fun agrees keeps modified => agrees_modifyInstruction agrees modified fun i => ?_)
    (fun {d d' branch branches id} agrees declared => ?_) agrees applied
  · rw [keeps i]
    exact ⟨rfl, rfl, rfl⟩
  · obtain ⟨d₁, modified, result⟩ := bind_eq_ok_iff.1 declared
    cases result
    have kept : d₁.program.Agrees :=
      agrees_modifyInstruction agrees modified fun _ => ⟨rfl, rfl, rfl⟩
    exact kept

theorem agrees_of_run (drafted : run steps = .ok d) : d.program.Agrees := by
  refine run_induction ⟨fun found => ?_, fun found => ?_, fun known => ?_⟩ agrees_apply drafted
  · simp [Program.instruction?] at found
  · simp [Program.instruction?] at found
  · simp [Program.method?] at known

/-! ### Loop paths -/

/-- The numbers below the next one are in use, each of them once. -/
def PathsNumbered (d : Draft) : Prop :=
  (d.program.loopPathIds.map Ident.index).Perm (List.range d.loopPathCount)

/-- A step keeps the numbers of the loop paths. -/
theorem pathsNumbered_apply {step : Step} {added : Added} (numbered : d.PathsNumbered)
    (applied : d.apply step = .ok (d', added)) : d'.PathsNumbered := by
  refine apply_induction (P := fun _ d => d.PathsNumbered) id id
    (fun {d d' method} numbered modified => ?_)
    (fun {d d' method kind id} numbered appended => ?_)
    (fun {a d d' id f} numbered keeps modified => ?_)
    (fun {d d' branch branches id} numbered declared => ?_) numbered applied
  · obtain ⟨-, rfl⟩ := eq_of_modifyMethod modified
    exact numbered
  · obtain ⟨m, -, -, rfl⟩ := eq_of_addInstruction appended
    rw [PathsNumbered] at numbered ⊢
    simpa [Program.loopPathIds] using numbered
  · obtain ⟨inside, rfl⟩ := eq_of_modifyInstruction modified
    have kept : ∀ i, (f i).loopPaths = i.loopPaths ++ [] := by
      intro i
      rw [keeps i, List.append_nil]
    have same := (Program.loopPathIds_modify inside kept).map Ident.index
    rw [List.map_nil, List.append_nil] at same
    exact same.trans numbered
  · obtain ⟨inside, rfl, rfl⟩ := eq_of_addLoopPath declared
    have declares : ∀ i : Instruction, Instruction.loopPaths
        { i with loopPaths := i.loopPaths ++ [⟨⟨d.loopPathCount⟩, branches⟩] } =
          i.loopPaths ++ [⟨⟨d.loopPathCount⟩, branches⟩] := fun _ => rfl
    have grown := (Program.loopPathIds_modify inside declares).map Ident.index
    rw [List.map_append] at grown
    rw [PathsNumbered, List.range_succ]
    exact grown.trans (numbered.append_right [d.loopPathCount])

theorem pathsNumbered_of_run (drafted : run steps = .ok d) : d.PathsNumbered :=
  run_induction (List.Perm.refl []) pathsNumbered_apply drafted

/-! ### Counting steps -/

/-- The number of elements of a kind that a draft has numbered. -/
def count (d : Draft) : IdentKind → Nat
  | .objectClass => d.program.classes.size
  | .method => d.program.methods.size
  | .instruction => d.program.instructions.size
  | .loopPath => d.loopPathCount
  | _ => 0

/-- A step numbers one element of the kind that it adds, and no other. -/
theorem count_apply {step : Step} {added : Added} (applied : d.apply step = .ok (d', added)) :
    d'.count kind = d.count kind + if step.adds? = some kind then 1 else 0 := by
  have start : d.count kind = d.count kind + if none = some kind then 1 else 0 := rfl
  refine apply_induction
    (P := fun a d' => d'.count kind = d.count kind + if a = some kind then 1 else 0)
    (fun {d₁ name superclass} same => ?_) (fun {d₁ declaringClass name isStatic} same => ?_)
    (fun {d₁ d₂ method} same modified => ?_) (fun {d₁ d₂ method does id} same appended => ?_)
    (fun {a d₁ d₂ id f} counted keeps modified => ?_)
    (fun {d₁ d₂ branch branches id} same declared => ?_) start applied
  · rw [← same.trans start.symm]
    cases kind <;> simp [count, addClass]
  · rw [← same.trans start.symm]
    cases kind <;> simp [count, addMethod]
  · obtain ⟨-, rfl⟩ := eq_of_modifyMethod modified
    rw [← same]
    cases kind <;> simp [count]
  · obtain ⟨m, -, -, rfl⟩ := eq_of_addInstruction appended
    rw [← same.trans start.symm]
    cases kind <;> simp [count]
  · obtain ⟨-, rfl⟩ := eq_of_modifyInstruction modified
    rw [← counted]
    cases kind <;> simp [count]
  · obtain ⟨-, -, rfl⟩ := eq_of_addLoopPath declared
    rw [← same.trans start.symm]
    cases kind <;> simp [count]

/-- A draft has numbered one element for each step that adds one. -/
theorem count_of_run (drafted : run steps = .ok d) (kind : IdentKind) :
    d.count kind = steps.countP fun step => step.adds? = some kind := by
  induction steps using List.reverseRecOn generalizing d with
  | nil =>
    cases drafted
    cases kind <;> rfl
  | append_singleton steps step ih =>
    rw [run, List.foldlM_append] at drafted
    obtain ⟨d₁, earlier, last⟩ := bind_eq_ok_iff.1 drafted
    rw [List.foldlM_cons] at last
    obtain ⟨d₂, mapped, result⟩ := bind_eq_ok_iff.1 last
    cases result
    obtain ⟨⟨next, added⟩, applied, rfl⟩ := map_eq_ok_iff.1 mapped
    rw [List.countP_append, ← ih earlier, count_apply applied]
    simp [List.countP_cons]

/-! ### Drafted programs -/

/-- However its steps are interleaved, the tables of a drafted program agree.  Every class, method
and instruction stands at the position of its number.  The method of an instruction exists and
lists the instruction at its position; the list of a method is in strictly ascending order, and all
that stands on it are instructions that name the method.  No two loop paths have the same number.
And nothing is left out: there are as many elements of each kind as there are steps that add one. -/
theorem tables_agree (steps : List Step) (d : Draft) (drafted : run steps = .ok d) :
    (∀ id c, d.program.class? id = some c → c.id = id) ∧
    (∀ id m, d.program.method? id = some m → m.id = id) ∧
    (∀ id i, d.program.instruction? id = some i → i.id = id) ∧
    (∀ id i, d.program.instruction? id = some i →
      ∃ m, d.program.method? i.method = some m ∧ m.instructions[i.position]? = some id) ∧
    (∀ id m, d.program.method? id = some m →
      m.instructions.toList.Pairwise (· < ·) ∧
        ∀ listed ∈ m.instructions, ∃ i, d.program.instruction? listed = some i ∧ i.method = id) ∧
    d.program.loopPathIds.Nodup ∧
    d.program.loopPathIds.length = d.count .loopPath ∧
    ∀ kind, d.count kind = steps.countP fun step => step.adds? = some kind := by
  have numbered := numbered_of_run drafted
  have agrees := agrees_of_run drafted
  have paths := pathsNumbered_of_run drafted
  refine ⟨classesNumbered_of_run drafted, methodsNumbered_of_run drafted, numbered,
    fun id i found => ?_, fun id m known => ⟨?_, fun listed member => ?_⟩, ?_, ?_,
    count_of_run drafted⟩
  · have known := Array.getElem?_eq_getElem (agrees.enclosed found)
    refine ⟨_, known, ?_⟩
    rw [← Array.getElem?_toList, agrees.listed known]
    exact agrees.placed found
  · rw [agrees.listed known]
    exact Program.pairwise_body numbered id
  · rw [← Array.mem_toList_iff, agrees.listed known] at member
    exact (Program.mem_body_iff numbered).1 member
  · exact List.Nodup.of_map Ident.index (paths.nodup_iff.2 List.nodup_range)
  · have length := paths.length_eq
    rwa [List.length_map, List.length_range] at length

/-- Two methods whose instructions are added in turns, and two branches whose loop paths are. -/
def loomSteps : List Step := [
  .addClass "Loom" none,
  .addMethod ⟨0⟩ "weave" false,
  .addMethod ⟨0⟩ "main" true,
  .markEntryPoint ⟨1⟩,
  .addInstruction ⟨1⟩ (.instantiate ⟨0⟩),
  .addInstruction ⟨0⟩ .branch,
  .addLoopPath ⟨1⟩ [⟨1⟩],
  .addCall ⟨1⟩ ⟨0⟩ [⟨0⟩],
  .addInstruction ⟨0⟩ .branch,
  .addGuard ⟨3⟩ ⟨1⟩,
  .addLoopPath ⟨3⟩ [⟨3⟩],
  .addLoopPath ⟨1⟩ [⟨1⟩, ⟨3⟩]]

/-- The program that is drafted. -/
def loom : Draft where
  program :=
    { classes := #[{ id := ⟨0⟩, name := "Loom", superclass := none }]
      methods := #[
        { id := ⟨0⟩, declaringClass := ⟨0⟩, name := "weave", isStatic := false,
          instructions := #[⟨1⟩, ⟨3⟩] },
        { id := ⟨1⟩, declaringClass := ⟨0⟩, name := "main", isStatic := true,
          isEntryPoint := true, instructions := #[⟨0⟩, ⟨2⟩] }]
      instructions := #[
        { id := ⟨0⟩, method := ⟨1⟩, position := 0, kind := .instantiate ⟨0⟩ },
        { id := ⟨1⟩, method := ⟨0⟩, position := 0, kind := .branch,
          loopPaths := [{ id := ⟨0⟩, branches := [⟨1⟩] }, { id := ⟨2⟩, branches := [⟨1⟩, ⟨3⟩] }] },
        { id := ⟨2⟩, method := ⟨1⟩, position := 1, kind := .invoke ⟨0⟩,
          operands := [some ⟨0⟩] },
        { id := ⟨3⟩, method := ⟨0⟩, position := 1, kind := .branch, guards := [⟨1⟩],
          loopPaths := [{ id := ⟨1⟩, branches := [⟨3⟩] }] }] }
  loopPathCount := 3

/-- The second branch stands at position 1 of its method although it is the fourth instruction, and
the loop paths are numbered in the order in which they were declared, not in the order of the
table. -/
theorem tables_agree_loom :
    run loomSteps = .ok loom ∧
      (∃ m, loom.program.method? ⟨0⟩ = some m ∧ m.instructions[1]? = some ⟨3⟩ ∧
        m.instructions.toList.Pairwise (· < ·)) ∧
      loom.program.loopPathIds = [⟨0⟩, ⟨2⟩, ⟨1⟩] ∧ loom.program.loopPathIds.Nodup ∧
      loom.count .loopPath = 3 := by
  have drafted : run loomSteps = .ok loom := by decide
  obtain ⟨-, -, -, placed, listed, distinct, -, counted⟩ := tables_agree loomSteps loom drafted
  obtain ⟨m, known, stands⟩ := placed ⟨3⟩ _ rfl
  exact ⟨drafted, ⟨m, known, stands, (listed ⟨0⟩ m known).1⟩, by decide, distinct,
    counted .loopPath⟩

end Draft

end Inquest
