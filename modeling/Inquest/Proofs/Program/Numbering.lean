import Inquest.Program.Draft
import Inquest.Proofs.Walk

/-!
# Drafts number what they add

Classes, methods and instructions are known by their numbers, and they are looked up by position.
In a program that was drafted step by step the two are the same: what is new takes the next number
and the next position, and a step that changes an instruction or a method leaves its number alone.

## Main Definitions

* `Program.Numbered` - every instruction stands at the position of its number
* `Program.MethodsNumbered`, `Program.ClassesNumbered` - so does every method, and every class
* `Draft.Step.adds?` - what a step adds

## Main Statements

* `Draft.eq_of_modifyMethod`, `Draft.eq_of_modifyInstruction`, `Draft.eq_of_addInstruction`,
  `Draft.eq_of_addLoopPath` - the draft after a change that succeeds
* `Draft.run_induction` - what every step preserves holds of the whole draft
* `Draft.apply_induction` - what the changes preserve that steps are made of, a step preserves
* `Draft.numbered_of_run`, `Draft.methodsNumbered_of_run`, `Draft.classesNumbered_of_run` - a draft
  numbers what it adds
-/

namespace Inquest

/-- Every instruction stands at the position of its number. -/
def Program.Numbered (p : Program) : Prop :=
  ∀ (id : InstructionId) (i : Instruction), p.instruction? id = some i → i.id = id

/-- Every method stands at the position of its number. -/
def Program.MethodsNumbered (p : Program) : Prop :=
  ∀ (id : MethodId) (m : Method), p.method? id = some m → m.id = id

/-- Every class stands at the position of its number. -/
def Program.ClassesNumbered (p : Program) : Prop :=
  ∀ (id : ClassId) (c : ClassDecl), p.class? id = some c → c.id = id

namespace Draft

variable {d d' : Draft} {steps : List Step}

/-- What holds of the empty draft and is preserved by every step holds of the whole draft. -/
theorem run_induction {P : Draft → Prop} (start : P {})
    (preserved : ∀ {d d' step added}, P d → d.apply step = .ok (d', added) → P d')
    (drafted : run steps = .ok d) : P d := by
  refine foldlM_induction start (fun _ holds applied => ?_) drafted
  obtain ⟨next, result, rfl⟩ := map_eq_ok_iff.1 applied
  exact preserved holds result

/-! ### Changes that succeed -/

section Inversion

variable {id : MethodId} {i : InstructionId} {kind : InstructionKind}

/-- The draft after a change of a method. -/
theorem eq_of_modifyMethod {f : Method → Method} (modified : d.modifyMethod id f = .ok d') :
    id.index < d.program.methods.size ∧
      d' = { d with program.methods := d.program.methods.modify id.index f } := by
  unfold modifyMethod at modified
  split at modified
  · next inside =>
    cases modified
    exact ⟨inside, rfl⟩
  · cases modified

/-- The draft after a change of an instruction. -/
theorem eq_of_modifyInstruction {f : Instruction → Instruction}
    (modified : d.modifyInstruction i f = .ok d') :
    i.index < d.program.instructions.size ∧
      d' = { d with program.instructions := d.program.instructions.modify i.index f } := by
  unfold modifyInstruction at modified
  split at modified
  · next inside =>
    cases modified
    exact ⟨inside, rfl⟩
  · cases modified

/-- The draft after an instruction was appended: its number is the next one of the program, and its
position is the next one of its method. -/
theorem eq_of_addInstruction (appended : d.addInstruction id kind = .ok (d', i)) :
    ∃ m, d.program.method? id = some m ∧ i = ⟨d.program.instructions.size⟩ ∧
      d' = { d with program :=
        { d.program with
          methods := d.program.methods.modify id.index fun m =>
            { m with instructions := m.instructions.push i }
          instructions := d.program.instructions.push
            { id := i, method := id, position := m.instructions.size, kind } } } := by
  obtain ⟨d₁, modified, result⟩ := bind_eq_ok_iff.1 appended
  obtain ⟨inside, rfl⟩ := eq_of_modifyMethod modified
  cases result
  have known : d.program.method? id = some d.program.methods[id.index] :=
    Array.getElem?_eq_getElem inside
  exact ⟨_, known, rfl, by rw [known, Option.map_some, Option.getD_some]⟩

/-- The draft after a loop path was declared: its number is the next one. -/
theorem eq_of_addLoopPath {branches : List InstructionId} {path : LoopPathId}
    (declared : d.addLoopPath i branches = .ok (d', path)) :
    i.index < d.program.instructions.size ∧ path = ⟨d.loopPathCount⟩ ∧
      d' = { d with
        program.instructions := d.program.instructions.modify i.index fun i =>
          { i with loopPaths := i.loopPaths ++ [{ id := path, branches }] }
        loopPathCount := d.loopPathCount + 1 } := by
  obtain ⟨d₁, modified, result⟩ := bind_eq_ok_iff.1 declared
  obtain ⟨inside, rfl⟩ := eq_of_modifyInstruction modified
  cases result
  exact ⟨inside, rfl, rfl⟩

end Inversion

/-! ### The table of instructions -/

/-- Changing an instruction keeps the numbers, if it keeps that of the instruction. -/
theorem numbered_modifyInstruction {id : InstructionId} {f : Instruction → Instruction}
    (numbered : d.program.Numbered) (modified : d.modifyInstruction id f = .ok d')
    (kept : ∀ i, (f i).id = i.id) : d'.program.Numbered := by
  obtain ⟨-, rfl⟩ := eq_of_modifyInstruction modified
  intro id' i found
  rw [Program.instruction?, Array.getElem?_modify] at found
  split at found
  · obtain ⟨i₀, known, rfl⟩ := Option.map_eq_some_iff.1 found
    exact (kept i₀).trans (numbered id' i₀ known)
  · exact numbered id' i found

/-- A new instruction takes the number of its position. -/
theorem numbered_addInstruction {method : MethodId} {kind : InstructionKind} {id : InstructionId}
    (numbered : d.program.Numbered) (added : d.addInstruction method kind = .ok (d', id)) :
    d'.program.Numbered := by
  obtain ⟨m, -, rfl, rfl⟩ := eq_of_addInstruction added
  intro id' i found
  simp only [Program.instruction?, Array.getElem?_push] at found
  split at found
  · next last =>
    cases found
    exact Ident.ext last.symm
  · exact numbered id' i found

/-! ### The table of methods -/

/-- Changing a method keeps the numbers, if it keeps that of the method. -/
theorem methodsNumbered_modifyMethod {id : MethodId} {f : Method → Method}
    (numbered : d.program.MethodsNumbered) (modified : d.modifyMethod id f = .ok d')
    (kept : ∀ m, (f m).id = m.id) : d'.program.MethodsNumbered := by
  obtain ⟨-, rfl⟩ := eq_of_modifyMethod modified
  intro id' m found
  rw [Program.method?, Array.getElem?_modify] at found
  split at found
  · obtain ⟨m₀, known, rfl⟩ := Option.map_eq_some_iff.1 found
    exact (kept m₀).trans (numbered id' m₀ known)
  · exact numbered id' m found

/-! ### Steps -/

/-- A change of an instruction that leaves alone what it does, and where. -/
def KeepsPlace (f : Instruction → Instruction) : Prop :=
  ∀ i, f i = { i with operands := (f i).operands, guards := (f i).guards,
                      handlers := (f i).handlers }

/-- The kind of element that a step adds, if it adds one. -/
def Step.adds? : Step → Option IdentKind
  | .addClass _ _ => some .objectClass
  | .addMethod _ _ _ => some .method
  | .addInstruction _ _ => some .instruction
  | .addCall _ _ _ => some .instruction
  | .addLoopPath _ _ => some .loopPath
  | .markEntryPoint _ => none
  | .setOperands _ _ => none
  | .addGuard _ _ => none
  | .addHandler _ _ => none

section Changes

-- what holds of a draft may depend on what the step has added up to there
variable {P : Option IdentKind → Draft → Prop}
variable (addClass : ∀ {d : Draft} {name superclass}, P none d →
  P (some .objectClass) (d.addClass name superclass).1)
variable (addMethod : ∀ {d : Draft} {declaringClass name isStatic}, P none d →
  P (some .method) (d.addMethod declaringClass name isStatic).1)
variable (markEntryPoint : ∀ {d d' : Draft} {method}, P none d →
  d.modifyMethod method (fun m => { m with isEntryPoint := true }) = .ok d' → P none d')
variable (addInstruction : ∀ {d d' : Draft} {method kind id}, P none d →
  d.addInstruction method kind = .ok (d', id) → P (some .instruction) d')
variable (modifyInstruction : ∀ {a} {d d' : Draft} {id f}, P a d → KeepsPlace f →
  d.modifyInstruction id f = .ok d' → P a d')
variable (addLoopPath : ∀ {d d' : Draft} {branch branches id}, P none d →
  d.addLoopPath branch branches = .ok (d', id) → P (some .loopPath) d')

include addClass addMethod markEntryPoint addInstruction modifyInstruction addLoopPath

/-- What the changes preserve that steps are made of, a step preserves. -/
theorem apply_induction {step : Step} {added : Added} (holds : P none d)
    (applied : d.apply step = .ok (d', added)) : P step.adds? d' := by
  cases step with
  | addClass name superclass =>
    cases applied
    exact addClass holds
  | addMethod declaringClass name isStatic =>
    cases applied
    exact addMethod holds
  | markEntryPoint method =>
    obtain ⟨d₁, modified, result⟩ := bind_eq_ok_iff.1 applied
    cases result
    exact markEntryPoint holds modified
  | addInstruction method kind =>
    obtain ⟨⟨d₁, id⟩, appended, result⟩ := bind_eq_ok_iff.1 applied
    cases result
    exact addInstruction holds appended
  | addCall method target producers =>
    obtain ⟨⟨d₁, id⟩, appended, rest⟩ := bind_eq_ok_iff.1 applied
    obtain ⟨d₂, modified, result⟩ := bind_eq_ok_iff.1 rest
    cases result
    exact modifyInstruction (addInstruction holds appended) (fun _ => rfl) modified
  | setOperands instruction producers =>
    obtain ⟨d₁, modified, result⟩ := bind_eq_ok_iff.1 applied
    cases result
    exact modifyInstruction holds (fun _ => rfl) modified
  | addGuard instruction branch =>
    obtain ⟨d₁, modified, result⟩ := bind_eq_ok_iff.1 applied
    cases result
    exact modifyInstruction holds (fun _ => rfl) modified
  | addHandler instruction handler =>
    obtain ⟨d₁, modified, result⟩ := bind_eq_ok_iff.1 applied
    cases result
    exact modifyInstruction holds (fun _ => rfl) modified
  | addLoopPath branch branches =>
    obtain ⟨⟨d₁, id⟩, declared, result⟩ := bind_eq_ok_iff.1 applied
    cases result
    exact addLoopPath holds declared

end Changes

/-- A step keeps the numbers of the instructions. -/
theorem numbered_apply {step : Step} {added : Added} (numbered : d.program.Numbered)
    (applied : d.apply step = .ok (d', added)) : d'.program.Numbered := by
  refine apply_induction (P := fun _ d => d.program.Numbered) id id
    (fun {d d' method} numbered modified => ?_) numbered_addInstruction
    (fun numbered keeps modified => numbered_modifyInstruction numbered modified fun i => ?_)
    (fun {d d' branch branches id} numbered declared => ?_) numbered applied
  · obtain ⟨-, rfl⟩ := eq_of_modifyMethod modified
    exact numbered
  · rw [keeps i]
  · obtain ⟨d₁, modified, result⟩ := bind_eq_ok_iff.1 declared
    cases result
    have renumbered : d₁.program.Numbered :=
      numbered_modifyInstruction numbered modified fun _ => rfl
    exact renumbered

/-- A step keeps the numbers of the methods. -/
theorem methodsNumbered_apply {step : Step} {added : Added}
    (numbered : d.program.MethodsNumbered) (applied : d.apply step = .ok (d', added)) :
    d'.program.MethodsNumbered := by
  refine apply_induction (P := fun _ d => d.program.MethodsNumbered) id
    (fun {d declaringClass name isStatic} numbered id m found => ?_)
    (fun numbered modified => methodsNumbered_modifyMethod numbered modified fun _ => rfl)
    (fun {d d' method kind id} numbered appended => ?_)
    (fun {a d d' id f} numbered keeps modified => ?_)
    (fun {d d' branch branches id} numbered declared => ?_) numbered applied
  · simp only [Draft.addMethod, Program.method?, Array.getElem?_push] at found
    split at found
    · next last =>
      cases found
      exact Ident.ext last.symm
    · exact numbered id m found
  · obtain ⟨d₁, modified, result⟩ := bind_eq_ok_iff.1 appended
    cases result
    have renumbered : d₁.program.MethodsNumbered :=
      methodsNumbered_modifyMethod numbered modified fun _ => rfl
    exact renumbered
  · obtain ⟨-, rfl⟩ := eq_of_modifyInstruction modified
    exact numbered
  · obtain ⟨-, -, rfl⟩ := eq_of_addLoopPath declared
    exact numbered

/-- A step keeps the numbers of the classes. -/
theorem classesNumbered_apply {step : Step} {added : Added}
    (numbered : d.program.ClassesNumbered) (applied : d.apply step = .ok (d', added)) :
    d'.program.ClassesNumbered := by
  refine apply_induction (P := fun _ d => d.program.ClassesNumbered)
    (fun {d name superclass} numbered id c found => ?_) id
    (fun {d d' method} numbered modified => ?_)
    (fun {d d' method kind id} numbered appended => ?_)
    (fun {a d d' id f} numbered keeps modified => ?_)
    (fun {d d' branch branches id} numbered declared => ?_) numbered applied
  · simp only [Draft.addClass, Program.class?, Array.getElem?_push] at found
    split at found
    · next last =>
      cases found
      exact Ident.ext last.symm
    · exact numbered id c found
  · obtain ⟨-, rfl⟩ := eq_of_modifyMethod modified
    exact numbered
  · obtain ⟨m, -, -, rfl⟩ := eq_of_addInstruction appended
    exact numbered
  · obtain ⟨-, rfl⟩ := eq_of_modifyInstruction modified
    exact numbered
  · obtain ⟨-, -, rfl⟩ := eq_of_addLoopPath declared
    exact numbered

/-- A draft numbers its instructions. -/
theorem numbered_of_run (drafted : run steps = .ok d) : d.program.Numbered := by
  refine run_induction ?_ numbered_apply drafted
  intro id i found
  simp [Program.instruction?] at found

/-- A draft numbers its methods. -/
theorem methodsNumbered_of_run (drafted : run steps = .ok d) : d.program.MethodsNumbered := by
  refine run_induction ?_ methodsNumbered_apply drafted
  intro id m found
  simp [Program.method?] at found

/-- A draft numbers its classes. -/
theorem classesNumbered_of_run (drafted : run steps = .ok d) : d.program.ClassesNumbered := by
  refine run_induction ?_ classesNumbered_apply drafted
  intro id c found
  simp [Program.class?] at found

end Draft

end Inquest
