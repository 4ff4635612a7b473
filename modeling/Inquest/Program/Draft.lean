import Inquest.Fault
import Inquest.Program.Basic

/-!
# Drafting a program

A program is drafted step by step.  Each step adds an element or changes one, elements are
numbered in the order in which they are added, and the instructions of a method take their
positions in that order too.

## Main Definitions

* `Draft` - a program under construction
* `Draft.Step` - one step
* `Draft.apply` - the effect of a step, and the element it added
* `Draft.run` - a sequence of steps from the empty draft

## Design Notes

A step that changes an element faults when the draft does not have that element.  Other
references are not checked, so a draft may mention elements that are added later or never.
-/

namespace Inquest

/-- A program under construction. -/
structure Draft where
  program : Program := {}
  /-- The number of loop paths declared so far. -/
  loopPathCount : Nat := 0
deriving DecidableEq

namespace Draft

/-! ### Elements -/

/-- Adds a class. -/
def addClass (d : Draft) (name : String) (superclass : Option ClassId) : Draft × ClassId :=
  let id : ClassId := ⟨d.program.classes.size⟩
  ({ d with program.classes := d.program.classes.push { id, name, superclass } }, id)

/-- Adds a method. -/
def addMethod (d : Draft) (declaringClass : ClassId) (name : String) (isStatic : Bool) :
    Draft × MethodId :=
  let id : MethodId := ⟨d.program.methods.size⟩
  ({ d with program.methods := d.program.methods.push { id, declaringClass, name, isStatic } },
    id)

/-- Changes a method of the draft. -/
def modifyMethod (d : Draft) (id : MethodId) (f : Method → Method) : Except Fault Draft :=
  if id.index < d.program.methods.size then
    .ok { d with program.methods := d.program.methods.modify id.index f }
  else .error (.foreignMethod id)

/-- Changes an instruction of the draft. -/
def modifyInstruction (d : Draft) (id : InstructionId) (f : Instruction → Instruction) :
    Except Fault Draft :=
  if id.index < d.program.instructions.size then
    .ok { d with program.instructions := d.program.instructions.modify id.index f }
  else .error (.foreignInstruction id)

/-- Appends an instruction to a method. -/
def addInstruction (d : Draft) (method : MethodId) (kind : InstructionKind) :
    Except Fault (Draft × InstructionId) := do
  let id : InstructionId := ⟨d.program.instructions.size⟩
  let position := ((d.program.method? method).map (·.instructions.size)).getD 0
  let d ← d.modifyMethod method fun m => { m with instructions := m.instructions.push id }
  return ({ d with
    program.instructions := d.program.instructions.push { id, method, position, kind } }, id)

/-- Replaces the operand producers of an instruction. -/
def setOperands (d : Draft) (id : InstructionId) (producers : List InstructionId) :
    Except Fault Draft :=
  d.modifyInstruction id fun i => { i with operands := producers.map some }

/-- Declares a loop path that starts at a branch. -/
def addLoopPath (d : Draft) (branch : InstructionId) (branches : List InstructionId) :
    Except Fault (Draft × LoopPathId) := do
  let id : LoopPathId := ⟨d.loopPathCount⟩
  let d ← d.modifyInstruction branch fun i =>
    { i with loopPaths := i.loopPaths ++ [{ id, branches }] }
  return ({ d with loopPathCount := d.loopPathCount + 1 }, id)

/-! ### Steps -/

/-- One step of drafting a program. -/
inductive Step where
  | addClass (name : String) (superclass : Option ClassId)
  | addMethod (declaringClass : ClassId) (name : String) (isStatic : Bool)
  | markEntryPoint (method : MethodId)
  | addInstruction (method : MethodId) (kind : InstructionKind)
  | addCall (method target : MethodId) (producers : List InstructionId)
  | setOperands (instruction : InstructionId) (producers : List InstructionId)
  | addGuard (instruction branch : InstructionId)
  | addHandler (instruction handler : InstructionId)
  | addLoopPath (branch : InstructionId) (branches : List InstructionId)
deriving DecidableEq

/-- The element that a step added. -/
inductive Added where
  | nothing
  | classDecl (id : ClassId)
  | method (id : MethodId)
  | instruction (id : InstructionId)
  | loopPath (id : LoopPathId)
deriving DecidableEq

/-- The number of the element that a step added. -/
def Added.index? : Added → Option Nat
  | .nothing => none
  | .classDecl id => some id.index
  | .method id => some id.index
  | .instruction id => some id.index
  | .loopPath id => some id.index

/-- The draft after a step, and what the step added. -/
def apply (d : Draft) : Step → Except Fault (Draft × Added)
  | .addClass name superclass =>
    let (d, id) := d.addClass name superclass
    .ok (d, .classDecl id)
  | .addMethod declaringClass name isStatic =>
    let (d, id) := d.addMethod declaringClass name isStatic
    .ok (d, .method id)
  | .markEntryPoint method => do
    let d ← d.modifyMethod method fun m => { m with isEntryPoint := true }
    return (d, .nothing)
  | .addInstruction method kind => do
    let (d, id) ← d.addInstruction method kind
    return (d, .instruction id)
  | .addCall method target producers => do
    let (d, id) ← d.addInstruction method (.invoke target)
    let d ← d.setOperands id producers
    return (d, .instruction id)
  | .setOperands instruction producers => do
    let d ← d.setOperands instruction producers
    return (d, .nothing)
  | .addGuard instruction branch => do
    let d ← d.modifyInstruction instruction fun i => { i with guards := i.guards ++ [branch] }
    return (d, .nothing)
  | .addHandler instruction handler => do
    let d ← d.modifyInstruction instruction fun i =>
      { i with handlers := i.handlers ++ [handler] }
    return (d, .nothing)
  | .addLoopPath branch branches => do
    let (d, id) ← d.addLoopPath branch branches
    return (d, .loopPath id)

/-- The draft after a sequence of steps. -/
def run (steps : List Step) : Except Fault Draft :=
  steps.foldlM (fun d step => Prod.fst <$> d.apply step) {}

end Draft

end Inquest
