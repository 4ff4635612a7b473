import Inquest.Ident

/-!
# Programs

The analyses need some static knowledge beside the recording: which method an instruction
belongs to and where, which branches guard it, which handlers protect it, where its operands
come from, and what each call declares as its target.

## Main Definitions

* `ClassDecl`, `Method`, `Instruction`, `LoopPath` - the elements of a program
* `Program` - the tables of these elements, numbered by position
* `Program.class?`, `Program.method?`, `Program.instruction?` - look-up by identifier

## Design Notes

References between elements are plain identifiers and may name elements that the program does
not have; every look-up is partial, and each analysis says what a missing element means to it.
-/

namespace Inquest

/-- A class of the program. -/
structure ClassDecl where
  id : ClassId
  name : String
  /-- The class it extends directly, if any. -/
  superclass : Option ClassId
deriving DecidableEq

/-- A method of the program. -/
structure Method where
  id : MethodId
  /-- The class that declares it. -/
  declaringClass : ClassId
  /-- The simple name; a method that overrides another shares it. -/
  name : String
  /-- A static method has no receiver. -/
  isStatic : Bool
  /-- It is called from outside the recorded code. -/
  isEntryPoint : Bool := false
  /-- The instructions in order of position. -/
  instructions : Array InstructionId := #[]
deriving DecidableEq

/-- What an instruction does, as far as the analyses care. -/
inductive InstructionKind where
  /-- Decides a condition. -/
  | branch
  /-- Calls a method; dispatch may reach one that overrides the declared target. -/
  | invoke (target : MethodId)
  /-- Reads a parameter; parameter 0 of an instance method is its receiver. -/
  | loadParameter (parameter : Nat)
  /-- Hands on its first operand unchanged. -/
  | passthrough
  /-- Makes an instance of a class. -/
  | instantiate (ofClass : ClassId)
  /-- Leaves the method. -/
  | returns
  /-- Throws an exception. -/
  | throws
  /-- Starts an exception handler. -/
  | handler
  /-- Does anything else. -/
  | other
deriving DecidableEq

/-- A path through a loop body: the branches that one iteration executes, in order, from the
branch that declares the path on. -/
structure LoopPath where
  id : LoopPathId
  branches : List InstructionId
deriving DecidableEq

/-- An instruction of the program. -/
structure Instruction where
  id : InstructionId
  /-- The method it belongs to. -/
  method : MethodId
  /-- Its position within the method. -/
  position : Nat
  kind : InstructionKind
  /-- The instruction that produces each operand, where one is known. -/
  operands : List (Option InstructionId) := []
  /-- The branches that decide whether it executes. -/
  guards : List InstructionId := []
  /-- The handlers of the protected regions it lies in. -/
  handlers : List InstructionId := []
  /-- The loop paths that start here. -/
  loopPaths : List LoopPath := []
deriving DecidableEq

namespace Instruction

/-- Whether it decides a condition. -/
def isBranch (i : Instruction) : Bool := i.kind = .branch

/-- The declared target of a call. -/
def invoked? (i : Instruction) : Option MethodId :=
  match i.kind with
  | .invoke target => some target
  | _ => none

/-- Whether it lies in a protected region. -/
def isProtected (i : Instruction) : Bool := !i.handlers.isEmpty

end Instruction

/-- A program: its classes, methods and instructions, each at the position of its number. -/
structure Program where
  classes : Array ClassDecl := #[]
  methods : Array Method := #[]
  instructions : Array Instruction := #[]
deriving DecidableEq

namespace Program

/-- The class of an identifier. -/
def class? (p : Program) (id : ClassId) : Option ClassDecl := p.classes[id.index]?

/-- The method of an identifier. -/
def method? (p : Program) (id : MethodId) : Option Method := p.methods[id.index]?

/-- The instruction of an identifier. -/
def instruction? (p : Program) (id : InstructionId) : Option Instruction :=
  p.instructions[id.index]?

/-- The method that an instruction belongs to. -/
def methodOf? (p : Program) (id : InstructionId) : Option Method :=
  (p.instruction? id).bind fun i => p.method? i.method

/-- The direct superclass of a class. -/
def superclass? (p : Program) (id : ClassId) : Option ClassId :=
  (p.class? id).bind ClassDecl.superclass

end Program

end Inquest
