import Inquest.IdentSet
import Inquest.Program.Parameter
import Inquest.Trace.Basic

/-!
# Expectations

Who asks why an instruction did not execute may have a certain object in mind: one that the
method should have run on, or one that should have come in as an operand.  An expectation
narrows the question to the invocations that meet it.

## Main Definitions

* `Expectation` - which object the instruction should have run for
* `Expectation.forMethodSearch` - the expectation on an invocation of the instruction's method
* `Expectation.forCallers` - the expectation on the call sites of that method
* `Expectation.receivers` - the receivers that an expectation pins down
* `Expectation.check` - whether an invocation meets an expectation
-/

namespace Inquest

/-- Which object an instruction should have run for. -/
inductive Expectation where
  /-- Any. -/
  | unconstrained
  /-- This object, as the receiver or as the given operand of the instruction. -/
  | object (object : ObjectId) (argument : Option Nat)
  /-- This object, as a parameter of the method. -/
  | parameter (object : ObjectId) (index : Nat)
  /-- One of these objects, as the receiver. -/
  | anyOf (objects : IdentSet .object)
deriving DecidableEq

/-- Whether an invocation meets an expectation. -/
inductive Match where
  | yes
  | no
  /-- The recording does not tell. -/
  | unknown
deriving DecidableEq

namespace Expectation

/-- The object as the receiver. -/
def receiver (object : ObjectId) : Expectation := .object object none

/-- The object as an operand. -/
def operand (object : ObjectId) (position : Nat) : Expectation := .object object (some position)

/-- Whether any object will do. -/
def isUnconstrained (x : Expectation) : Bool := x = .unconstrained

/-- The expectation on an invocation of the method of an instruction: an operand that comes from
a parameter becomes that parameter, one that does not is dropped, and a receiver means nothing
to a static method. -/
def forMethodSearch (p : Program) (instruction : InstructionId) (isStatic : Bool) :
    Expectation → Expectation
  | .object o (some position) =>
    match p.parameterSource instruction position with
    | some index => .parameter o index
    | none => .unconstrained
  | .object o none => if isStatic then .unconstrained else .object o none
  | .anyOf objects => if isStatic then .unconstrained else .anyOf objects
  | .parameter o index => .parameter o index
  | .unconstrained => .unconstrained

/-- The expectation on a call site of the method of an instruction: a parameter is an operand of
the call. -/
def forCallers (p : Program) (instruction : InstructionId) : Expectation → Expectation
  | .object o (some position) =>
    match p.parameterSource instruction position with
    | some index => operand o index
    | none => .unconstrained
  | .parameter o index => operand o index
  | .object o none => .object o none
  | .anyOf objects => .anyOf objects
  | .unconstrained => .unconstrained

/-- The receivers that an expectation allows, if it pins them down. -/
def receivers (isStatic : Bool) (x : Expectation) : List ObjectId :=
  if isStatic then []
  else
    match x with
    | .object o none => [o]
    | .parameter o 0 => [o]
    | .anyOf objects => objects.toList
    | _ => []

/-- Whether an argument of an invocation is one of the accepted objects. -/
def checkArgument (t : Trace) (start : EventId) (position : Nat) (accepts : ObjectId → Bool) :
    Match :=
  match t.argument start position with
  | .ok o => if accepts o then .yes else .no
  | .error _ => .unknown

/-- Whether an invocation meets an expectation. -/
def check (t : Trace) (start : EventId) : Expectation → Match
  | .unconstrained => .yes
  | .object o argument => checkArgument t start (argument.getD 0) (· = o)
  | .parameter o index => checkArgument t start index (· = o)
  | .anyOf objects => checkArgument t start 0 (· ∈ objects)

/-! ### Order -/

/-- The form of an expectation and then its parts, as numbers. -/
def code : Expectation → List Nat
  | .unconstrained => [0]
  | .object o none => [1, o.index, 0]
  | .object o (some position) => [1, o.index, 1, position]
  | .parameter o index => [2, o.index, index]
  | .anyOf objects => 3 :: objects.toList.map Ident.index

theorem code_injective {x y : Expectation} (same : x.code = y.code) : x = y := by
  have members : ∀ {s s' : IdentSet .object},
      s.toList.map Ident.index = s'.toList.map Ident.index → s = s' := by
    rintro ⟨l, _⟩ ⟨l', _⟩ indices
    obtain rfl : l = l' := (List.map_inj_right fun _ _ => Ident.ext).1 indices
    rfl
  unfold code at same
  split at same <;> split at same <;> simp_all [Ident.ext_iff]
  exact members same

/-- Expectations are ordered by their form first, and then by their parts. -/
instance : Ord Expectation := ⟨compareOn code⟩

instance : Std.TransOrd Expectation := inferInstanceAs (Std.TransCmp (compareOn code))

theorem compare_eq_iff {x y : Expectation} : compare x y = .eq ↔ x = y :=
  ⟨fun same => code_injective (Std.LawfulEqOrd.eq_of_compare same), fun same =>
    same ▸ Std.ReflOrd.compare_self⟩

/-- Removes every element that is equal to the one before it. -/
def dropRepeats : List Expectation → List Expectation
  | [] => []
  | x :: rest =>
    match dropRepeats rest with
    | [] => [x]
    | y :: kept => if x = y then y :: kept else x :: y :: kept

/-- The distinct expectations of a list in ascending order. -/
def sortDistinct (items : List Expectation) : List Expectation :=
  dropRepeats (items.mergeSort fun x y => (compare x y).isLE)

end Expectation

end Inquest
