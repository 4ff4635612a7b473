import Std.Data.TreeMap

/-!
# Identifiers

Everything that a recorded execution mentions is named by a number: events, heap objects,
threads, the elements of the program, and the nodes of the graphs built over them.  A number
alone does not say what it names, so an identifier carries its kind in its type.

## Main Definitions

* `IdentKind` - what an identifier names
* `Ident` - an identifier of one kind
* `Ident.display`, `Ident.debug` - its short and its long text

## Design Notes

Identifiers of one kind are ordered by their number.  The order is given three times, as `<`
and `≤` for statements and as `compare` for ordered maps; `Ident.lt_def`, `Ident.le_def` and
`Ident.compare_eq_iff` reduce each of them to the numbers.
-/

namespace Inquest

/-- What an identifier names. -/
inductive IdentKind where
  /-- An event of the recording. -/
  | event
  /-- An object of the recorded heap; the number 0 is the null reference. -/
  | object
  /-- A thread of the recording. -/
  | thread
  /-- An instruction of the program. -/
  | instruction
  /-- A method of the program. -/
  | method
  /-- A class of the program. -/
  | objectClass
  /-- A declared path through a loop body. -/
  | loopPath
  /-- A node of an explanation graph. -/
  | node
  /-- A node of an unexecuted-instruction graph. -/
  | unexecuted
deriving DecidableEq

/-- The mark that stands before the number in the short text. -/
def IdentKind.mark : IdentKind → String
  | .event => "#"
  | .object => "@"
  | .thread => "thread-"
  | .instruction => "i"
  | .method => "m"
  | .objectClass => "c"
  | .loopPath => "path-"
  | .node => "node-"
  | .unexecuted => "unexecuted-"

/-- The name that stands before the bracketed number in the long text. -/
def IdentKind.typeName : IdentKind → String
  | .event => "EventId"
  | .object => "ObjectId"
  | .thread => "ThreadId"
  | .instruction => "InstructionId"
  | .method => "MethodId"
  | .objectClass => "ClassId"
  | .loopPath => "LoopPathId"
  | .node => "NodeId"
  | .unexecuted => "UnexecutedId"

/-- An identifier: a number that names an entity of one kind. -/
@[ext]
structure Ident (kind : IdentKind) where
  /-- The number. -/
  index : Nat
deriving DecidableEq

/-- Names an event; events are numbered in the order in which they happened. -/
abbrev EventId := Ident .event
/-- Names an object of the recorded heap. -/
abbrev ObjectId := Ident .object
/-- Names a thread. -/
abbrev ThreadId := Ident .thread
/-- Names an instruction. -/
abbrev InstructionId := Ident .instruction
/-- Names a method. -/
abbrev MethodId := Ident .method
/-- Names a class. -/
abbrev ClassId := Ident .objectClass
/-- Names a declared loop path. -/
abbrev LoopPathId := Ident .loopPath
/-- Names a node of an explanation graph. -/
abbrev NodeId := Ident .node
/-- Names a node of an unexecuted-instruction graph. -/
abbrev UnexecutedId := Ident .unexecuted

namespace Ident

variable {kind : IdentKind}

/-! ### Order -/

instance : LT (Ident kind) := ⟨fun a b => a.index < b.index⟩

instance : LE (Ident kind) := ⟨fun a b => a.index ≤ b.index⟩

theorem lt_def {a b : Ident kind} : a < b ↔ a.index < b.index := Iff.rfl

theorem le_def {a b : Ident kind} : a ≤ b ↔ a.index ≤ b.index := Iff.rfl

instance (a b : Ident kind) : Decidable (a < b) :=
  inferInstanceAs (Decidable (a.index < b.index))

instance (a b : Ident kind) : Decidable (a ≤ b) :=
  inferInstanceAs (Decidable (a.index ≤ b.index))

instance : Min (Ident kind) := minOfLe

instance : Max (Ident kind) := maxOfLe

instance : Ord (Ident kind) := ⟨compareOn index⟩

instance : Std.TransOrd (Ident kind) :=
  inferInstanceAs (Std.TransCmp (compareOn index))

/-- Two identifiers compare as equal only if they are the same. -/
theorem compare_eq_iff {a b : Ident kind} : compare a b = .eq ↔ a = b := by
  change compare a.index b.index = .eq ↔ a = b
  rw [Nat.compare_eq_eq, Ident.ext_iff]

instance : Std.LawfulEqOrd (Ident kind) := ⟨compare_eq_iff.1⟩

/-! ### Texts -/

/-- Whether this is the null reference, the object numbered 0. -/
def isNull (object : ObjectId) : Bool := object.index = 0

/-- The short text: the mark of the kind and the number, or `null` for the null reference. -/
def display (a : Ident kind) : String :=
  if kind = .object ∧ a.index = 0 then "null" else kind.mark ++ toString a.index

/-- The long text: the name of the kind and the number in brackets. -/
def debug (a : Ident kind) : String :=
  let inner := if kind = .object ∧ a.index = 0 then "null" else toString a.index
  kind.typeName ++ "(" ++ inner ++ ")"

end Ident

end Inquest
