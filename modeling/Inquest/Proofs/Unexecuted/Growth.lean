import Mathlib.Logic.Relation
import Mathlib.Order.Nat
import Mathlib.Tactic.Tauto
import Inquest.Unexecuted.Question

/-!
# How the graph of a question changes

Every change to a question is one of three: nodes are appended, one node is rewritten in place,
or a node is linked to others.  This module says for each of them what becomes of every node, so
that nothing later has to look into the array of nodes.

Beside the nodes a question has a table that says which node stands for what.  A node is only made
if the table has none, and is noted there at once; so the table lists all nodes, and no two of them
stand for the same.

## Main Definitions

* `Unexecuted.key` - the instruction and the expectation that a node stands for
* `Unexecuted.bare` - a node without its links
* `Question.node?`, `Question.key?` - the node of an identifier, and what it stands for
* `Question.Indexed` - the table says of every node what it stands for, and nothing else
* `Question.Distinct` - no two nodes stand for the same
* `Question.Appends` - one question is another one with unvisited nodes appended

## Main Statements

* `Question.indexed_add` - a node that is made is noted in the table
* `Question.appends_internAll`, `Question.map_key?_internAll` - asking for nodes only appends, and
  gives what was asked for
* `Question.node?_foldl_link` - what linking a node to several others does to every node
-/

namespace Inquest

namespace Unexecuted

/-- What a node stands for. -/
def key (n : Unexecuted) : InstructionId × Expectation := (n.instruction, n.expectation)

/-- A node without its links. -/
def bare (n : Unexecuted) : Unexecuted := { n with incoming := ∅, outgoing := ∅ }

variable {m n : Unexecuted}

theorem key_of_bare (same : m.bare = n.bare) : m.key = n.key := by
  have instruction : m.bare.instruction = n.bare.instruction := congrArg _ same
  have expectation : m.bare.expectation = n.bare.expectation := congrArg _ same
  exact Prod.ext instruction expectation

theorem status_of_bare (same : m.bare = n.bare) : m.status = n.status := by
  have status : m.bare.status = n.bare.status := congrArg _ same
  exact status

theorem reason_of_bare (same : m.bare = n.bare) : m.reason = n.reason := by
  have reason : m.bare.reason = n.bare.reason := congrArg _ same
  exact reason

theorem others_of_bare (same : m.bare = n.bare) : m.others = n.others := by
  have others : m.bare.others = n.bare.others := congrArg _ same
  exact others

theorem methodExecution_of_bare (same : m.bare = n.bare) :
    m.methodExecution = n.methodExecution := by
  have execution : m.bare.methodExecution = n.bare.methodExecution := congrArg _ same
  exact execution

end Unexecuted

namespace Question

variable {q q' : Question} {a b id : UnexecutedId} {m n : Unexecuted}

/-! ### Single nodes -/

/-- The node of an identifier, if the graph has it. -/
def node? (q : Question) (id : UnexecutedId) : Option Unexecuted := q.nodes[id.index]?

/-- What the node of an identifier stands for. -/
def key? (q : Question) (id : UnexecutedId) : Option (InstructionId × Expectation) :=
  (q.node? id).map Unexecuted.key

theorem node_eq_ok_iff : q.node id = .ok n ↔ q.node? id = some n := by
  unfold node node?
  cases q.nodes[id.index]? with
  | none => simp
  | some m => simp

theorem exists_node?_of_lt (q : Question) (id : UnexecutedId) (known : id.index < q.size) :
    ∃ n, q.node? id = some n :=
  ⟨q.nodes[id.index], Array.getElem?_eq_getElem known⟩

theorem lt_size_of_node? (found : q.node? id = some n) : id.index < q.size :=
  (Array.getElem?_eq_some_iff.1 found).1

@[simp] theorem scope_modify (q : Question) (id : UnexecutedId) (f : Unexecuted → Unexecuted) :
    (q.modify id f).scope = q.scope := rfl

@[simp] theorem index_modify (q : Question) (id : UnexecutedId) (f : Unexecuted → Unexecuted) :
    (q.modify id f).index = q.index := rfl

theorem node?_modify (q : Question) (id : UnexecutedId) (f : Unexecuted → Unexecuted)
    (a : UnexecutedId) :
    (q.modify id f).node? a = if a = id then (q.node? a).map f else q.node? a := by
  simp only [node?, modify, Array.getElem?_modify, Ident.ext_iff, eq_comm]

theorem node?_modify_self (f : Unexecuted → Unexecuted) (found : q.node? id = some n) :
    (q.modify id f).node? id = some (f n) := by
  rw [node?_modify, if_pos rfl, found, Option.map_some]

theorem node?_modify_of_ne (f : Unexecuted → Unexecuted) (other : a ≠ id) :
    (q.modify id f).node? a = q.node? a := by
  rw [node?_modify, if_neg other]

/-- No two nodes stand for the same. -/
def Distinct (q : Question) : Prop :=
  ∀ {a b : UnexecutedId} {k : InstructionId × Expectation},
    q.key? a = some k → q.key? b = some k → a = b

theorem key?_eq_some_iff {k : InstructionId × Expectation} :
    q.key? id = some k ↔ ∃ n, q.node? id = some n ∧ n.key = k :=
  Option.map_eq_some_iff

theorem key?_of_node? (found : q.node? id = some n) : q.key? id = some n.key :=
  key?_eq_some_iff.2 ⟨n, found, rfl⟩

/-! ### Nodes on demand -/

/-- The table says of every node what it stands for, and nothing else. -/
def Indexed (q : Question) : Prop :=
  ∀ (k : InstructionId × Expectation) (id : UnexecutedId),
    q.index[k]? = some id ↔ q.key? id = some k

theorem indexed_fresh (s : Scope) : Indexed { scope := s } := by
  intro k id
  simp [key?, node?]

namespace Indexed

theorem distinct (indexed : q.Indexed) : q.Distinct := fun stands stands' =>
  Option.some.inj (((indexed _ _).2 stands).symm.trans ((indexed _ _).2 stands'))

/-- A change that touches neither the table nor what nodes stand for. -/
theorem of_key? (indexed : q.Indexed) (table : q'.index = q.index)
    (keys : ∀ a, q'.key? a = q.key? a) : q'.Indexed := by
  intro k id
  rw [table, keys]
  exact indexed k id

theorem lookup?_eq_some_iff (indexed : q.Indexed) {instruction : InstructionId}
    {x : Expectation} :
    q.lookup? instruction x = some id ↔ q.key? id = some (instruction, x) :=
  indexed (instruction, x) id

theorem key?_ne_of_lookup? (indexed : q.Indexed) {instruction : InstructionId} {x : Expectation}
    (missing : q.lookup? instruction x = none) (id : UnexecutedId) :
    q.key? id ≠ some (instruction, x) := by
  intro stands
  cases missing.symm.trans (indexed.lookup?_eq_some_iff.2 stands)

end Indexed

theorem node?_add (q : Question) (instruction : InstructionId) (x : Expectation)
    (a : UnexecutedId) :
    (q.add instruction x).node? a =
      if a.index = q.size then some { instruction, expectation := x } else q.node? a := by
  simp only [node?, add, Array.getElem?_push, size]
  rfl

theorem key?_add (q : Question) (instruction : InstructionId) (x : Expectation)
    (a : UnexecutedId) :
    (q.add instruction x).key? a =
      if a.index = q.size then some (instruction, x) else q.key? a := by
  rw [key?, node?_add]
  split
  · rfl
  · rfl

/-- A node that is made where the table has none is noted there. -/
theorem indexed_add {instruction : InstructionId} {x : Expectation} (indexed : q.Indexed)
    (missing : q.lookup? instruction x = none) : (q.add instruction x).Indexed := by
  intro k id
  have table : (q.add instruction x).index[k]? =
      if (instruction, x) = k then some ⟨q.size⟩ else q.index[k]? := by
    simp only [add, Std.TreeMap.getElem?_insert, compareKeys_eq_iff]
  rw [table, key?_add]
  by_cases last : id.index = q.size
  · -- the new node, which the table has not noted before
    have unknown : q.index[k]? ≠ some id := by
      intro noted
      obtain ⟨n, found, -⟩ := key?_eq_some_iff.1 ((indexed k id).1 noted)
      exact absurd (lt_size_of_node? found) (Nat.not_lt.2 last.ge)
    rw [if_pos last]
    split
    · next same => simp [same, Ident.ext_iff, last]
    · next other => simp [other, unknown]
  · rw [if_neg last]
    split
    · next same =>
      have other : (⟨q.size⟩ : UnexecutedId) ≠ id := fun same =>
        last (congrArg Ident.index same).symm
      simp [← same, other, indexed.key?_ne_of_lookup? missing id]
    · exact indexed k id

/-- A node that nobody has visited. -/
def unvisited (k : InstructionId × Expectation) : Unexecuted :=
  { instruction := k.1, expectation := k.2 }

/-- The question `q'` is the question `q` with unvisited nodes appended, which are noted in the
table. -/
structure Appends (q q' : Question) : Prop where
  scope : q'.scope = q.scope
  kept : ∀ {a n}, q.node? a = some n → q'.node? a = some n
  fresh : ∀ {a n}, q'.node? a = some n →
    q.node? a = some n ∨ q.size ≤ a.index ∧ n = unvisited n.key
  indexed : q.Indexed → q'.Indexed

theorem Appends.refl (q : Question) : q.Appends q :=
  ⟨rfl, id, .inl, fun indexed => indexed⟩

theorem Appends.size_le (appends : q.Appends q') : q.size ≤ q'.size := by
  by_contra shrinks
  obtain ⟨n, found⟩ := q.exists_node?_of_lt ⟨q'.size⟩ (Nat.lt_of_not_le shrinks)
  exact absurd (lt_size_of_node? (appends.kept found)) (by simp)

theorem Appends.trans {q'' : Question} (first : q.Appends q') (second : q'.Appends q'') :
    q.Appends q'' where
  scope := second.scope.trans first.scope
  kept found := second.kept (first.kept found)
  fresh found := by
    rcases second.fresh found with old | ⟨beyond, fresh⟩
    · exact first.fresh old
    · exact .inr ⟨first.size_le.trans beyond, fresh⟩
  indexed indexed := second.indexed (first.indexed indexed)

/-- A node is the same as before, or it is new and nobody has visited it. -/
theorem Appends.node?_cases (appends : q.Appends q') (a : UnexecutedId) :
    q'.node? a = q.node? a ∨ q.node? a = none ∧ ∃ k, q'.node? a = some (unvisited k) := by
  cases old : q.node? a with
  | some n => exact .inl (appends.kept old)
  | none =>
    cases new : q'.node? a with
    | none => exact .inl rfl
    | some n =>
      rcases appends.fresh new with kept | ⟨-, fresh⟩
      · rw [old] at kept
        cases kept
      · exact .inr ⟨rfl, n.key, by rw [← fresh]⟩

theorem Appends.key? {k : InstructionId × Expectation} (appends : q.Appends q')
    (stands : q.key? a = some k) : q'.key? a = some k := by
  obtain ⟨n, found, key⟩ := key?_eq_some_iff.1 stands
  exact key?_eq_some_iff.2 ⟨n, appends.kept found, key⟩

/-- Asking for a node appends it, if the table does not have it already. -/
theorem appends_intern (q : Question) (instruction : InstructionId) (x : Expectation) :
    q.Appends (q.intern instruction x).1 := by
  unfold intern
  cases missing : q.lookup? instruction x with
  | some id => exact .refl q
  | none =>
    refine ⟨rfl, fun {a n} old => ?_, fun {a n} new => ?_, fun indexed =>
      indexed_add indexed missing⟩
    · have inside := lt_size_of_node? old
      rw [node?_add, if_neg (by omega)]
      exact old
    · rw [node?_add] at new
      by_cases last : a.index = q.size
      · rw [if_pos last] at new
        cases new
        exact .inr ⟨last.ge, rfl⟩
      · rw [if_neg last] at new
        exact .inl new

/-- Asking for a node gives the one that stands for what was asked for. -/
theorem key?_intern (indexed : q.Indexed) (instruction : InstructionId) (x : Expectation) :
    (q.intern instruction x).1.key? (q.intern instruction x).2 = some (instruction, x) := by
  unfold intern
  cases found : q.lookup? instruction x with
  | some id => exact indexed.lookup?_eq_some_iff.1 found
  | none => exact (q.key?_add instruction x ⟨q.size⟩).trans (if_pos rfl)

/-- The only node that asking for one can append is the one asked for. -/
theorem eq_intern_of_beyond {instruction : InstructionId} {x : Expectation}
    (beyond : q.size ≤ a.index) (inside : a.index < (q.intern instruction x).1.size) :
    a = (q.intern instruction x).2 := by
  unfold intern at inside ⊢
  cases found : q.lookup? instruction x with
  | some id =>
    simp only [found] at inside
    omega
  | none =>
    simp only [found, add, size, Array.size_push] at inside beyond
    exact Ident.ext (by simp only [size]; omega)

/-- Asking for several nodes appends those that the graph does not have. -/
theorem appends_internAll (q : Question) (keys : List (InstructionId × Expectation)) :
    q.Appends (q.internAll keys).1 := by
  induction keys generalizing q with
  | nil => exact .refl q
  | cons k rest ih => exact (q.appends_intern k.1 k.2).trans (ih (q.intern k.1 k.2).1)

/-- The nodes that are given for several keys stand for them, in order. -/
theorem map_key?_internAll (indexed : q.Indexed) (keys : List (InstructionId × Expectation)) :
    (q.internAll keys).2.map (q.internAll keys).1.key? = keys.map some := by
  induction keys generalizing q with
  | nil => rfl
  | cons k rest ih =>
    obtain ⟨instruction, x⟩ := k
    have first := q.appends_intern instruction x
    have others := (q.intern instruction x).1.appends_internAll rest
    change ((q.intern instruction x).2 :: _).map _ = _
    rw [List.map_cons, List.map_cons]
    exact congrArg₂ List.cons (others.key? (key?_intern indexed instruction x))
      (ih (first.indexed indexed))

/-- Nothing is appended but the nodes that are given. -/
theorem mem_internAll_of_beyond (keys : List (InstructionId × Expectation))
    (beyond : q.size ≤ a.index) (inside : a.index < (q.internAll keys).1.size) :
    a ∈ (q.internAll keys).2 := by
  induction keys generalizing q with
  | nil => exact absurd inside (Nat.not_lt.2 beyond)
  | cons k rest ih =>
    obtain ⟨instruction, x⟩ := k
    change a ∈ (q.intern instruction x).2 :: _
    by_cases later : (q.intern instruction x).1.size ≤ a.index
    · exact List.mem_cons_of_mem _ (ih later inside)
    · rw [eq_intern_of_beyond beyond (Nat.lt_of_not_le later)]
      exact List.mem_cons_self

/-! ### Links -/

/-- What one link does to every node. -/
theorem node?_link (q : Question) (effect cause a : UnexecutedId) :
    (q.link effect cause).node? a = (q.node? a).map fun n =>
      { n with
        incoming := if a = effect then n.incoming.insert cause else n.incoming
        outgoing := if a = cause then n.outgoing.insert effect else n.outgoing } := by
  unfold link
  simp only [node?_modify]
  cases q.node? a with
  | none => simp
  | some n => split <;> split <;> rfl

/-- What linking a node to several others does to every node: the node is decided by them, each
of them decides it, and nothing else changes. -/
theorem node?_foldl_link (effect : UnexecutedId) (causes : List UnexecutedId)
    (found : q.node? a = some n) :
    ∃ n', (causes.foldl (·.link effect ·) q).node? a = some n' ∧ n'.bare = n.bare ∧
      (∀ c, c ∈ n'.incoming ↔ c ∈ n.incoming ∨ a = effect ∧ c ∈ causes) ∧
      (∀ e, e ∈ n'.outgoing ↔ e ∈ n.outgoing ∨ e = effect ∧ a ∈ causes) ∧
      (a ≠ effect → n'.incoming = n.incoming) ∧ (a ≠ effect → a ∉ causes → n' = n) := by
  induction causes generalizing q n with
  | nil => exact ⟨n, found, rfl, by simp, by simp, fun _ => rfl, fun _ _ => rfl⟩
  | cons cause rest ih =>
    have linked := q.node?_link effect cause a
    rw [found, Option.map_some] at linked
    obtain ⟨n', found', bare, incoming, outgoing, kept, same⟩ := ih linked
    refine ⟨n', found', bare.trans rfl, fun c => ?_, fun e => ?_, fun other => ?_,
      fun other outside => ?_⟩
    · rw [incoming]
      by_cases isEffect : a = effect
      · simp [isEffect, or_assoc, or_left_comm]
      · simp [isEffect]
    · rw [outgoing]
      by_cases isCause : a = cause
      · simp only [isCause, if_true, IdentSet.mem_insert, List.mem_cons, true_or, and_true]
        tauto
      · simp [isCause]
    · rw [kept other]
      simp [other]
    · obtain ⟨notCause, outside⟩ := not_or.1 (mt List.mem_cons.2 outside)
      rw [same other outside]
      simp [other, notCause]

@[simp] theorem scope_foldl_link (q : Question) (effect : UnexecutedId)
    (causes : List UnexecutedId) :
    (causes.foldl (·.link effect ·) q).scope = q.scope := by
  induction causes generalizing q with
  | nil => rfl
  | cons cause rest ih => exact ih (q.link effect cause)

@[simp] theorem index_foldl_link (q : Question) (effect : UnexecutedId)
    (causes : List UnexecutedId) :
    (causes.foldl (·.link effect ·) q).index = q.index := by
  induction causes generalizing q with
  | nil => rfl
  | cons cause rest ih => exact ih (q.link effect cause)

@[simp] theorem size_foldl_link (q : Question) (effect : UnexecutedId)
    (causes : List UnexecutedId) :
    (causes.foldl (·.link effect ·) q).size = q.size := by
  induction causes generalizing q with
  | nil => rfl
  | cons cause rest ih => exact (ih (q.link effect cause)).trans (by simp [link, modify, size])

end Question

end Inquest
