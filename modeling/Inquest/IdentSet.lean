import Inquest.Ident

/-!
# Sets of identifiers

A finite set of identifiers, kept as the ascending list of its members.  The list is
determined by the members, so two sets are equal exactly when they have the same members, and
listing a set always gives the same order.

## Main Definitions

* `IdentSet` - a finite set of identifiers of one kind
* `IdentSet.insert`, `IdentSet.ofList`, `IdentSet.union` - how sets are made

## Main Statements

* `IdentSet.mem_insert` - insertion adds one member and keeps the others
* `IdentSet.mem_ofList` - the set of a list has the members of the list
-/

namespace Inquest

variable {kind : IdentKind}

/-- A finite set of identifiers, as the strictly ascending list of its members. -/
structure IdentSet (kind : IdentKind) where
  /-- The members in ascending order. -/
  toList : List (Ident kind)
  /-- Every member is smaller than the ones listed after it. -/
  ascending : toList.Pairwise (· < ·)
deriving DecidableEq

namespace IdentSet

instance : Membership (Ident kind) (IdentSet kind) := ⟨fun s a => a ∈ s.toList⟩

theorem mem_def {a : Ident kind} {s : IdentSet kind} : a ∈ s ↔ a ∈ s.toList := Iff.rfl

instance (a : Ident kind) (s : IdentSet kind) : Decidable (a ∈ s) :=
  inferInstanceAs (Decidable (a ∈ s.toList))

/-- The set without members. -/
def empty : IdentSet kind := ⟨[], .nil⟩

instance : EmptyCollection (IdentSet kind) := ⟨empty⟩

instance : Inhabited (IdentSet kind) := ⟨empty⟩

/-- Puts an identifier at its place in an ascending list, unless it stands there already. -/
def putAscending (a : Ident kind) : List (Ident kind) → List (Ident kind)
  | [] => [a]
  | b :: rest =>
    if a < b then a :: b :: rest
    else if a = b then b :: rest
    else b :: putAscending a rest

theorem mem_putAscending {a c : Ident kind} {l : List (Ident kind)} :
    c ∈ putAscending a l ↔ c = a ∨ c ∈ l := by
  induction l with
  | nil => exact List.mem_singleton.trans (by simp)
  | cons b rest ih =>
    rw [putAscending]
    by_cases less : a < b
    · rw [if_pos less, List.mem_cons]
    · by_cases same : a = b
      · rw [if_neg less, if_pos same, same, List.mem_cons]
        exact ⟨.inr, fun h => h.elim .inl id⟩
      · rw [if_neg less, if_neg same, List.mem_cons, ih, List.mem_cons]
        constructor
        · rintro (h | h | h)
          · exact .inr (.inl h)
          · exact .inl h
          · exact .inr (.inr h)
        · rintro (h | h | h)
          · exact .inr (.inl h)
          · exact .inl h
          · exact .inr (.inr h)

theorem pairwise_putAscending {a : Ident kind} {l : List (Ident kind)}
    (h : l.Pairwise (· < ·)) : (putAscending a l).Pairwise (· < ·) := by
  induction l with
  | nil => simp [putAscending]
  | cons b rest ih =>
    obtain ⟨below, tail⟩ := List.pairwise_cons.1 h
    unfold putAscending
    split
    · next less =>
      refine List.pairwise_cons.2 ⟨fun c mem => ?_, h⟩
      rcases List.mem_cons.1 mem with rfl | mem
      · exact less
      · exact Nat.lt_trans less (below c mem)
    · next notLess =>
      split
      · exact h
      · next different =>
        refine List.pairwise_cons.2 ⟨fun c mem => ?_, ih tail⟩
        rcases mem_putAscending.1 mem with rfl | mem
        · have unequal : c.index ≠ b.index := fun same => different (Ident.ext same)
          exact Ident.lt_def.2 (by have := mt Ident.lt_def.2 notLess; omega)
        · exact below c mem

/-- The set with one more member. -/
def insert (a : Ident kind) (s : IdentSet kind) : IdentSet kind :=
  ⟨putAscending a s.toList, pairwise_putAscending s.ascending⟩

@[simp] theorem mem_insert {a c : Ident kind} {s : IdentSet kind} :
    c ∈ s.insert a ↔ c = a ∨ c ∈ s :=
  mem_putAscending

/-- The set with all members of a list added. -/
def insertAll (s : IdentSet kind) (l : List (Ident kind)) : IdentSet kind :=
  l.foldl (fun s a => s.insert a) s

@[simp] theorem mem_insertAll {c : Ident kind} {l : List (Ident kind)} {s : IdentSet kind} :
    c ∈ s.insertAll l ↔ c ∈ s ∨ c ∈ l := by
  induction l generalizing s with
  | nil => simp [insertAll]
  | cons a rest ih =>
    have step : s.insertAll (a :: rest) = (s.insert a).insertAll rest := rfl
    rw [step, ih, mem_insert, List.mem_cons, or_comm (a := c = a), or_assoc]

/-- The set of the members of a list. -/
def ofList (l : List (Ident kind)) : IdentSet kind := empty.insertAll l

@[simp] theorem not_mem_empty {c : Ident kind} : ¬ c ∈ (empty : IdentSet kind) :=
  List.not_mem_nil

@[simp] theorem mem_ofList {c : Ident kind} {l : List (Ident kind)} :
    c ∈ ofList l ↔ c ∈ l := by
  simp [ofList]

/-- The members of either set. -/
def union (s t : IdentSet kind) : IdentSet kind := s.insertAll t.toList

/-- Whether the set has no members. -/
def isEmpty (s : IdentSet kind) : Bool := s.toList.isEmpty

/-- The number of members. -/
def size (s : IdentSet kind) : Nat := s.toList.length

/-- Sets compare as their ascending lists do. -/
instance : Ord (IdentSet kind) := ⟨fun s t => compare s.toList t.toList⟩

end IdentSet

end Inquest
