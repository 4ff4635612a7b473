import Mathlib.Data.List.Basic
import Mathlib.Data.List.Forall2
import Mathlib.Data.List.Nodup
import Mathlib.Data.List.Perm.Subperm
import Mathlib.Data.List.TakeWhile
import Mathlib.Logic.Relation
import Inquest.Loop
import Inquest.Walk

/-!
# Walks that come to an end

Graphs are explored with a bound on the number of rounds.  That the bound is high enough is always
seen in the same way: each round meets something new, and there is only so much to be met.  What a
run of steps preserves is seen from the single steps.

## Main Statements

* `bind_eq_ok_iff`, `map_eq_ok_iff`, `exists_ok_of_view` - when a computation succeeds
* `foldlM_induction` - what every step preserves, a run of steps preserves
* `foldlM_comm`, `foldlM_eq_foldl` - runs correspond if their steps do
* `mapM_eq_ok`, `filterM_eq_ok`, `findM?_eq_ok`, `findSomeM?_eq_ok` - what every element allows, a
  list allows
* `Ident.length_le_of_nodup` - no more identifiers can be met than there are
* `mem_dropWhile`, `of_dropWhile_eq_cons` - what is passed over on a stack
* `walk_induction` - what holds of walks that come to an end
* `walk_spec` - a walk among finitely many elements comes to an end
* `walk_closed` - a walk that comes to an end has passed over nothing
* `walk_reaches` - a walk visits exactly what steps lead to
* `walk_unique` - what a walk visits does not depend on the number of rounds
* `walk_forall₂` - nor does it depend on the names of the elements
-/

namespace Inquest

section Steps

variable {α β : Type} {b : β}

/-- A computation in two steps succeeds if both of them do. -/
theorem bind_eq_ok_iff {x : Except Fault α} {f : α → Except Fault β} :
    x >>= f = .ok b ↔ ∃ a, x = .ok a ∧ f a = .ok b := by
  cases x with
  | error fault => simp [bind, Except.bind]
  | ok a => simp [bind, Except.bind]

theorem map_eq_ok_iff {x : Except Fault α} {f : α → β} :
    f <$> x = .ok b ↔ ∃ a, x = .ok a ∧ f a = b := by
  cases x with
  | error fault => simp [Functor.map, Except.map]
  | ok a => simp [Functor.map, Except.map]

/-- A computation of which a view is known has succeeded. -/
theorem exists_ok_of_view {x : Except Fault α} {view : α → β}
    (seen : x.toOption.map view = some b) : ∃ a, x = .ok a ∧ view a = b := by
  cases x with
  | error fault => cases seen
  | ok a => exact ⟨a, rfl, Option.some.inj seen⟩

/-- What holds at first and is preserved by every step holds after all of them. -/
theorem foldlM_induction {P : β → Prop} {step : β → α → Except Fault β} {l : List α} {b' : β}
    (start : P b) (preserved : ∀ {a b b'}, a ∈ l → P b → step b a = .ok b' → P b')
    (folded : l.foldlM step b = .ok b') : P b' := by
  induction l generalizing b with
  | nil =>
    cases folded
    exact start
  | cons a rest ih =>
    rw [List.foldlM_cons] at folded
    obtain ⟨b₁, first, others⟩ := bind_eq_ok_iff.1 folded
    exact ih (preserved List.mem_cons_self start first)
      (fun member => preserved (List.mem_cons_of_mem a member)) others

/-- Runs of two kinds of steps correspond if the single steps do, as long as something holds that
the steps preserve. -/
theorem foldlM_comm {γ : Type} {P : β → Prop} {h : β → γ} {step : β → α → Except Fault β}
    {step' : γ → α → Except Fault γ} (preserved : ∀ {a b b'}, P b → step b a = .ok b' → P b')
    (corresponds : ∀ {a b}, P b → step' (h b) a = h <$> step b a) (start : P b) (l : List α) :
    l.foldlM step' (h b) = h <$> l.foldlM step b := by
  induction l generalizing b with
  | nil => rfl
  | cons a rest ih =>
    rw [List.foldlM_cons, List.foldlM_cons, corresponds start]
    cases first : step b a with
    | error fault => rfl
    | ok b₁ => exact ih (preserved start first)

/-- Where each element of a list can be read, the whole list can be. -/
theorem mapM_eq_ok {f : α → Except Fault β} {g : α → β} {l : List α}
    (reads : ∀ a ∈ l, f a = .ok (g a)) : l.mapM f = .ok (l.map g) := by
  induction l with
  | nil => rfl
  | cons a rest ih =>
    have others := ih fun a' member => reads a' (List.mem_cons_of_mem a member)
    rw [List.mapM_cons, reads a List.mem_cons_self, others]
    rfl

/-- Where each element of a list can be tested, the list can be filtered. -/
theorem filterM_eq_ok {f : α → Except Fault Bool} {p : α → Bool} {l : List α}
    (tests : ∀ a ∈ l, f a = .ok (p a)) : l.filterM f = .ok (l.filter p) := by
  have gathers : ∀ acc, l.filterAuxM f acc = .ok ((l.filter p).reverse ++ acc) := by
    induction l with
    | nil => exact fun acc => rfl
    | cons a rest ih =>
      intro acc
      have others := ih fun a' member => tests a' (List.mem_cons_of_mem a member)
      rw [List.filterAuxM, tests a List.mem_cons_self]
      refine (others _).trans ?_
      cases kept : p a with
      | false => rw [List.filter_cons_of_neg (by simp [kept]), cond_false]
      | true => simp [List.filter_cons_of_pos kept]
  rw [List.filterM, gathers, List.append_nil]
  exact congrArg Except.ok (List.reverse_reverse _)

/-- A list that was filtered could be tested throughout. -/
theorem exists_ok_of_filterM {f : α → Except Fault Bool} {l kept : List α}
    (filtered : l.filterM f = .ok kept) : ∀ a ∈ l, ∃ b, f a = .ok b := by
  rw [List.filterM] at filtered
  obtain ⟨reversed, gathered, -⟩ := bind_eq_ok_iff.1 filtered
  clear filtered
  generalize ([] : List α) = before at gathered
  induction l generalizing before with
  | nil => exact fun _ listed => absurd listed List.not_mem_nil
  | cons a rest ih =>
    rw [List.filterAuxM] at gathered
    obtain ⟨b, test, gathered⟩ := bind_eq_ok_iff.1 gathered
    exact List.forall_mem_cons.2 ⟨⟨b, test⟩, ih _ gathered⟩

/-- Where each element of a list can be tested, the first one that passes can be found. -/
theorem findM?_eq_ok {f : α → Except Fault Bool} {p : α → Bool} {l : List α}
    (tests : ∀ a ∈ l, f a = .ok (p a)) : l.findM? f = .ok (l.find? p) := by
  induction l with
  | nil => rfl
  | cons a rest ih =>
    have others := ih fun a' member => tests a' (List.mem_cons_of_mem a member)
    rw [List.findM?, tests a List.mem_cons_self, List.find?_cons]
    cases p a with
    | false => exact others
    | true => rfl

/-- Where each element of a list can be asked, the first answer can be found. -/
theorem findSomeM?_eq_ok {f : α → Except Fault (Option β)} {g : α → Option β} {l : List α}
    (asks : ∀ a ∈ l, f a = .ok (g a)) : l.findSomeM? f = .ok (l.findSome? g) := by
  induction l with
  | nil => rfl
  | cons a rest ih =>
    have others := ih fun a' member => asks a' (List.mem_cons_of_mem a member)
    rw [List.findSomeM?, asks a List.mem_cons_self, List.findSome?_cons]
    cases g a with
    | none => exact others
    | some b => rfl

/-- An answer that is found is the answer of an element. -/
theorem exists_of_findSomeM?_eq_ok {f : α → Except Fault (Option β)} {l : List α}
    (found : l.findSomeM? f = .ok (some b)) : ∃ a ∈ l, f a = .ok (some b) := by
  induction l with
  | nil => cases found
  | cons a rest ih =>
    rw [List.findSomeM?] at found
    obtain ⟨answer, asked, found⟩ := bind_eq_ok_iff.1 found
    cases answer with
    | none =>
      obtain ⟨a', member, asked⟩ := ih found
      exact ⟨a', List.mem_cons_of_mem a member, asked⟩
    | some b' =>
      cases found
      exact ⟨a, List.mem_cons_self, asked⟩

/-- Where every step comes to a known result, for an element that corresponds to the one that it is
made with, so does a run of steps. -/
theorem foldlM_eq_foldl {γ : Type} {R : α → γ → Prop} {step : β → α → Except Fault β}
    {step' : β → γ → β} {l : List α} {l' : List γ}
    (corresponds : ∀ {a c} (b : β), R a c → step b a = .ok (step' b c))
    (related : List.Forall₂ R l l') (b : β) : l.foldlM step b = .ok (l'.foldl step' b) := by
  induction related generalizing b with
  | nil => rfl
  | cons first _ ih =>
    rw [List.foldlM_cons, corresponds b first]
    exact ih _

end Steps

/-- There are no more distinct identifiers than their numbers allow. -/
theorem Ident.length_le_of_nodup {kind : IdentKind} {ids : List (Ident kind)} {count : Nat}
    (nodup : ids.Nodup) (bounded : ∀ id ∈ ids, id.index < count) : ids.length ≤ count := by
  have distinct : (ids.map Ident.index).Nodup := nodup.map fun _ _ same => Ident.ext same
  have within : ids.map Ident.index ⊆ List.range count := by
    intro index listed
    obtain ⟨id, member, rfl⟩ := List.mem_map.1 listed
    exact List.mem_range.2 (bounded id member)
  simpa using (distinct.subperm within).length_le

section Walk

variable {α : Type} {a : α} {stack rest : List α}

/-- What lies on a stack is passed over, or is still there. -/
theorem mem_dropWhile (passed : α → Bool) (member : a ∈ stack) :
    passed a = true ∨ a ∈ stack.dropWhile passed := by
  rw [← List.takeWhile_append_dropWhile (p := passed) (l := stack)] at member
  exact (List.mem_append.1 member).imp_left List.mem_takeWhile_imp

/-- What is next on a stack is not passed over. -/
theorem of_dropWhile_eq_cons {passed : α → Bool} (left : stack.dropWhile passed = a :: rest) :
    passed a = false := by
  have head := List.head?_dropWhile_not passed stack
  rwa [left] at head

/-- Of elements that correspond one to one, the same lie on two stacks. -/
theorem mem_iff_of_forall₂ {β : Type} {R : α → β → Prop} {b : β} {stack' : List β}
    (oneToOne : ∀ {a a' b b'}, R a b → R a' b' → (a = a' ↔ b = b')) (related : R a b)
    (stacked : List.Forall₂ R stack stack') : a ∈ stack ↔ b ∈ stack' := by
  induction stacked with
  | nil => simp
  | cons first _ ih => rw [List.mem_cons, List.mem_cons, oneToOne related first, ih]

variable [DecidableEq α] {next : α → Except Fault (List α)} {P : α → Prop}

theorem walk_of_drained {n : Nat} {pending visited : List α}
    (left : pending.dropWhile (· ∈ visited) = []) :
    walk next n pending visited = .ok visited.reverse := by
  unfold walk
  cases n <;> simp only [left]

theorem walk_of_left {n : Nat} {pending visited : List α}
    (left : pending.dropWhile (· ∈ visited) = a :: rest) :
    walk next (n + 1) pending visited =
      next a >>= fun successors => walk next n (successors.reverse ++ rest) (a :: visited) := by
  conv_lhs => unfold walk
  simp only [left]

/-- What holds of a walk with nothing left on the stack, and of a walk one element before it holds,
holds of every walk that comes to an end. -/
theorem walk_induction {result : List α} {motive : Nat → List α → List α → Prop}
    (drained : ∀ {n pending visited}, pending.dropWhile (· ∈ visited) = [] →
      visited.reverse = result → motive n pending visited)
    (step : ∀ {n pending visited a rest successors}, pending.dropWhile (· ∈ visited) = a :: rest →
      next a = .ok successors → motive n (successors.reverse ++ rest) (a :: visited) →
      motive (n + 1) pending visited) {n : Nat} {pending visited : List α}
    (walked : walk next n pending visited = .ok result) : motive n pending visited := by
  induction n generalizing pending visited with
  | zero =>
    cases left : pending.dropWhile (· ∈ visited) with
    | nil => exact drained left (Except.ok.inj ((walk_of_drained left).symm.trans walked))
    | cons a rest =>
      unfold walk at walked
      simp [left] at walked
  | succ n ih =>
    cases left : pending.dropWhile (· ∈ visited) with
    | nil => exact drained left (Except.ok.inj ((walk_of_drained left).symm.trans walked))
    | cons a rest =>
      rw [walk_of_left left] at walked
      obtain ⟨successors, goes, walked⟩ := bind_eq_ok_iff.1 walked
      exact step left goes (ih walked)

/-- Where nothing is left on the stack, everything has been visited. -/
theorem visited_of_drained {pending visited : List α} (left : pending.dropWhile (· ∈ visited) = [])
    (front : ∀ a ∈ visited, ∃ successors, next a = .ok successors ∧
      ∀ b ∈ successors, b ∈ visited ∨ b ∈ pending) :
    (∀ a, a ∈ visited ∨ a ∈ pending → a ∈ visited.reverse) ∧
      ∀ a ∈ visited.reverse, ∃ successors, next a = .ok successors ∧
        ∀ b ∈ successors, b ∈ visited.reverse := by
  have met : ∀ a, a ∈ visited ∨ a ∈ pending → a ∈ visited.reverse := by
    rintro a (met | waits)
    · exact List.mem_reverse.2 met
    · rcases mem_dropWhile (· ∈ visited) waits with met | waits
      · exact List.mem_reverse.2 (by simpa using met)
      · rw [left] at waits
        cases waits
  refine ⟨met, fun a member => ?_⟩
  obtain ⟨successors, goes, inside⟩ := front a (List.mem_reverse.1 member)
  exact ⟨successors, goes, fun b member => met b (inside b member)⟩

/-- A walk does not leave a set that is closed under successors, and if no list without repetitions
within the set is longer than the number of rounds, it comes to an end. -/
theorem walk_spec {bound : Nat} (short : ∀ l : List α, l.Nodup → (∀ a ∈ l, P a) → l.length ≤ bound)
    (closed : ∀ a, P a → ∃ successors, next a = .ok successors ∧ ∀ b ∈ successors, P b) {n : Nat}
    {pending visited : List α} (room : bound ≤ n + visited.length) (nodup : visited.Nodup)
    (waiting : ∀ a ∈ pending, P a) (met : ∀ a ∈ visited, P a) :
    ∃ result, walk next n pending visited = .ok result ∧ ∀ a ∈ result, P a := by
  induction n generalizing pending visited with
  | zero =>
    cases left : pending.dropWhile (· ∈ visited) with
    | nil => exact ⟨_, walk_of_drained left, fun a member => met a (List.mem_reverse.1 member)⟩
    | cons a rest =>
      -- there is no room for one more
      have new : a ∉ visited := by simpa using of_dropWhile_eq_cons left
      have nodup' := List.nodup_cons.2 ⟨new, nodup⟩
      have waits : a ∈ pending := (List.dropWhile_suffix _).mem (left ▸ List.mem_cons_self)
      have longer := short (a :: visited) nodup' (List.forall_mem_cons.2 ⟨waiting a waits, met⟩)
      rw [List.length_cons] at longer
      omega
  | succ n ih =>
    cases left : pending.dropWhile (· ∈ visited) with
    | nil => exact ⟨_, walk_of_drained left, fun a member => met a (List.mem_reverse.1 member)⟩
    | cons a rest =>
      have new : a ∉ visited := by simpa using of_dropWhile_eq_cons left
      have nodup' := List.nodup_cons.2 ⟨new, nodup⟩
      have waits : ∀ b ∈ a :: rest, P b := fun b member =>
        waiting b ((List.dropWhile_suffix _).mem (left ▸ member))
      obtain ⟨successors, goes, inside⟩ := closed a (waits a List.mem_cons_self)
      have waiting' : ∀ b ∈ successors.reverse ++ rest, P b := by
        intro b member
        rcases List.mem_append.1 member with member | member
        · exact inside b (List.mem_reverse.1 member)
        · exact waits b (List.mem_cons_of_mem a member)
      have room' : bound ≤ n + (a :: visited).length := by
        rw [List.length_cons]
        omega
      obtain ⟨result, succeeds, holds⟩ := ih room' nodup' waiting'
        (List.forall_mem_cons.2 ⟨waits a List.mem_cons_self, met⟩)
      refine ⟨result, ?_, holds⟩
      rw [walk_of_left left, goes]
      exact succeeds

/-- A walk that comes to an end has visited all that was pending, and with every element its
successors. -/
theorem walk_closed {n : Nat} {pending visited result : List α}
    (walked : walk next n pending visited = .ok result)
    (front : ∀ a ∈ visited, ∃ successors, next a = .ok successors ∧
      ∀ b ∈ successors, b ∈ visited ∨ b ∈ pending) :
    (∀ a, a ∈ visited ∨ a ∈ pending → a ∈ result) ∧
      ∀ a ∈ result, ∃ successors, next a = .ok successors ∧ ∀ b ∈ successors, b ∈ result := by
  refine walk_induction (motive := fun _ pending visited =>
    (∀ a ∈ visited, ∃ successors, next a = .ok successors ∧
      ∀ b ∈ successors, b ∈ visited ∨ b ∈ pending) →
    (∀ a, a ∈ visited ∨ a ∈ pending → a ∈ result) ∧
      ∀ a ∈ result, ∃ successors, next a = .ok successors ∧ ∀ b ∈ successors, b ∈ result)
    ?_ ?_ walked front
  · intro n pending visited left ended front
    exact ended ▸ visited_of_drained left front
  · intro n pending visited a rest successors left goes ih front
    -- what was visited or pending is visited now, or is still pending
    have moved : ∀ b, b ∈ visited ∨ b ∈ pending →
        b ∈ a :: visited ∨ b ∈ successors.reverse ++ rest := by
      rintro b (met | waits)
      · exact .inl (List.mem_cons_of_mem a met)
      · rcases mem_dropWhile (· ∈ visited) waits with met | waits
        · exact .inl (List.mem_cons_of_mem a (by simpa using met))
        · rw [left] at waits
          rcases List.mem_cons.1 waits with rfl | waits
          · exact .inl List.mem_cons_self
          · exact .inr (List.mem_append_right _ waits)
    have front' : ∀ b ∈ a :: visited, ∃ successors', next b = .ok successors' ∧
        ∀ c ∈ successors', c ∈ a :: visited ∨ c ∈ successors.reverse ++ rest := by
      refine List.forall_mem_cons.2 ⟨⟨successors, goes, fun b member => ?_⟩, fun b met => ?_⟩
      · exact .inr (List.mem_append_left _ (List.mem_reverse.2 member))
      · obtain ⟨successors', goes', inside⟩ := front b met
        exact ⟨successors', goes', fun c member => moved c (inside c member)⟩
    obtain ⟨reached, closed⟩ := ih front'
    exact ⟨fun b met => reached b (moved b met), closed⟩

/-- A walk from an element, among finitely many, visits exactly what steps lead to. -/
theorem walk_reaches {step : α → α → Prop} {bound n : Nat}
    (short : ∀ l : List α, l.Nodup → (∀ b ∈ l, Relation.ReflTransGen step a b) → l.length ≤ bound)
    (reads : ∀ b, Relation.ReflTransGen step a b →
      ∃ successors, next b = .ok successors ∧ ∀ c, c ∈ successors ↔ step b c) (room : bound ≤ n) :
    ∃ result, walk next n [a] [] = .ok result ∧
      ∀ b, b ∈ result ↔ Relation.ReflTransGen step a b := by
  have closed : ∀ b, Relation.ReflTransGen step a b → ∃ successors, next b = .ok successors ∧
      ∀ c ∈ successors, Relation.ReflTransGen step a c := by
    intro b reaches
    obtain ⟨successors, goes, steps⟩ := reads b reaches
    exact ⟨successors, goes, fun c member => reaches.tail ((steps c).1 member)⟩
  have start : ∀ b ∈ [a], Relation.ReflTransGen step a b :=
    fun b member => List.mem_singleton.1 member ▸ .refl
  obtain ⟨result, walked, inside⟩ := walk_spec short closed room List.nodup_nil start nofun
  obtain ⟨started, passed⟩ := walk_closed walked nofun
  refine ⟨result, walked, fun b => ⟨inside b, fun reaches => ?_⟩⟩
  induction reaches with
  | refl => exact started a (.inr (List.mem_singleton_self a))
  | @tail b c before step ih =>
    obtain ⟨successors, goes, steps⟩ := reads b before
    obtain ⟨successors', goes', visited⟩ := passed b ih
    obtain rfl := Except.ok.inj (goes.symm.trans goes')
    exact visited c ((steps c).2 step)

/-- Walks with different numbers of rounds that come to an end visit the same. -/
theorem walk_unique {n m : Nat} {pending visited result result' : List α}
    (walked : walk next n pending visited = .ok result)
    (walked' : walk next m pending visited = .ok result') : result = result' := by
  refine walk_induction (motive := fun _ pending visited =>
    ∀ {m}, walk next m pending visited = .ok result' → result = result') ?_ ?_ walked walked'
  · intro n pending visited left ended m walked'
    rw [walk_of_drained left, ended] at walked'
    exact Except.ok.inj walked'
  · intro n pending visited a rest successors left goes ih m walked'
    cases m with
    | zero =>
      unfold walk at walked'
      simp [left] at walked'
    | succ m =>
      rw [walk_of_left left, goes] at walked'
      exact ih walked'

section Correspondence

variable {β : Type} [DecidableEq β] {next' : β → Except Fault (List β)} {R : α → β → Prop}
variable {pending visited result : List α} {pending' visited' : List β}
variable (oneToOne : ∀ {a a' b b'}, R a b → R a' b' → (a = a' ↔ b = b'))

include oneToOne

/-- What is passed over on one of two stacks is passed over on the other. -/
theorem dropWhile_forall₂ (waiting : List.Forall₂ R pending pending')
    (met : List.Forall₂ R visited visited') :
    List.Forall₂ R (pending.dropWhile (· ∈ visited)) (pending'.dropWhile (· ∈ visited')) := by
  induction waiting with
  | nil => exact .nil
  | @cons a b rest rest' first others ih =>
    have same := mem_iff_of_forall₂ oneToOne first met
    by_cases old : a ∈ visited
    · rw [List.dropWhile_cons_of_pos (by simpa using old),
        List.dropWhile_cons_of_pos (by simpa using same.1 old)]
      exact ih
    · rw [List.dropWhile_cons_of_neg (by simpa using old),
        List.dropWhile_cons_of_neg (by simpa using fun new => old (same.2 new))]
      exact .cons first others

/-- Two walks over elements that correspond one to one, and with them their successors, visit
elements that correspond, in the same order. -/
theorem walk_forall₂ {n : Nat} (corresponds : ∀ {a b}, R a b → ∃ successors successors',
      next a = .ok successors ∧ next' b = .ok successors' ∧ List.Forall₂ R successors successors')
    (waiting : List.Forall₂ R pending pending') (met : List.Forall₂ R visited visited')
    (walked : walk next n pending visited = .ok result) :
    ∃ result', walk next' n pending' visited' = .ok result' ∧ List.Forall₂ R result result' := by
  refine walk_induction (motive := fun n pending visited => ∀ {pending' visited'},
    List.Forall₂ R pending pending' → List.Forall₂ R visited visited' →
    ∃ result', walk next' n pending' visited' = .ok result' ∧ List.Forall₂ R result result')
    ?_ ?_ walked waiting met
  · intro n pending visited left ended pending' visited' waiting met
    have passed := dropWhile_forall₂ oneToOne waiting met
    rw [left, List.forall₂_nil_left_iff] at passed
    exact ⟨_, walk_of_drained passed, ended ▸ List.rel_reverse met⟩
  · intro n pending visited a rest successors left goes ih pending' visited' waiting met
    have passed := dropWhile_forall₂ oneToOne waiting met
    rw [left, List.forall₂_cons_left_iff] at passed
    obtain ⟨b, rest', first, others, left'⟩ := passed
    obtain ⟨listed, successors', goes', goes'', onward⟩ := corresponds first
    obtain rfl := Except.ok.inj (goes.symm.trans goes')
    rw [walk_of_left left', goes'']
    exact ih (List.rel_append (List.rel_reverse onward) others) (.cons first met)

end Correspondence

end Walk

end Inquest
