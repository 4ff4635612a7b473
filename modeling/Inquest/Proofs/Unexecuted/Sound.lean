import Inquest.Proofs.Unexecuted.Growth
import Inquest.Proofs.Unexecuted.Reference

/-!
# The invariant of a question

Explaining a node leaves the graph in intermediate states: some nodes are being explained, and
an explained node may still lack a link to one of those.  `Question.Sound` says what holds in all
of these states, and each of the small changes that an explanation consists of is shown to keep
it.

The delicate part is `Question.Sound.complete`.  An explained node is linked to everything that
decides it, except to nodes that were being explained when it was finished.  Such a node lies
below it on the way that the explanation took, so once that node is finished too it reaches the
explained one along links.  Until then it is being explained, and this is the exception that the
invariant makes.

## Main Definitions

* `Question.incoming`, `Question.outgoing` - the links of a node
* `Question.Reaches` - a node leads to another along the links to what decided it
* `Question.Sound` - the invariant

## Main Statements

* `Question.Sound.fresh` - it holds of a question that nobody has asked anything
* `Question.Sound.of_same_links` - a step that touches no link keeps it
* `Question.Sound.appends`, `Question.Sound.begin` - appending and opening nodes keeps it
-/

namespace Inquest

/-- A node that is being explained: what its analysis saw is noted, and nothing else is known. -/
def Scope.opened (s : Scope) (k : InstructionId × Expectation) : Unexecuted where
  instruction := k.1
  expectation := k.2
  status := .inProgress
  others := (s.analyse k.1 k.2).others
  methodExecution := (s.analyse k.1 k.2).methodExecution

/-- What a node says is right: nothing before it is visited, what its analysis saw while it is
being explained, and its reason when it is explained. -/
structure Scope.Fits (s : Scope) (n : Unexecuted) : Prop where
  unvisited : n.status = .unvisited → n = Question.unvisited n.key
  opened : n.status = .inProgress → n = s.opened n.key
  reason : n.status = .done → s.reasonOf n.instruction n.expectation = .ok n.reason
  others : n.status = .done → n.others = (s.analyse n.instruction n.expectation).others
  methodExecution : n.status = .done →
    n.methodExecution = (s.analyse n.instruction n.expectation).methodExecution

theorem Scope.fits_unvisited (s : Scope) (k : InstructionId × Expectation) :
    s.Fits (Question.unvisited k) := by
  refine ⟨fun _ => rfl, ?_, ?_, ?_, ?_⟩ <;> intro other <;> cases other

theorem Scope.fits_opened (s : Scope) (k : InstructionId × Expectation) :
    s.Fits (s.opened k) := by
  refine ⟨?_, fun _ => rfl, ?_, ?_, ?_⟩ <;> intro other <;> cases other

theorem Scope.Fits.of_bare {s : Scope} {m n : Unexecuted} (fits : s.Fits n)
    (done : n.status = .done) (same : m.bare = n.bare) : s.Fits m := by
  have status := Unexecuted.status_of_bare same
  have key := Unexecuted.key_of_bare same
  have instruction : m.instruction = n.instruction := congrArg Prod.fst key
  have expectation : m.expectation = n.expectation := congrArg Prod.snd key
  refine ⟨fun other => ?_, fun other => ?_, fun _ => ?_, fun _ => ?_, fun _ => ?_⟩
  · rw [status, done] at other
    cases other
  · rw [status, done] at other
    cases other
  · rw [instruction, expectation, Unexecuted.reason_of_bare same]
    exact fits.reason done
  · rw [instruction, expectation, Unexecuted.others_of_bare same]
    exact fits.others done
  · rw [instruction, expectation, Unexecuted.methodExecution_of_bare same]
    exact fits.methodExecution done

namespace Question

variable {q q' : Question} {a b c id : UnexecutedId} {m n : Unexecuted}
variable {k : InstructionId × Expectation}

/-! ### Links and status by identifier -/

/-- The nodes that decided a node. -/
def incoming (q : Question) (id : UnexecutedId) : IdentSet .unexecuted :=
  ((q.node? id).map Unexecuted.incoming).getD ∅

/-- The nodes that a node decided. -/
def outgoing (q : Question) (id : UnexecutedId) : IdentSet .unexecuted :=
  ((q.node? id).map Unexecuted.outgoing).getD ∅

/-- How far the explanation of a node has come. -/
def status? (q : Question) (id : UnexecutedId) : Option Status :=
  (q.node? id).map Unexecuted.status

/-- Whether the graph has a node and it is explained. -/
def done (q : Question) (id : UnexecutedId) : Bool := q.status? id = some .done

theorem incoming_of_node? (found : q.node? a = some n) : q.incoming a = n.incoming := by
  simp [incoming, found]

theorem outgoing_of_node? (found : q.node? a = some n) : q.outgoing a = n.outgoing := by
  simp [outgoing, found]

theorem status?_of_node? (found : q.node? a = some n) : q.status? a = some n.status := by
  simp [status?, found]

theorem exists_of_mem_incoming (linked : c ∈ q.incoming a) :
    ∃ n, q.node? a = some n ∧ c ∈ n.incoming := by
  cases found : q.node? a with
  | none =>
    rw [incoming, found] at linked
    exact absurd linked IdentSet.not_mem_empty
  | some n => exact ⟨n, rfl, by simpa [incoming, found] using linked⟩

/-- The effect was decided by the cause. -/
def DecidedBy (q : Question) (effect cause : UnexecutedId) : Prop := cause ∈ q.incoming effect

/-- The first node leads to the second one along the links to what decided it. -/
def Reaches (q : Question) : UnexecutedId → UnexecutedId → Prop :=
  Relation.ReflTransGen q.DecidedBy

/-- The second node stands for one of the instructions that decide the first one. -/
def HasDecider (q : Question) (effect cause : UnexecutedId) : Prop :=
  ∃ k decider, q.key? effect = some k ∧ q.key? cause = some decider ∧
    decider ∈ q.scope.decidersOf k.1 k.2

/-! ### The invariant -/

/-- What holds in every state of a question, also while nodes are being explained. -/
structure Sound (q : Question) : Prop where
  /-- The table says what every node stands for. -/
  indexed : q.Indexed
  /-- Every node says what is right. -/
  fits : ∀ {a n}, q.node? a = some n → q.scope.Fits n
  /-- Everything that decides an explained node has a node, to which it is linked, which reaches
  it, or which is still being explained. -/
  complete : ∀ {a n k}, q.node? a = some n → n.status = .done →
    k ∈ q.scope.decidersOf n.instruction n.expectation →
    ∃ c, q.key? c = some k ∧
      (c ∈ n.incoming ∨ q.Reaches c a ∨ q.status? c = some .inProgress)
  /-- A link is known at both of its ends. -/
  twoEnded : ∀ {a c}, c ∈ q.incoming a ↔ a ∈ q.outgoing c
  /-- Links go from an explained node to an explained node that decides it. -/
  linked : ∀ {a c}, c ∈ q.incoming a →
    q.HasDecider a c ∧ q.status? a = some .done ∧ q.status? c = some .done
  /-- Links go downward: nodes were finished in some order. -/
  ranked : ∃ rank : UnexecutedId → Nat, ∀ {a c}, c ∈ q.incoming a → rank c < rank a

namespace Sound

/-- The question that nobody has asked anything. -/
theorem fresh (s : Scope) : Sound { scope := s } := by
  have nothing : ∀ a, Question.node? { scope := s } a = none := fun a => by simp [node?]
  have unlinked : ∀ {a c}, ¬ c ∈ Question.incoming { scope := s } a := by
    intro a c linked
    rw [incoming, nothing] at linked
    exact IdentSet.not_mem_empty linked
  refine ⟨?_, ?_, ?_, ?_, ?_, ⟨fun _ => 0, ?_⟩⟩
  · exact indexed_fresh s
  · intro a n found
    simp [nothing] at found
  · intro a n k found
    simp [nothing] at found
  · intro a c
    refine ⟨fun linked => absurd linked unlinked, fun linked => ?_⟩
    rw [outgoing, nothing] at linked
    exact absurd linked IdentSet.not_mem_empty
  · intro a c linked
    exact absurd linked unlinked
  · intro a c linked
    exact absurd linked unlinked

variable (sound : Sound q)

include sound

theorem distinct : q.Distinct := sound.indexed.distinct

/-- A node with a link to what decided it is explained. -/
theorem done_of_reaches (reaches : q.Reaches c a) (other : c ≠ a) :
    q.status? c = some .done := by
  rcases Relation.ReflTransGen.cases_head reaches with same | ⟨b, step, -⟩
  · exact absurd same other
  · exact (sound.linked step).2.1

/-- What decides an explained node has been visited. -/
theorem visited_of_decider (found : q.node? a = some n) (done : n.status = .done)
    (decides : k ∈ q.scope.decidersOf n.instruction n.expectation) (stands : q.key? c = some k) :
    q.status? c ≠ some .unvisited := by
  obtain ⟨c', stands', reason⟩ := sound.complete found done decides
  obtain rfl := sound.distinct stands stands'
  intro unvisited
  rcases reason with linked | reaches | opened
  · have finished := (sound.linked (incoming_of_node? found ▸ linked)).2.2
    rw [unvisited] at finished
    cases finished
  · by_cases same : c = a
    · subst same
      rw [status?_of_node? found, done] at unvisited
      cases unvisited
    · rw [sound.done_of_reaches reaches same] at unvisited
      cases unvisited
  · rw [unvisited] at opened
    cases opened

end Sound

/-! ### Links that stay the same -/

/-- Where a node leads depends on the links only. -/
theorem reaches_of_incoming (same : ∀ a, q'.incoming a = q.incoming a) :
    q'.Reaches = q.Reaches := by
  have edges : q'.DecidedBy = q.DecidedBy := by
    funext a c
    simp only [DecidedBy, same]
  simp only [Reaches, edges]

/-- More links lead further. -/
theorem Reaches.mono (more : ∀ {a c}, c ∈ q.incoming a → c ∈ q'.incoming a)
    (reaches : q.Reaches c a) : q'.Reaches c a :=
  Relation.ReflTransGen.mono (fun _ _ step => more step) c a reaches

theorem incoming_of_appends (appends : q.Appends q') (a : UnexecutedId) :
    q'.incoming a = q.incoming a := by
  rcases appends.node?_cases a with same | ⟨missing, k, fresh⟩
  · simp only [incoming, same]
  · simp [incoming, missing, fresh, unvisited]

theorem outgoing_of_appends (appends : q.Appends q') (a : UnexecutedId) :
    q'.outgoing a = q.outgoing a := by
  rcases appends.node?_cases a with same | ⟨missing, k, fresh⟩
  · simp only [outgoing, same]
  · simp [outgoing, missing, fresh, unvisited]

theorem status?_of_appends {status : Status} (appends : q.Appends q')
    (known : q.status? a = some status) : q'.status? a = some status := by
  obtain ⟨n, found, rfl⟩ := Option.map_eq_some_iff.1 known
  exact status?_of_node? (appends.kept found)

theorem HasDecider.mono (scope : q'.scope = q.scope)
    (keys : ∀ {a k}, q.key? a = some k → q'.key? a = some k) (decides : q.HasDecider a c) :
    q'.HasDecider a c := by
  obtain ⟨k, decider, effect, cause, member⟩ := decides
  exact ⟨k, decider, keys effect, keys cause, by rwa [scope]⟩

/-- A step that touches no link and no node that somebody has visited keeps the invariant, if the
nodes that it changes or brings along fit and are not explained. -/
theorem Sound.of_same_links (sound : Sound q) (scope : q'.scope = q.scope)
    (indexed : q'.Indexed) (keys : ∀ {a k}, q.key? a = some k → q'.key? a = some k)
    (incoming : ∀ a, q'.incoming a = q.incoming a) (outgoing : ∀ a, q'.outgoing a = q.outgoing a)
    (status : ∀ {a status}, status ≠ .unvisited → q.status? a = some status →
      q'.status? a = some status)
    (nodes : ∀ {a n}, q'.node? a = some n →
      q.node? a = some n ∨ q.scope.Fits n ∧ n.status ≠ .done) : Sound q' := by
  refine ⟨indexed, fun {a n} found => ?_, fun {a n k} found done decides => ?_,
    fun {a c} => ?_, fun {a c} linked => ?_, ?_⟩
  · rw [scope]
    rcases nodes found with old | ⟨fits, -⟩
    · exact sound.fits old
    · exact fits
  · rcases nodes found with old | ⟨-, unexplained⟩
    · rw [scope] at decides
      obtain ⟨c, stands, reason⟩ := sound.complete old done decides
      refine ⟨c, keys stands, reason.imp_right (Or.imp (fun reaches => ?_) fun opened => ?_)⟩
      · rwa [reaches_of_incoming incoming]
      · exact status (by simp) opened
    · exact absurd done unexplained
  · rw [incoming, outgoing]
    exact sound.twoEnded
  · rw [incoming] at linked
    obtain ⟨decides, effect, cause⟩ := sound.linked linked
    exact ⟨decides.mono scope keys, status (by simp) effect, status (by simp) cause⟩
  · obtain ⟨rank, below⟩ := sound.ranked
    refine ⟨rank, fun {a c} linked => below ?_⟩
    rwa [incoming] at linked

/-- Appending unvisited nodes keeps the invariant. -/
theorem Sound.appends (sound : Sound q) (appends : q.Appends q') : Sound q' := by
  refine sound.of_same_links appends.scope (appends.indexed sound.indexed) appends.key?
    (incoming_of_appends appends) (outgoing_of_appends appends) ?_ ?_
  · intro a status _ known
    exact status?_of_appends appends known
  · intro a n found
    refine (appends.fresh found).imp_right fun ⟨_, fresh⟩ => ?_
    rw [fresh]
    refine ⟨Scope.fits_unvisited _ _, fun done => ?_⟩
    cases done

/-! ### Opening a node -/

theorem node?_begin_self (found : q.node? id = some n) (fresh : n = unvisited n.key) :
    (q.begin id (q.scope.analyse n.instruction n.expectation)).node? id =
      some (q.scope.opened n.key) := by
  rw [begin, node?_modify_self _ found, fresh]
  rfl

/-- Opening an unvisited node keeps the invariant.  Nothing is linked to such a node, and no
explained node waits for it. -/
theorem Sound.begin (sound : Sound q) (found : q.node? id = some n)
    (fresh : n.status = .unvisited) :
    Sound (q.begin id (q.scope.analyse n.instruction n.expectation)) := by
  have blank := (sound.fits found).unvisited fresh
  have self := node?_begin_self found blank
  have other : ∀ {a}, a ≠ id →
      (q.begin id (q.scope.analyse n.instruction n.expectation)).node? a = q.node? a :=
    fun different => node?_modify_of_ne _ different
  revert self other
  generalize opened : q.begin id (q.scope.analyse n.instruction n.expectation) = q'
  intro self other
  have scope : q'.scope = q.scope := by rw [← opened, Question.begin, scope_modify]
  have key : ∀ a, q'.key? a = q.key? a := by
    intro a
    by_cases same : a = id
    · subst same
      rw [key?_of_node? self, key?_of_node? found]
      rfl
    · rw [key?, key?, other same]
  have table : q'.index = q.index := by rw [← opened, Question.begin, index_modify]
  refine sound.of_same_links scope (sound.indexed.of_key? table key)
    (fun {a k} stands => (key a).trans stands) (fun a => ?_) (fun a => ?_)
    (fun {a status} visited known => ?_) fun {a m} known => ?_
  · by_cases same : a = id
    · subst same
      rw [incoming_of_node? self, incoming_of_node? found, blank]
      rfl
    · rw [Question.incoming, Question.incoming, other same]
  · by_cases same : a = id
    · subst same
      rw [outgoing_of_node? self, outgoing_of_node? found, blank]
      rfl
    · rw [Question.outgoing, Question.outgoing, other same]
  · by_cases same : a = id
    · subst same
      rw [status?_of_node? found, fresh] at known
      exact absurd (Option.some.inj known).symm visited
    · rwa [status?, other same]
  · by_cases same : a = id
    · subst same
      rw [self] at known
      cases known
      refine .inr ⟨q.scope.fits_opened n.key, fun done => ?_⟩
      cases done
    · exact .inl ((other same).symm.trans known)

end Question

end Inquest
