import Inquest.Proofs.Unexecuted.Finish
import Inquest.Proofs.Unexecuted.Horizon

/-!
# Visiting nodes

Visiting a node explains it and everything that it leads to.  Whatever the graph looks like, a
visit succeeds, it keeps the invariant, and it touches no more than it has to: a node that is
explained already keeps its explanation, a node that is being explained stays as it is, and every
node that the visit explains is reached from the visited one.

The bound on the nesting of visits is never used up.  Below a node there is room for as many
further visits as there are instructions, under the expectations of its horizon, that nobody has
visited; opening a node takes one of these away, and only an instruction of the program leads any
further.

## Main Definitions

* `Unexecuted.Evolves` - how a node may change while others are visited
* `Question.Explored` - what some visits did to a question
* `Question.remaining` - the room that is left for further visits

## Main Statements

* `Question.Explored.trans` - visits one after the other
* `Question.visit_cases` - everything that a visit can do
* `Question.visit_explored` - a visit succeeds, and it explores
-/

namespace Inquest

/-- A node may change while others are visited: not while it is being explained, and not its
explanation once it has one. -/
structure Unexecuted.Evolves (n n' : Unexecuted) : Prop where
  key : n'.key = n.key
  opened : n.status = .inProgress → n' = n
  bare : n.status = .done → n'.bare = n.bare
  incoming : n.status = .done → n'.incoming = n.incoming
  outgoing : n.status = .done → ∀ e ∈ n.outgoing, e ∈ n'.outgoing

namespace Unexecuted.Evolves

variable {n n' n'' : Unexecuted}

theorem refl (n : Unexecuted) : n.Evolves n :=
  ⟨rfl, fun _ => rfl, fun _ => rfl, fun _ => rfl, fun _ _ member => member⟩

theorem done (evolves : n.Evolves n') (done : n.status = .done) : n'.status = .done :=
  (Unexecuted.status_of_bare (evolves.bare done)).trans done

theorem trans (first : n.Evolves n') (second : n'.Evolves n'') : n.Evolves n'' := by
  refine ⟨second.key.trans first.key, fun opened => ?_, fun done => ?_, fun done => ?_,
    fun done e member => ?_⟩
  · obtain rfl := first.opened opened
    exact second.opened opened
  · exact (second.bare (first.done done)).trans (first.bare done)
  · exact (second.incoming (first.done done)).trans (first.incoming done)
  · exact second.outgoing (first.done done) e (first.outgoing done e member)

end Unexecuted.Evolves

namespace Question

variable {q q' q'' : Question} {a b c id : UnexecutedId} {m n : Unexecuted}
variable {k : InstructionId × Expectation} {roots : List UnexecutedId} {x : Expectation}

/-! ### Explorations -/

/-- The question `q'` came from `q` by visiting the nodes `roots`. -/
structure Explored (q : Question) (roots : List UnexecutedId) (q' : Question) : Prop where
  sound : Sound q'
  scope : q'.scope = q.scope
  /-- Every node is still there, and changed as it may. -/
  evolves : ∀ {a n}, q.node? a = some n → ∃ n', q'.node? a = some n' ∧ n.Evolves n'
  /-- No node was left half explained. -/
  opened : ∀ {a}, q'.status? a = some .inProgress → q.status? a = some .inProgress
  /-- Every new node is explained. -/
  fresh : ∀ {a n}, q'.node? a = some n → q.size ≤ a.index → n.status = .done
  /-- What was explained is reached from one of the visited nodes. -/
  reached : ∀ {a}, q'.status? a = some .done →
    q.status? a = some .done ∨ ∃ r ∈ roots, q'.status? r = some .done ∧ q'.Reaches r a
  /-- The visited nodes are explained, or are being explained. -/
  visited : ∀ r ∈ roots, q'.status? r = some .done ∨ q'.status? r = some .inProgress

namespace Explored

theorem refl (sound : Sound q) : q.Explored [] q where
  sound := sound
  scope := rfl
  evolves found := ⟨_, found, .refl _⟩
  opened := id
  fresh found beyond := absurd (lt_size_of_node? found) (Nat.not_lt.2 beyond)
  reached := .inl
  visited r member := by cases member

/-- A visit to a node that has been visited before does nothing. -/
theorem of_visited (sound : Sound q)
    (visited : q.status? id = some .done ∨ q.status? id = some .inProgress) :
    q.Explored [id] q :=
  { refl sound with
    reached := .inl
    visited := by
      intro r member
      obtain rfl := List.mem_singleton.1 member
      exact visited }

variable (explored : q.Explored roots q')

include explored

theorem key? (stands : q.key? a = some k) : q'.key? a = some k := by
  obtain ⟨n, found, rfl⟩ := key?_eq_some_iff.1 stands
  obtain ⟨n', found', evolves⟩ := explored.evolves found
  exact key?_eq_some_iff.2 ⟨n', found', evolves.key⟩

theorem status?_done (done : q.status? a = some .done) : q'.status? a = some .done := by
  obtain ⟨n, found, done⟩ := Option.map_eq_some_iff.1 done
  obtain ⟨n', found', evolves⟩ := explored.evolves found
  rw [status?_of_node? found', evolves.done done]

/-- A node that is being explained stays as it is. -/
theorem node?_opened (found : q.node? a = some n) (opened : n.status = .inProgress) :
    q'.node? a = some n := by
  obtain ⟨n', found', evolves⟩ := explored.evolves found
  rwa [evolves.opened opened] at found'

theorem status?_opened (opened : q.status? a = some .inProgress) :
    q'.status? a = some .inProgress := by
  obtain ⟨n, found, opened⟩ := Option.map_eq_some_iff.1 opened
  rw [status?_of_node? (explored.node?_opened found opened), opened]

theorem size_le : q.size ≤ q'.size := by
  by_contra shrinks
  obtain ⟨n, found⟩ := q.exists_node?_of_lt ⟨q'.size⟩ (Nat.lt_of_not_le shrinks)
  obtain ⟨n', found', -⟩ := explored.evolves found
  exact absurd (lt_size_of_node? found') (Nat.lt_irrefl _)

/-- Links are kept. -/
theorem incoming_mono (sound : Sound q) (linked : c ∈ q.incoming a) : c ∈ q'.incoming a := by
  obtain ⟨n, found, member⟩ := exists_of_mem_incoming linked
  have done := (sound.linked linked).2.1
  rw [status?_of_node? found, Option.some.injEq] at done
  obtain ⟨n', found', evolves⟩ := explored.evolves found
  rwa [incoming_of_node? found', evolves.incoming done]

end Explored

/-- Visits one after the other. -/
theorem Explored.trans {others : List UnexecutedId} (first : q.Explored roots q')
    (second : q'.Explored others q'') : q.Explored (roots ++ others) q'' where
  sound := second.sound
  scope := second.scope.trans first.scope
  evolves found := by
    obtain ⟨n', found', evolves⟩ := first.evolves found
    obtain ⟨n'', found'', evolves'⟩ := second.evolves found'
    exact ⟨n'', found'', evolves.trans evolves'⟩
  opened opened := first.opened (second.opened opened)
  fresh := by
    intro a n found beyond
    by_cases later : q'.size ≤ a.index
    · exact second.fresh found later
    · obtain ⟨n', found'⟩ := q'.exists_node?_of_lt a (Nat.lt_of_not_le later)
      obtain ⟨n'', found'', evolves⟩ := second.evolves found'
      rw [found] at found''
      cases found''
      exact evolves.done (first.fresh found' beyond)
  reached := by
    intro a done
    rcases second.reached done with done' | ⟨r, member, finished, reaches⟩
    · rcases first.reached done' with old | ⟨r, member, finished, reaches⟩
      · exact .inl old
      · exact .inr ⟨r, List.mem_append_left _ member, second.status?_done finished,
          reaches.mono (second.incoming_mono first.sound)⟩
    · exact .inr ⟨r, List.mem_append_right _ member, finished, reaches⟩
  visited := by
    intro r member
    rcases List.mem_append.1 member with member | member
    · exact (first.visited r member).imp second.status?_done second.status?_opened
    · exact second.visited r member

/-! ### One visit -/

/-- The question `q'` is `q` with the unvisited node `id` opened and the nodes `children` of its
deciders made. -/
structure Opened (q : Question) (id : UnexecutedId) (n : Unexecuted)
    (children : List UnexecutedId) (q' : Question) : Prop where
  sound : Sound q'
  scope : q'.scope = q.scope
  self : q'.node? id = some (q.scope.opened n.key)
  other : ∀ {a m}, a ≠ id → q.node? a = some m → q'.node? a = some m
  origin : ∀ {a m}, a ≠ id → q'.node? a = some m →
    q.node? a = some m ∨ m.status = .unvisited ∧ q.size ≤ a.index ∧ a ∈ children
  keys : children.map q'.key? = (q.scope.decidersOf n.instruction n.expectation).map some

theorem opened_internAll (sound : Sound q) (found : q.node? id = some n)
    (fresh : n.status = .unvisited) :
    q.Opened id n
      ((q.begin id (q.scope.analyse n.instruction n.expectation)).internAll
        (q.scope.decidersOf n.instruction n.expectation)).2
      ((q.begin id (q.scope.analyse n.instruction n.expectation)).internAll
        (q.scope.decidersOf n.instruction n.expectation)).1 := by
  have begun := sound.begin found fresh
  have self := node?_begin_self found ((sound.fits found).unvisited fresh)
  have other : ∀ {a}, a ≠ id →
      (q.begin id (q.scope.analyse n.instruction n.expectation)).node? a = q.node? a :=
    fun different => node?_modify_of_ne _ different
  have size : (q.begin id (q.scope.analyse n.instruction n.expectation)).size = q.size := by
    simp [Question.begin, modify, Question.size]
  have appends := (q.begin id (q.scope.analyse n.instruction n.expectation)).appends_internAll
    (q.scope.decidersOf n.instruction n.expectation)
  refine ⟨begun.appends appends, appends.scope.trans rfl, appends.kept self,
    fun different known => appends.kept ((other different).trans known),
    fun different known => ?_, map_key?_internAll begun.indexed _⟩
  rcases appends.fresh known with old | ⟨beyond, blank⟩
  · exact .inl ((other different).symm.trans old)
  · exact .inr ⟨by rw [blank]; rfl, size ▸ beyond,
      mem_internAll_of_beyond _ beyond (lt_size_of_node? known)⟩

/-- Every node that is being explained depends on others. -/
def Undecided (q : Question) : Prop :=
  ∀ {a k}, q.status? a = some .inProgress → q.key? a = some k →
    (q.scope.analyse k.1 k.2).verdict.isFinal = false

theorem Explored.undecided (explored : q.Explored roots q') (undecided : q.Undecided) :
    q'.Undecided := by
  intro a k waits stands
  have waits := explored.opened waits
  obtain ⟨n, found, -⟩ := Option.map_eq_some_iff.1 waits
  have stands' := key?_of_node? found
  obtain rfl : n.key = k := Option.some.inj ((explored.key? stands').symm.trans stands)
  rw [explored.scope]
  exact undecided waits stands'

namespace Opened

variable {children : List UnexecutedId} (opening : q.Opened id n children q')

include opening

theorem status?_self : q'.status? id = some .inProgress := by
  rw [status?_of_node? opening.self]
  rfl

theorem key?_self : q'.key? id = some n.key := by
  rw [key?_of_node? opening.self]
  rfl

/-- What was explained or being explained before was so before the node was opened. -/
theorem status?_of_ne {status : Status} (different : a ≠ id) (visited : status ≠ .unvisited)
    (known : q'.status? a = some status) : q.status? a = some status := by
  obtain ⟨m, found, rfl⟩ := Option.map_eq_some_iff.1 known
  rcases opening.origin different found with old | ⟨unvisited, -⟩
  · exact status?_of_node? old
  · exact absurd unvisited visited

theorem undecided (undecided : q.Undecided)
    (open' : (q.scope.analyse n.instruction n.expectation).verdict.isFinal = false) :
    q'.Undecided := by
  intro a k waits stands
  rw [opening.scope]
  by_cases same : a = id
  · subst same
    rw [opening.key?_self, Option.some.injEq] at stands
    subst stands
    exact open'
  · obtain ⟨m, found, rfl⟩ := key?_eq_some_iff.1 stands
    rcases opening.origin same found with old | ⟨unvisited, -⟩
    · exact undecided (opening.status?_of_ne same (by simp) waits) (key?_of_node? old)
    · rw [status?_of_node? found, unvisited] at waits
      cases waits

variable (explored : q'.Explored children q'')

include explored

/-- The nodes that were made for the deciders are explained when the deciders are explored. -/
theorem done_of_size_le (different : a ≠ id) (beyond : q.size ≤ a.index)
    (known : q''.node? a = some m) : m.status = .done := by
  by_cases later : q'.size ≤ a.index
  · exact explored.fresh known later
  · obtain ⟨m', known'⟩ := q'.exists_node?_of_lt a (Nat.lt_of_not_le later)
    rcases opening.origin different known' with old | ⟨blank, -, member⟩
    · exact absurd (lt_size_of_node? old) (Nat.not_lt.2 beyond)
    · have explainedOrNot := explored.visited a member
      rw [status?_of_node? known, Option.some.injEq, Option.some.injEq] at explainedOrNot
      refine explainedOrNot.resolve_right fun waits => ?_
      have waits' := explored.opened ((status?_of_node? known).trans (congrArg some waits))
      rw [status?_of_node? known', blank] at waits'
      cases waits'

/-- A node that was explained before does not depend on one that nobody had visited. -/
theorem not_hasDecider (sound : Sound q) (found : q.node? id = some n)
    (unvisited : n.status = .unvisited) (done : q'.status? a = some .done) :
    ¬ q''.HasDecider a id := by
  rintro ⟨k, decider, effect, cause, decides⟩
  have different : a ≠ id := by
    rintro rfl
    rw [opening.status?_self] at done
    cases done
  obtain ⟨m, known, explainedBefore⟩ :=
    Option.map_eq_some_iff.1 (opening.status?_of_ne different (by simp) done)
  rw [explored.key? (key?_of_node? (opening.other different known)), Option.some.injEq] at effect
  rw [explored.key? opening.key?_self, Option.some.injEq] at cause
  rw [explored.scope, opening.scope, ← effect, ← cause] at decides
  refine sound.visited_of_decider known explainedBefore decides (key?_of_node? found) ?_
  rw [status?_of_node? found, unvisited]

end Opened

theorem isDone_of_node? (found : q.node? a = some n) : q.isDone a = .ok (q.done a) := by
  rw [isDone, node_eq_ok_iff.2 found, done, status?_of_node? found]
  exact congrArg Except.ok (by simp)

section Keys

variable {children : List UnexecutedId} {keys : List (InstructionId × Expectation)}

/-- The nodes that stand for a list go on to stand for it. -/
theorem Explored.map_key? (explored : q.Explored roots q')
    (stand : children.map q.key? = keys.map some) : children.map q'.key? = keys.map some := by
  rw [← stand]
  refine List.map_congr_left fun c member => ?_
  obtain ⟨k, -, stands⟩ := key?_of_mem stand member
  rw [stands, explored.key? stands]

end Keys

section Finish

variable {children : List UnexecutedId} (sound : Sound q) (found : q.node? id = some n)
variable (unvisited : n.status = .unvisited) (opening : q.Opened id n children q')
variable (explored : q'.Explored children q'') (undecided : children ≠ [] → q'.Undecided)

include sound found unvisited opening explored undecided

/-- Once its deciders are explored, an opened node can be finished, and the invariant holds. -/
theorem finish_sound :
    ∃ p reason,
      q''.finish id children (q.scope.analyse n.instruction n.expectation).verdict = .ok p ∧
      q''.Finished id (children.filter q''.done) reason p ∧ Sound p := by
  have scope : q''.scope = q.scope := explored.scope.trans opening.scope
  have self : q''.node? id = some (q.scope.opened n.key) :=
    explored.node?_opened opening.self rfl
  have keys := explored.map_key? opening.keys
  have visited : ∀ c ∈ children, q''.Visited c := by
    intro c member
    refine (explored.visited c member).imp_right fun waits => ⟨waits, fun k stands => ?_⟩
    obtain ⟨k', -, stands'⟩ := key?_of_mem opening.keys member
    obtain rfl : k' = k := Option.some.inj ((explored.key? stands').symm.trans stands)
    rw [explored.scope]
    exact undecided (List.ne_nil_of_mem member) (explored.opened waits) stands'
  obtain ⟨reason, settled, -⟩ := q.scope.reasonOf_total n.instruction n.expectation
  have tested : children.filterM q''.isDone = .ok (children.filter q''.done) := by
    refine filterM_eq_ok fun c member => ?_
    obtain ⟨k, -, stands⟩ := key?_of_mem keys member
    obtain ⟨m, known, -⟩ := key?_eq_some_iff.1 stands
    exact isDone_of_node? known
  have given : ((children.filter q''.done).foldl (·.link id ·) q'').reasonFor children
      (q.scope.analyse n.instruction n.expectation).verdict = .ok reason := by
    rw [reasonFor_eq_settle explored.sound keys visited, scope]
    exact settled
  have finished := q''.finished_conclude id (children.filter q''.done) reason
  refine ⟨_, reason, ?_, finished, ?_⟩
  · rw [finish, tested]
    show (Question.reasonFor _ _ _ >>= _) = _
    rw [given]
    rfl
  refine explored.sound.of_finished self rfl finished (by rw [scope]; exact settled) ?_ ?_ ?_ ?_
  · intro c member
    exact of_decide_eq_true (List.mem_filter.1 member).2
  · intro c member
    obtain ⟨k, decides, stands⟩ := key?_of_mem keys (List.mem_filter.1 member).1
    exact ⟨n.key, k, explored.key? opening.key?_self, stands, by rw [scope]; exact decides⟩
  · intro k decides
    rw [scope] at decides
    obtain ⟨c, member, stands⟩ := exists_mem_of_key keys decides
    refine ⟨c, stands, (explored.visited c member).imp_left fun done => ?_⟩
    exact List.mem_filter.2 ⟨member, decide_eq_true done⟩
  · intro a done decides
    rcases explored.reached done with done' | ⟨r, member, finished, reaches⟩
    · exact absurd decides (opening.not_hasDecider explored sound found unvisited done')
    · exact ⟨r, List.mem_filter.2 ⟨member, decide_eq_true finished⟩, reaches⟩

/-- All in all, the node has been explored. -/
theorem finish_explored :
    ∃ p, q''.finish id children (q.scope.analyse n.instruction n.expectation).verdict = .ok p ∧
      q.Explored [id] p := by
  obtain ⟨p, reason, succeeds, finished, soundness⟩ :=
    finish_sound sound found unvisited opening explored undecided
  have self : q''.node? id = some (q.scope.opened n.key) :=
    explored.node?_opened opening.self rfl
  have finishedSelf : p.status? id = some .done := finished.status?_self self
  have notDone : ∀ {a}, a ∈ children.filter q''.done → q''.status? a = some .done :=
    fun member => of_decide_eq_true (List.mem_filter.1 member).2
  refine ⟨p, succeeds, soundness, ?_, fun {a m} known => ?_, fun {a} waits => ?_,
    fun {a m} known beyond => ?_, fun {a} done => ?_, fun r member => ?_⟩
  · rw [finished.scope, explored.scope, opening.scope]
  · by_cases same : a = id
    · subst same
      rw [found] at known
      cases known
      obtain ⟨n', found', bare, -⟩ := finished.self self
      have key : n'.key = n.key := (Unexecuted.key_of_bare bare).trans rfl
      refine ⟨n', found', key, ?_, ?_, ?_, ?_⟩ <;> intro other <;> rw [unvisited] at other <;>
        cases other
    · obtain ⟨m', found', evolves⟩ := explored.evolves (opening.other same known)
      obtain ⟨m'', found'', bare, incoming, outgoing, unlinked⟩ := finished.other same found'
      refine ⟨m'', found'', evolves.trans ⟨Unexecuted.key_of_bare bare, fun waits => ?_,
        fun _ => bare, fun _ => incoming, fun _ e member => (outgoing e).2 (.inl member)⟩⟩
      refine unlinked fun member => ?_
      have done := notDone member
      rw [status?_of_node? found', waits] at done
      cases done
  · have different : a ≠ id := by
      rintro rfl
      rw [finishedSelf] at waits
      cases waits
    rw [finished.status?_of_ne different] at waits
    exact opening.status?_of_ne different (by simp) (explored.opened waits)
  · have different : a ≠ id := by
      rintro rfl
      exact absurd (lt_size_of_node? found) (Nat.not_lt.2 beyond)
    have status : q''.status? a = some m.status := by
      rw [← finished.status?_of_ne different, status?_of_node? known]
    obtain ⟨m'', known'', same⟩ := Option.map_eq_some_iff.1 status
    rw [← same]
    exact opening.done_of_size_le explored different beyond known''
  · by_cases same : a = id
    · subst same
      exact .inr ⟨a, List.mem_singleton_self a, finishedSelf, .refl⟩
    · rw [finished.status?_of_ne same] at done
      rcases explored.reached done with done' | ⟨r, member, explained, reaches⟩
      · exact .inl (opening.status?_of_ne same (by simp) done')
      · have step : p.DecidedBy id r := (finished.mem_incoming self).2
          (.inr ⟨rfl, List.mem_filter.2 ⟨member, decide_eq_true explained⟩⟩)
        have rest : p.Reaches r a :=
          reaches.mono fun linked => (finished.mem_incoming self).2 (.inl linked)
        exact .inr ⟨id, List.mem_singleton_self id, finishedSelf, .head step rest⟩
  · obtain rfl := List.mem_singleton.1 member
    exact .inl finishedSelf

end Finish

/-! ### The room for further visits -/

/-- Whether somebody has visited the node of an instruction under an expectation. -/
def started (q : Question) (k : InstructionId × Expectation) : Bool :=
  q.nodes.any fun n => n.key = k && n.status ≠ .unvisited

theorem started_iff :
    q.started k = true ↔ ∃ a n, q.node? a = some n ∧ n.key = k ∧ n.status ≠ .unvisited := by
  simp only [started, Array.any_eq_true', Array.mem_iff_getElem?, node?, Bool.and_eq_true,
    decide_eq_true_eq]
  constructor
  · rintro ⟨n, ⟨index, found⟩, visited⟩
    exact ⟨⟨index⟩, n, found, visited⟩
  · rintro ⟨a, n, found, visited⟩
    exact ⟨n, ⟨a.index, found⟩, visited⟩

/-- The number of instructions, under expectations that follow from `x`, that nobody has
visited. -/
def remaining (q : Question) (x : Expectation) : Nat :=
  ((q.scope.horizon x).filter (!q.started ·)).length

section Remaining

variable (scope : q'.scope = q.scope) (mono : ∀ {k}, q.started k = true → q'.started k = true)

include scope mono

theorem remaining_le : q'.remaining x ≤ q.remaining x := by
  unfold remaining
  rw [scope]
  refine (List.monotone_filter_right _ fun k left => ?_).length_le
  simp only [Bool.not_eq_true'] at left ⊢
  exact Bool.eq_false_iff.2 fun visited => Bool.eq_false_iff.1 left (mono visited)

theorem remaining_lt (member : k ∈ q.scope.horizon x) (left : q.started k = false)
    (visited : q'.started k = true) : q'.remaining x < q.remaining x := by
  unfold remaining
  rw [scope]
  exact length_filter_not_lt mono member left visited

end Remaining

theorem Explored.started (explored : q.Explored roots q') (visited : q.started k = true) :
    q'.started k = true := by
  obtain ⟨a, n, found, rfl, started⟩ := started_iff.1 visited
  obtain ⟨n', found', evolves⟩ := explored.evolves found
  refine started_iff.2 ⟨a, n', found', evolves.key, ?_⟩
  cases status : n.status with
  | unvisited => exact absurd status started
  | inProgress => rw [evolves.opened status, status]; simp
  | done => rw [evolves.done status]; simp

theorem Opened.started {children : List UnexecutedId} (opening : q.Opened id n children q')
    (found : q.node? id = some n) (unvisited : n.status = .unvisited)
    (visited : q.started k = true) : q'.started k = true := by
  obtain ⟨a, m, known, rfl, started⟩ := started_iff.1 visited
  have different : a ≠ id := by
    rintro rfl
    rw [found, Option.some.injEq] at known
    exact started (known ▸ unvisited)
  exact started_iff.2 ⟨a, m, opening.other different known, rfl, started⟩

/-- Opening a node takes away some of the room. -/
theorem Opened.remaining_lt {children : List UnexecutedId} (opening : q.Opened id n children q')
    (sound : Sound q) (found : q.node? id = some n) (unvisited : n.status = .unvisited)
    (member : n.key ∈ q.scope.horizon x) : q'.remaining x < q.remaining x := by
  refine Question.remaining_lt opening.scope (opening.started found unvisited) member ?_ ?_
  · refine Bool.eq_false_iff.2 fun visited => ?_
    obtain ⟨a, m, known, same, visited⟩ := started_iff.1 visited
    obtain rfl : a = id :=
      sound.distinct (key?_eq_some_iff.2 ⟨m, known, same⟩) (key?_of_node? found)
    rw [found, Option.some.injEq] at known
    exact visited (known ▸ unvisited)
  · exact started_iff.2 ⟨id, _, opening.self, rfl, by simp [Scope.opened]⟩

/-! ### Visits succeed -/

theorem exists_node?_of_visit {depth : Nat} (succeeds : visit depth q id = .ok q') :
    ∃ n, q.node? id = some n := by
  cases found : q.node id with
  | ok n => exact ⟨n, node_eq_ok_iff.1 found⟩
  | error fault => cases depth <;> rw [visit, found] at succeeds <;> cases succeeds

theorem visit_of_visited {depth : Nat} (found : q.node? id = some n)
    (visited : n.status ≠ .unvisited) : visit depth q id = .ok q := by
  cases depth with
  | zero =>
    rw [visit, node_eq_ok_iff.2 found]
    cases status : n.status <;> simp_all [bind, Except.bind]
  | succ depth =>
    rw [visit, node_eq_ok_iff.2 found]
    cases status : n.status <;> simp_all [bind, Except.bind]

theorem visit_succ {depth : Nat} (found : q.node? id = some n)
    (unvisited : n.status = .unvisited) :
    visit (depth + 1) q id =
      (let finding := q.scope.analyse n.instruction n.expectation
       let opened := (q.begin id finding).internAll finding.verdict.children
       opened.2.foldlM (visit depth) opened.1 >>= fun q =>
         q.finish id opened.2 finding.verdict) := by
  rw [visit, node_eq_ok_iff.2 found]
  simp [bind, Except.bind, unvisited]

/-- A visit that succeeds finds a node that has been visited before, or it opens the node, visits
what decides it and finishes it. -/
theorem visit_cases {depth : Nat} (visits : visit depth q id = .ok q') :
    q' = q ∨ ∃ n : Unexecuted, q.node? id = some n ∧ ∃ rest < depth, ∃ p,
      (let finding := q.scope.analyse n.instruction n.expectation
       let opened := (q.begin id finding).internAll finding.verdict.children
       opened.2.foldlM (visit rest) opened.1 = .ok p ∧
         p.finish id opened.2 finding.verdict = .ok q') := by
  obtain ⟨n, found⟩ := exists_node?_of_visit visits
  by_cases unvisited : n.status = .unvisited
  · cases depth with
    | zero =>
      rw [visit, node_eq_ok_iff.2 found] at visits
      simp [bind, Except.bind, unvisited] at visits
    | succ depth =>
      rw [visit_succ found unvisited] at visits
      obtain ⟨p, folded, finished⟩ := bind_eq_ok_iff.1 visits
      exact .inr ⟨n, found, depth, Nat.lt_succ_self depth, p, folded, finished⟩
  · rw [visit_of_visited found unvisited, Except.ok.injEq] at visits
    exact .inl visits.symm

/-- Visits to nodes whose expectations lie in a horizon succeed with a given bound on their
nesting. -/
def Visits (x : Expectation) (depth : Nat) : Prop :=
  ∀ {q id k}, Sound q → q.Undecided → q.key? id = some k →
    k.2 ∈ x.horizon q.scope.trace.program → q.remaining x < depth →
    ∃ q', visit depth q id = .ok q' ∧ q.Explored [id] q'

theorem Visits.foldlM {depth : Nat} (visits : Visits x depth) :
    ∀ {children q}, Sound q → q.Undecided →
      (∀ c ∈ children, ∃ k, q.key? c = some k ∧ k.2 ∈ x.horizon q.scope.trace.program) →
      q.remaining x < depth →
      ∃ q', children.foldlM (visit depth) q = .ok q' ∧ q.Explored children q' := by
  intro children
  induction children with
  | nil => exact fun sound _ _ _ => ⟨_, rfl, .refl sound⟩
  | cons c rest ih =>
    intro q sound undecided within room
    obtain ⟨k, stands, member⟩ := within c List.mem_cons_self
    obtain ⟨q', succeeds, explored⟩ := visits sound undecided stands member room
    have undecided' : q'.Undecided := explored.undecided undecided
    have within' : ∀ c ∈ rest,
        ∃ k, q'.key? c = some k ∧ k.2 ∈ x.horizon q'.scope.trace.program := by
      intro c listed
      obtain ⟨k, stands, member⟩ := within c (List.mem_cons_of_mem _ listed)
      exact ⟨k, explored.key? stands, explored.scope ▸ member⟩
    have room' : q'.remaining x < depth :=
      Nat.lt_of_le_of_lt (remaining_le explored.scope explored.started) room
    obtain ⟨q'', succeeds', explored'⟩ := ih explored.sound undecided' within' room'
    refine ⟨q'', ?_, explored.trans explored'⟩
    rw [List.foldlM_cons, succeeds]
    exact succeeds'

/-- An opened node can be explained with one more level of nesting than its deciders need. -/
theorem Visits.finish {depth : Nat} {children : List UnexecutedId} (visits : Visits x depth)
    (sound : Sound q) (undecided : q.Undecided) (found : q.node? id = some n)
    (unvisited : n.status = .unvisited)
    (member : n.expectation ∈ x.horizon q.scope.trace.program) (room : q.remaining x < depth + 1)
    (opening : q.Opened id n children q') :
    ∃ p, (children.foldlM (visit depth) q' >>= fun q'' =>
        q''.finish id children (q.scope.analyse n.instruction n.expectation).verdict) = .ok p ∧
      q.Explored [id] p := by
  cases final : (q.scope.analyse n.instruction n.expectation).verdict.isFinal with
  | true =>
    -- nothing decides a node whose verdict is final, so there is nothing to visit
    have none : children = [] := by
      have keys := opening.keys
      rw [Scope.decidersOf, Verdict.children_of_isFinal final] at keys
      exact List.map_eq_nil_iff.1 keys
    subst none
    exact finish_explored sound found unvisited opening (.refl opening.sound)
      fun some => absurd rfl some
  | false =>
    have inside : n.key ∈ q.scope.horizon x :=
      Scope.mem_horizon.2 ⟨Scope.instruction_lt_of_not_isFinal final, member⟩
    have room' : q'.remaining x < depth :=
      Nat.lt_of_lt_of_le (opening.remaining_lt sound found unvisited inside)
        (Nat.lt_succ_iff.1 room)
    have undecided' : q'.Undecided := opening.undecided undecided final
    have within : ∀ c ∈ children,
        ∃ k, q'.key? c = some k ∧ k.2 ∈ x.horizon q'.scope.trace.program := by
      intro c listed
      obtain ⟨k, decides, stands⟩ := key?_of_mem opening.keys listed
      rw [opening.scope]
      exact ⟨k, stands, Scope.expectation_mem_horizon member decides⟩
    obtain ⟨q'', succeeds, explored⟩ := visits.foldlM opening.sound undecided' within room'
    rw [succeeds]
    exact finish_explored sound found unvisited opening explored fun _ => undecided'

/-- A visit succeeds if there is room for it, and it explores. -/
theorem visit_explored (x : Expectation) (depth : Nat) : Visits x depth := by
  induction depth with
  | zero => exact fun _ _ _ _ room => absurd room (Nat.not_lt_zero _)
  | succ depth ih =>
    intro q id k sound undecided stands member room
    obtain ⟨n, found, rfl⟩ := key?_eq_some_iff.1 stands
    by_cases unvisited : n.status = .unvisited
    · have opening := opened_internAll sound found unvisited
      rw [visit_succ found unvisited]
      exact ih.finish sound undecided found unvisited member room opening
    · refine ⟨q, visit_of_visited found unvisited, .of_visited sound ?_⟩
      rw [status?_of_node? found]
      cases status : n.status with
      | unvisited => exact absurd status unvisited
      | inProgress => exact .inr rfl
      | done => exact .inl rfl

end Question

end Inquest
