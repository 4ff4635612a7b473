import Inquest.Proofs.Trace.Frames

/-!
# The loop path taken from a branch on

Each iteration of a loop starts at a branch, and the branches that its invocation decides after that
tell which way it went.  The declared paths of the branch are tried one after the other: each walks
along the invocation anew, from one branch to the next, and gives up at the first branch that is
another one than the path says.

All these walks go along one list, the route of the branch.  It holds what the branch executed and
then what the later branches of its invocation did, as far as the end of the invocation.  A path was
taken if the route starts with it.  A recording that ends in the middle of an iteration has a short
route, and of two paths of which one starts with the other the first declared one wins.

## Main Definitions

* `Trace.laterBranches` - the branches of an invocation after an event and up to its end
* `Trace.nextBranchInFrame?` - the first of those
* `Trace.route` - the instructions that a branch and the later ones of its invocation executed
* `Trace.pathTaken`, `Trace.pathFrom?` - the first declared path that the route starts with

## Main Statements

* `Trace.seekBranch_eq` - what the search for a branch finds along a list of events
* `Trace.nextBranchInFrame_eq`, `Trace.visits_nextBranchInFrame?` - the branches that are met one
  after the other
* `Trace.followsAfter_eq`, `Trace.follows_eq` - a path is followed if the route starts with it
* `Trace.loopPathOf_eq`, `Trace.loopPathOf_eq_ok_iff` - the path found is the one taken
-/

namespace Inquest.Trace

variable {t : Trace} {e e' : EventId} {r : Record}

/-! ### From branch to branch -/

/-- Whether an event is a branch. -/
def isBranch (t : Trace) (e : EventId) : Bool := (t.record? e).any (·.kind.isBranch)

/-- The branches of the invocation of a record that come after an event, up to the end of the
invocation and in ascending order. -/
def laterBranches (t : Trace) (r : Record) (e : EventId) : List EventId :=
  ((t.frameEvents r).filter (e < ·)).filter t.isBranch

theorem mem_laterBranches : e' ∈ t.laterBranches r e ↔
    e < e' ∧ t.SharesFrame r e' ∧ t.BeforeEnd r e' ∧ t.isBranch e' = true := by
  rw [laterBranches, List.mem_filter, mem_laterInFrame, and_assoc, and_assoc]

theorem pairwise_laterBranches (t : Trace) (r : Record) (e : EventId) :
    (t.laterBranches r e).Pairwise (· < ·) :=
  ((t.pairwise_frameEvents r).filter _).filter _

/-- Along a list of events, the search finds the first branch. -/
theorem seekBranch_eq {cursor : Option EventId} {events : List EventId} {n : Nat}
    (visits : Visits t.nextInFrame? cursor events)
    (recorded : ∀ e ∈ events, ∃ r, t.record? e = some r) (enough : events.length ≤ n) :
    t.seekBranch n cursor = .ok (events.find? t.isBranch) := by
  induction visits generalizing n with
  | stop => cases n <;> rfl
  | @step e rest _ ih =>
    obtain ⟨⟨r, read⟩, recorded⟩ := List.forall_mem_cons.1 recorded
    have kind : t.kind e = .ok r.kind := map_read_of_record? read Record.kind
    have isBranch : t.isBranch e = r.kind.isBranch := by rw [Trace.isBranch, read, Option.any_some]
    cases n with
    | zero => cases enough
    | succ n =>
      rw [seekBranch, kind, nextInFrame_eq read]
      by_cases branch : r.kind.isBranch = true
      · rw [List.find?_cons_of_pos (isBranch.trans branch)]
        exact if_pos branch
      · rw [List.find?_cons_of_neg (isBranch ▸ branch)]
        exact (if_neg branch).trans (ih recorded (Nat.le_of_succ_le_succ enough))

/-- The first of the later branches of the invocation of an event. -/
def nextBranchInFrame? (t : Trace) (e : EventId) : Option EventId :=
  (t.record? e).bind fun r => (t.laterBranches r e).head?

theorem nextBranchInFrame?_eq (recorded : t.record? e = some r) :
    t.nextBranchInFrame? e = (t.laterBranches r e).head? := by
  rw [nextBranchInFrame?, recorded, Option.bind_some]

/-- The next branch of an invocation is the first of the later ones. -/
theorem nextBranchInFrame_eq (recorded : t.record? e = some r) :
    t.nextBranchInFrame e = .ok (t.nextBranchInFrame? e) := by
  have few : ((t.frameEvents r).filter (e < ·)).length ≤ t.size :=
    Nat.le_trans (List.length_filter_le _ _) (t.length_frameEvents_le r)
  have known : ∀ e' ∈ (t.frameEvents r).filter (e < ·), ∃ s, t.record? e' = some s := by
    intro e' listed
    obtain ⟨-, ⟨s, recorded', -⟩, -⟩ := mem_laterInFrame.1 listed
    exact ⟨s, recorded'⟩
  rw [nextBranchInFrame, nextInFrame_eq recorded, nextBranchInFrame?_eq recorded, laterBranches,
    List.head?_filter]
  exact seekBranch_eq (visits_nextInFrame? recorded) known few

/-- Going on from branch to branch leads through the later branches of the invocation. -/
theorem visits_nextBranchInFrame? (recorded : t.record? e = some r) :
    Visits t.nextBranchInFrame? (t.nextBranchInFrame? e) (t.laterBranches r e) := by
  have later : ∀ e, t.laterBranches r e = ((t.frameEvents r).filter t.isBranch).filter (e < ·) :=
    fun e => List.filter_comm _ _ _
  rw [later]
  apply visits_after ((t.pairwise_frameEvents r).filter _)
  · intro e' listed
    obtain ⟨⟨s, recorded', thread, start⟩, -⟩ := mem_frameEvents.1 (List.mem_of_mem_filter listed)
    rw [← later, nextBranchInFrame?_eq recorded', laterBranches, laterBranches,
      frameEvents_congr thread start]
  · rw [nextBranchInFrame?_eq recorded, later]

/-! ### Routes -/

/-- What an event executed. -/
def executed? (t : Trace) (e : EventId) : Option InstructionId :=
  (t.record? e).map (·.instruction)

/-- The branches after an event are followed as long as the later ones start with them. -/
theorem followsAfter_eq {branches : List InstructionId} {later : List EventId}
    (here : t.record? e = some r)
    (visits : Visits t.nextBranchInFrame? (t.nextBranchInFrame? e) later)
    (recorded : ∀ e' ∈ later, ∃ s, t.record? e' = some s) :
    t.followsAfter e branches = .ok (decide (branches <+: later.filterMap t.executed?)) := by
  induction branches generalizing e r later with
  | nil => simp [followsAfter]
  | cons branch rest ih =>
    rw [followsAfter, nextBranchInFrame_eq here]
    generalize t.nextBranchInFrame? e = next at visits
    cases visits with
    | stop => simp [bind, Except.bind, pure, Except.pure]
    | @step e' later visits =>
      obtain ⟨⟨s, read⟩, recorded⟩ := List.forall_mem_cons.1 recorded
      have instruction : t.instruction e' = .ok s.instruction :=
        map_read_of_record? read Record.instruction
      have executed : t.executed? e' = some s.instruction := by rw [executed?, read]; rfl
      simp only [bind, Except.bind, instruction, ih read visits recorded,
        List.filterMap_cons_some executed, List.cons_prefix_cons]
      by_cases same : s.instruction = branch
      · simp [same]
      · simp [same, Ne.symm same, pure, Except.pure]

/-- What the event of a record executed, and then what the later branches of its invocation did. -/
def route (t : Trace) (r : Record) (e : EventId) : List InstructionId :=
  r.instruction :: (t.laterBranches r e).filterMap t.executed?

/-- A path is followed if there is anything in it and the route starts with it. -/
theorem follows_eq (recorded : t.record? e = some r) (branches : List InstructionId) :
    t.follows e branches = .ok (decide (branches ≠ [] ∧ branches <+: t.route r e)) := by
  cases branches with
  | nil => simp [follows]
  | cons branch rest =>
    have known : ∀ e' ∈ t.laterBranches r e, ∃ s, t.record? e' = some s := by
      intro e' listed
      obtain ⟨-, ⟨s, recorded', -⟩, -⟩ := mem_laterBranches.1 listed
      exact ⟨s, recorded'⟩
    have instruction : t.instruction e = .ok r.instruction :=
      map_read_of_record? recorded Record.instruction
    simp only [follows, bind, Except.bind, instruction, route, List.cons_prefix_cons,
      followsAfter_eq recorded (visits_nextBranchInFrame? recorded) known]
    by_cases same : r.instruction = branch
    · simp [same]
    · simp [same, Ne.symm same, pure, Except.pure]

/-- The first path that the program declares for the instruction of a record and that the route of
its event starts with. -/
def pathTaken (t : Trace) (r : Record) (e : EventId) : Option LoopPathId :=
  (t.program.instruction? r.instruction).bind fun i =>
    (i.loopPaths.find? fun path => path.branches ≠ [] ∧ path.branches <+: t.route r e).map
      LoopPath.id

/-- The path that is found from an event on is the one taken. -/
theorem loopPathOf_eq (recorded : t.record? e = some r) :
    t.loopPathOf e = .ok (t.pathTaken r e) := by
  have instruction : t.instruction e = .ok r.instruction :=
    map_read_of_record? recorded Record.instruction
  simp only [loopPathOf, bind, Except.bind, instruction, pathTaken]
  cases t.program.instruction? r.instruction with
  | none => rfl
  | some i =>
    simp only [findM?_eq_ok fun (path : LoopPath) _ => follows_eq recorded path.branches]
    rfl

/-- The path taken from an event on, if the event was recorded. -/
def pathFrom? (t : Trace) (e : EventId) : Option LoopPathId :=
  (t.record? e).bind fun r => t.pathTaken r e

theorem pathFrom?_of_record? (recorded : t.record? e = some r) :
    t.pathFrom? e = t.pathTaken r e := by
  rw [pathFrom?, recorded, Option.bind_some]

/-- A path is found for recorded events only. -/
theorem loopPathOf_eq_ok_iff {path : Option LoopPathId} :
    t.loopPathOf e = .ok path ↔ (∃ r, t.record? e = some r) ∧ path = t.pathFrom? e := by
  constructor
  · intro found
    obtain ⟨instruction, read, -⟩ := bind_eq_ok_iff.1 found
    obtain ⟨r, read, -⟩ := map_eq_ok_iff.1 read
    have recorded := read_eq_ok_iff.1 read
    rw [loopPathOf_eq recorded, ← pathFrom?_of_record? recorded] at found
    exact ⟨⟨r, recorded⟩, (Except.ok.inj found).symm⟩
  · rintro ⟨⟨r, recorded⟩, rfl⟩
    rw [loopPathOf_eq recorded, pathFrom?_of_record? recorded]

end Inquest.Trace
