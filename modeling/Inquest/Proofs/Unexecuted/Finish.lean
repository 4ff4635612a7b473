import Inquest.Proofs.Unexecuted.Sound
import Inquest.Proofs.Walk

/-!
# Finishing a node

A node is finished when everything that decides it has been visited.  It is linked to those of
its deciders that are explained by then, and its reason is read off them.  That the reason does
not depend on which of them are explained rests on one observation: an instruction that did
execute needs nobody else to say so, hence a node that is still being explained is not one of
those that count.

## Main Definitions

* `Question.Finished` - what finishing a node does to every node

## Main Statements

* `Question.finished_conclude` - the changes of `finish` are these
* `Question.reasonFor_eq_settle` - the reason that a node is given is the one without a graph
* `Question.Sound.of_finished` - finishing a node keeps the invariant
-/

namespace Inquest.Question

variable {q q' : Question} {a b c id : UnexecutedId} {m n : Unexecuted}
variable {k : InstructionId × Expectation} {causes : List UnexecutedId} {reason : Reason}

/-! ### The effect on every node -/

/-- The question `q'` is `q` with the node `id` linked to some nodes and given a reason. -/
structure Finished (q : Question) (id : UnexecutedId) (causes : List UnexecutedId)
    (reason : Reason) (q' : Question) : Prop where
  scope : q'.scope = q.scope
  index : q'.index = q.index
  size : q'.size = q.size
  self : ∀ {n}, q.node? id = some n → ∃ n', q'.node? id = some n' ∧
    n'.bare = ({ n with reason, status := .done } : Unexecuted).bare ∧
    (∀ c, c ∈ n'.incoming ↔ c ∈ n.incoming ∨ c ∈ causes) ∧
    (∀ e, e ∈ n'.outgoing ↔ e ∈ n.outgoing ∨ e = id ∧ id ∈ causes)
  other : ∀ {a m}, a ≠ id → q.node? a = some m → ∃ m', q'.node? a = some m' ∧
    m'.bare = m.bare ∧ m'.incoming = m.incoming ∧
    (∀ e, e ∈ m'.outgoing ↔ e ∈ m.outgoing ∨ e = id ∧ a ∈ causes) ∧ (a ∉ causes → m' = m)

theorem finished_conclude (q : Question) (id : UnexecutedId) (causes : List UnexecutedId)
    (reason : Reason) :
    q.Finished id causes reason ((causes.foldl (·.link id ·) q).conclude id reason) := by
  refine ⟨by simp [conclude], by simp [conclude], ?_, fun {n} found => ?_,
    fun {a m} other found => ?_⟩
  · rw [← q.size_foldl_link id causes]
    simp [conclude, modify, Question.size]
  · obtain ⟨n', linked, bare, incoming, outgoing, -⟩ := node?_foldl_link id causes found
    refine ⟨_, node?_modify_self _ linked, ?_, fun c => ?_, fun e => ?_⟩
    · have instruction : n'.instruction = n.instruction :=
        congrArg Prod.fst (Unexecuted.key_of_bare bare)
      have expectation : n'.expectation = n.expectation :=
        congrArg Prod.snd (Unexecuted.key_of_bare bare)
      simp [Unexecuted.bare, instruction, expectation, Unexecuted.others_of_bare bare,
        Unexecuted.methodExecution_of_bare bare]
    · simpa using incoming c
    · simpa using outgoing e
  · obtain ⟨m', linked, bare, -, outgoing, incoming, same⟩ := node?_foldl_link id causes found
    exact ⟨m', (node?_modify_of_ne _ other).trans linked, bare, incoming other, outgoing,
      same other⟩

namespace Finished

variable (finished : q.Finished id causes reason q')

include finished

theorem node?_eq_none (missing : q.node? a = none) : q'.node? a = none := by
  have outside : q.size ≤ a.index := Array.getElem?_eq_none_iff.1 missing
  have outside' : q'.size ≤ a.index := finished.size ▸ outside
  exact Array.getElem?_eq_none outside'

theorem key? (a : UnexecutedId) : q'.key? a = q.key? a := by
  cases found : q.node? a with
  | none => simp [Question.key?, found, finished.node?_eq_none found]
  | some n =>
    by_cases same : a = id
    · subst same
      obtain ⟨n', found', bare, -⟩ := finished.self found
      rw [key?_of_node? found', key?_of_node? found, Unexecuted.key_of_bare bare]
      rfl
    · obtain ⟨n', found', bare, -⟩ := finished.other same found
      rw [key?_of_node? found', key?_of_node? found, Unexecuted.key_of_bare bare]

theorem status?_self (found : q.node? id = some n) : q'.status? id = some .done := by
  obtain ⟨n', found', bare, -⟩ := finished.self found
  rw [status?_of_node? found', Unexecuted.status_of_bare bare]

theorem status?_of_ne (different : a ≠ id) : q'.status? a = q.status? a := by
  cases found : q.node? a with
  | none => simp [status?, found, finished.node?_eq_none found]
  | some n =>
    obtain ⟨n', found', bare, -⟩ := finished.other different found
    rw [status?_of_node? found', status?_of_node? found, Unexecuted.status_of_bare bare]

/-- Where a node of the finished graph comes from. -/
theorem node?_cases (found : q.node? id = some n) (known : q'.node? a = some m) :
    (a = id ∧ m.bare = ({ n with reason, status := .done } : Unexecuted).bare ∧
        ∀ c, c ∈ m.incoming ↔ c ∈ n.incoming ∨ c ∈ causes) ∨
      a ≠ id ∧ ∃ m₀, q.node? a = some m₀ ∧ m.bare = m₀.bare ∧ m.incoming = m₀.incoming ∧
        (a ∉ causes → m = m₀) := by
  by_cases same : a = id
  · subst same
    obtain ⟨n', found', bare, incoming, -⟩ := finished.self found
    rw [found'] at known
    cases known
    exact .inl ⟨rfl, bare, incoming⟩
  · cases old : q.node? a with
    | none =>
      rw [finished.node?_eq_none old] at known
      cases known
    | some m₀ =>
      obtain ⟨m', found', bare, incoming, -, unlinked⟩ := finished.other same old
      rw [found'] at known
      cases known
      exact .inr ⟨same, m₀, rfl, bare, incoming, unlinked⟩

/-- An explained node stays explained. -/
theorem status?_done (done : q.status? a = some .done) : q'.status? a = some .done := by
  by_cases same : a = id
  · subst same
    obtain ⟨n, found, -⟩ := Option.map_eq_some_iff.1 done
    exact finished.status?_self found
  · rwa [finished.status?_of_ne same]

theorem mem_incoming (found : q.node? id = some n) :
    c ∈ q'.incoming a ↔ c ∈ q.incoming a ∨ a = id ∧ c ∈ causes := by
  by_cases same : a = id
  · subst same
    obtain ⟨n', found', -, incoming, -⟩ := finished.self found
    rw [incoming_of_node? found', incoming_of_node? found, incoming]
    simp
  · simp only [same, false_and, or_false]
    cases known : q.node? a with
    | none => simp [incoming, known, finished.node?_eq_none known]
    | some m =>
      obtain ⟨m', found', -, incoming, -⟩ := finished.other same known
      rw [incoming_of_node? found', incoming_of_node? known, incoming]

theorem mem_outgoing (found : q.node? id = some n)
    (known : ∀ c ∈ causes, q.status? c = some .done) :
    b ∈ q'.outgoing a ↔ b ∈ q.outgoing a ∨ b = id ∧ a ∈ causes := by
  by_cases same : a = id
  · subst same
    obtain ⟨n', found', -, -, outgoing⟩ := finished.self found
    rw [outgoing_of_node? found', outgoing_of_node? found, outgoing]
  · cases present : q.node? a with
    | none =>
      have outside : a ∉ causes := by
        intro member
        have done := known a member
        simp [status?, present] at done
      simp [outgoing, present, finished.node?_eq_none present, outside]
    | some m =>
      obtain ⟨m', found', -, -, outgoing, -⟩ := finished.other same present
      rw [outgoing_of_node? found', outgoing_of_node? present, outgoing]

end Finished

/-! ### The reason -/

section Keys

variable {children : List UnexecutedId} {keys : List (InstructionId × Expectation)}

theorem key?_of_mem (stand : children.map q.key? = keys.map some) (member : c ∈ children) :
    ∃ k ∈ keys, q.key? c = some k := by
  have listed : q.key? c ∈ keys.map some := stand ▸ List.mem_map_of_mem member
  obtain ⟨k, listed, same⟩ := List.mem_map.1 listed
  exact ⟨k, listed, same.symm⟩

theorem exists_mem_of_key (stand : children.map q.key? = keys.map some) (member : k ∈ keys) :
    ∃ c ∈ children, q.key? c = some k := by
  have listed : some k ∈ children.map q.key? := stand ▸ List.mem_map_of_mem member
  exact List.mem_map.1 listed

end Keys

theorem execution?_of_node? (found : q.node? a = some n) :
    q.execution? a = .ok (if n.status = .done then n.reason.execution? else none) := by
  rw [execution?, node_eq_ok_iff.2 found]
  rfl

/-- Linking nodes does not change what they report. -/
theorem execution?_foldl_link (found : q.node? a = some n) :
    (causes.foldl (·.link id ·) q).execution? a = q.execution? a := by
  obtain ⟨n', found', bare, -⟩ := node?_foldl_link id causes found
  rw [execution?_of_node? found', execution?_of_node? found, Unexecuted.status_of_bare bare,
    Unexecuted.reason_of_bare bare]

/-- A node is explained, or it is being explained and depends on others. -/
def Visited (q : Question) (id : UnexecutedId) : Prop :=
  q.status? id = some .done ∨
    q.status? id = some .inProgress ∧
      ∀ k, q.key? id = some k → (q.scope.analyse k.1 k.2).verdict.isFinal = false

/-- A visited node reports an execution exactly if the analysis of its instruction does: if it is
explained its reason says so, and if it is not there is no execution to report. -/
theorem Sound.execution?_of_visited (sound : Sound q) (visited : q.Visited a)
    (stands : q.key? a = some k) :
    q.execution? a = .ok (q.scope.analyse k.1 k.2).verdict.execution? := by
  obtain ⟨n, found, rfl⟩ := key?_eq_some_iff.1 stands
  rw [execution?_of_node? found]
  rcases visited with done | ⟨opened, undecided⟩
  · rw [status?_of_node? found, Option.some.injEq] at done
    rw [if_pos done]
    exact congrArg _ (Scope.execution?_of_reasonOf ((sound.fits found).reason done))
  · rw [status?_of_node? found, Option.some.injEq] at opened
    rw [if_neg (by simp [opened])]
    exact congrArg _ (Verdict.execution?_of_not_isFinal (undecided _ stands)).symm

/-- What the analyses of the instructions find that some nodes stand for, in their order. -/
theorem findSome?_key? {children : List UnexecutedId} {guards : List InstructionId}
    {x : Expectation} (finds : InstructionId × Expectation → Option EventId)
    (keys : children.map q.key? = (guards.map (·, x)).map some) :
    (children.findSome? fun c => (q.key? c).bind finds) =
      guards.findSome? fun guard => finds (guard, x) :=
  calc (children.findSome? fun c => (q.key? c).bind finds)
    _ = (children.map q.key?).findSome? (·.bind finds) := by
      rw [List.findSome?_map]
      rfl
    _ = ((guards.map (·, x)).map some).findSome? (·.bind finds) := by rw [keys]
    _ = guards.findSome? fun guard => finds (guard, x) := by
      rw [List.map_map, List.findSome?_map]
      rfl

/-- The reason that a node is given once its deciders have been visited is the one that its
analysis comes to without a graph. -/
theorem reasonFor_eq_settle (sound : Sound q) {children : List UnexecutedId} {v : Verdict}
    (keys : children.map q.key? = v.children.map some)
    (visited : ∀ c ∈ children, q.Visited c) :
    (causes.foldl (·.link id ·) q).reasonFor children v = q.scope.settle v := by
  cases v with
  | final reason => rfl
  | callers method callers x => rfl
  | guards guards x =>
    have reported : children.findSomeM? (causes.foldl (·.link id ·) q).execution? =
        .ok (guards.findSome? fun guard => (q.scope.analyse guard x).verdict.execution?) := by
      rw [← findSome?_key? (fun k => (q.scope.analyse k.1 k.2).verdict.execution?) keys]
      refine findSomeM?_eq_ok fun c member => ?_
      obtain ⟨k, -, stands⟩ := key?_of_mem keys member
      obtain ⟨n, found, -⟩ := key?_eq_some_iff.1 stands
      rw [execution?_foldl_link found, stands]
      exact sound.execution?_of_visited (visited c member) stands
    rw [reasonFor, reported, Scope.settle]
    cases guards.findSome? fun guard => (q.scope.analyse guard x).verdict.execution? with
    | none => rfl
    | some branch =>
      rw [scope_foldl_link]
      rfl

/-! ### The invariant -/

namespace Sound

variable (sound : Sound q) (found : q.node? id = some n) (opened : n.status = .inProgress)
variable (finished : q.Finished id causes reason q')

include sound found opened finished

/-- Nodes of the finished graph say what is right. -/
theorem fits_finished (settled : q.scope.reasonOf n.instruction n.expectation = .ok reason)
    (done : ∀ c ∈ causes, q.status? c = some .done) (known : q'.node? a = some m) :
    q'.scope.Fits m := by
  rw [finished.scope]
  rcases finished.node?_cases found known with ⟨rfl, bare, -⟩ | ⟨-, m₀, old, bare, -, unlinked⟩
  · have blank := (sound.fits found).opened opened
    have right : q.scope.Fits { n with reason, status := .done } := by
      refine ⟨?_, ?_, fun _ => settled, fun _ => ?_, fun _ => ?_⟩
      · intro other
        cases other
      · intro other
        cases other
      · exact congrArg Unexecuted.others blank
      · exact congrArg Unexecuted.methodExecution blank
    exact right.of_bare rfl bare
  · by_cases member : a ∈ causes
    · have explained := done a member
      rw [status?_of_node? old, Option.some.injEq] at explained
      exact (sound.fits old).of_bare explained bare
    · rw [unlinked member]
      exact sound.fits old

omit opened in
/-- In the finished graph nothing is missing.  What decides the finished node is among its causes
or is itself being explained.  An explained node that was waiting for the finished one is reached
from one of its causes, so it is now reached from the finished node. -/
theorem complete_finished
    (covered : ∀ k ∈ q.scope.decidersOf n.instruction n.expectation,
      ∃ c, q.key? c = some k ∧ (c ∈ causes ∨ q.status? c = some .inProgress))
    (waiting : ∀ {a}, q.status? a = some .done → q.HasDecider a id → ∃ c ∈ causes, q.Reaches c a)
    (known : q'.node? a = some m) (explained : m.status = .done)
    (decides : k ∈ q'.scope.decidersOf m.instruction m.expectation) :
    ∃ c, q'.key? c = some k ∧
      (c ∈ m.incoming ∨ q'.Reaches c a ∨ q'.status? c = some .inProgress) := by
  have keys : ∀ {a k}, q.key? a = some k → q'.key? a = some k :=
    fun {a k} stands => (finished.key? a).trans stands
  have more : ∀ {a c}, c ∈ q.incoming a → c ∈ q'.incoming a :=
    fun linked => (finished.mem_incoming found).2 (.inl linked)
  rw [finished.scope] at decides
  rcases finished.node?_cases found known with ⟨rfl, bare, incoming⟩ |
    ⟨-, m₀, old, bare, incoming, -⟩
  · have key : m.key = n.key := (Unexecuted.key_of_bare bare).trans rfl
    have instruction : m.instruction = n.instruction := congrArg Prod.fst key
    have expectation : m.expectation = n.expectation := congrArg Prod.snd key
    rw [instruction, expectation] at decides
    obtain ⟨c, stands, member | waits⟩ := covered k decides
    · exact ⟨c, keys stands, .inl ((incoming c).2 (.inr member))⟩
    · by_cases itself : c = a
      · exact ⟨c, keys stands, .inr (.inl (itself ▸ .refl))⟩
      · exact ⟨c, keys stands, .inr (.inr (by rwa [finished.status?_of_ne itself]))⟩
  · have key : m.key = m₀.key := Unexecuted.key_of_bare bare
    have instruction : m.instruction = m₀.instruction := congrArg Prod.fst key
    have expectation : m.expectation = m₀.expectation := congrArg Prod.snd key
    rw [instruction, expectation] at decides
    rw [Unexecuted.status_of_bare bare] at explained
    obtain ⟨c, stands, reason⟩ := sound.complete old explained decides
    refine ⟨c, keys stands, ?_⟩
    rcases reason with linked | reaches | waits
    · exact .inl (incoming ▸ linked)
    · exact .inr (.inl (reaches.mono more))
    · by_cases itself : c = id
      · -- `a` waited for the node that is finished now
        subst itself
        have isDecider : q.HasDecider a c := ⟨m₀.key, k, key?_of_node? old, stands, decides⟩
        obtain ⟨d, member, reaches⟩ := waiting (by rw [status?_of_node? old, explained]) isDecider
        have step : q'.DecidedBy c d := (finished.mem_incoming found).2 (.inr ⟨rfl, member⟩)
        exact .inr (.inl (.head step (reaches.mono more)))
      · exact .inr (.inr (by rwa [finished.status?_of_ne itself]))

/-- The finished node ranks above everything that it is linked to. -/
theorem ranked_finished (done : ∀ c ∈ causes, q.status? c = some .done) :
    ∃ rank : UnexecutedId → Nat, ∀ {a c}, c ∈ q'.incoming a → rank c < rank a := by
  have unfinished : q.status? id ≠ some .done := by
    rw [status?_of_node? found, opened]
    simp
  obtain ⟨rank, below⟩ := sound.ranked
  refine ⟨fun a => if a = id then (causes.map rank).max?.getD 0 + 1 else rank a,
    fun {a c} linked => ?_⟩
  dsimp only
  rcases (finished.mem_incoming found).1 linked with old | ⟨rfl, member⟩
  · obtain ⟨-, effect, cause⟩ := sound.linked old
    have effectOther : a ≠ id := fun same => unfinished (same ▸ effect)
    have causeOther : c ≠ id := fun same => unfinished (same ▸ cause)
    rw [if_neg effectOther, if_neg causeOther]
    exact below old
  · have causeOther : c ≠ a := fun same => unfinished (same ▸ done c member)
    rw [if_pos rfl, if_neg causeOther]
    exact Nat.lt_succ_of_le (List.le_max?_getD_of_mem (List.mem_map_of_mem member))

/-- Finishing a node whose deciders have been visited keeps the invariant. -/
theorem of_finished (settled : q.scope.reasonOf n.instruction n.expectation = .ok reason)
    (done : ∀ c ∈ causes, q.status? c = some .done)
    (deciders : ∀ c ∈ causes, q.HasDecider id c)
    (covered : ∀ k ∈ q.scope.decidersOf n.instruction n.expectation,
      ∃ c, q.key? c = some k ∧ (c ∈ causes ∨ q.status? c = some .inProgress))
    (waiting : ∀ {a}, q.status? a = some .done → q.HasDecider a id →
      ∃ c ∈ causes, q.Reaches c a) :
    Sound q' where
  indexed := sound.indexed.of_key? finished.index finished.key?
  fits := sound.fits_finished found opened finished settled done
  complete := sound.complete_finished found finished covered waiting
  twoEnded := by
    intro a c
    rw [finished.mem_incoming found, finished.mem_outgoing found done, sound.twoEnded]
  linked := by
    intro a c linked
    have keys : ∀ {a k}, q.key? a = some k → q'.key? a = some k :=
      fun {a k} stands => (finished.key? a).trans stands
    rcases (finished.mem_incoming found).1 linked with old | ⟨rfl, member⟩
    · obtain ⟨decides, effect, cause⟩ := sound.linked old
      exact ⟨decides.mono finished.scope keys, finished.status?_done effect,
        finished.status?_done cause⟩
    · exact ⟨(deciders c member).mono finished.scope keys, finished.status?_self found,
        finished.status?_done (done c member)⟩
  ranked := sound.ranked_finished found opened finished done

end Sound

end Inquest.Question
