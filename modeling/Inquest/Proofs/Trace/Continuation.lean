import Inquest.Proofs.Trace.Index
import Inquest.Proofs.Trace.Recording
import Inquest.Proofs.Trace.Window

/-!
# Recordings that go on

A recording that goes on keeps what it has.  No record changes, and an invocation that has ended
is not open any more, so nothing can give it another end.  An invocation that is still open may end
later, but not at an event that is recorded already.  So a recording and what becomes of it agree
on everything that lies before an event of the shorter one.

## Main Definitions

* `Recorder.Continues` - what a recording has in common with what becomes of it
* `Trace.AgreeBefore` - two recordings agree before an event

## Main Statements

* `Recorder.continues_of_run` - a recording keeps what it has
* `Recorder.agreeBefore_of_run` - it agrees with what becomes of it
* `Trace.AgreeBefore.invocationsOf`, `Trace.AgreeBefore.findBetween` - look-ups and searches in two
  recordings that agree
-/

namespace Inquest

/-- Two recordings of one program have the same records and the same ends before an event. -/
structure Trace.AgreeBefore (t t' : Trace) (boundary : EventId) : Prop where
  program : t'.program = t.program
  inside : boundary.index ≤ t.size
  inside' : boundary.index ≤ t'.size
  record? : ∀ e, e < boundary → t'.record? e = t.record? e
  endOf? : ∀ start finish, finish < boundary →
    (t'.endOf? start = some finish ↔ t.endOf? start = some finish)

namespace Trace.AgreeBefore

variable {t t' : Trace} {boundary first last : EventId} {p : Record → Bool}
variable (agree : t.AgreeBefore t' boundary)

include agree

/-- Two recordings that agree list the same invocations. -/
theorem invocationsOf (method : MethodId) :
    t'.invocationsOf method boundary = t.invocationsOf method boundary := by
  rw [invocationsOf_eq agree.inside', invocationsOf_eq agree.inside]
  refine List.filter_congr fun e listed => ?_
  obtain ⟨index, member, rfl⟩ := List.mem_map.1 listed
  rw [starts, starts, agree.program, agree.record? _ (List.mem_range.1 member)]

/-- A search that ends before the event gives the same. -/
theorem findBetween (inside : last < boundary) :
    t'.findBetween first last p = t.findBetween first last p :=
  findBetween_congr (Nat.lt_of_lt_of_le inside agree.inside)
    (Nat.lt_of_lt_of_le inside agree.inside')
    fun e upTo => agree.record? e (Nat.lt_of_le_of_lt upTo inside)

/-- So does a search from the end. -/
theorem findLastBetween (inside : last < boundary) :
    t'.findLastBetween first last p = t.findLastBetween first last p :=
  findLastBetween_congr (Nat.lt_of_lt_of_le inside agree.inside)
    (Nat.lt_of_lt_of_le inside agree.inside')
    fun e upTo => agree.record? e (Nat.lt_of_le_of_lt upTo inside)

end Trace.AgreeBefore

namespace Recorder

variable {program : Program} {r r' r'' : Recorder} {step : Step} {steps more : List Step}
variable {id boundary : EventId}

/-- The recording `r'` has all that `r` has; what it has beyond that was recorded later. -/
structure Continues (r r' : Recorder) : Prop where
  program : r'.program = r.program
  size : r.events.size ≤ r'.events.size
  events : ∀ index < r.events.size, r'.events[index]? = r.events[index]?
  ends : ∀ start finish : EventId, finish.index < r.events.size →
    (r'.ends[start]? = some finish ↔ r.ends[start]? = some finish)

theorem Continues.refl (r : Recorder) : r.Continues r :=
  ⟨rfl, Nat.le_refl _, fun _ _ => rfl, fun _ _ _ => Iff.rfl⟩

/-- One more step keeps what there is. -/
theorem Continues.apply (continues : r.Continues r') (nested : r'.Nested)
    (applied : r'.apply step = .ok (r'', id)) : r.Continues r'' := by
  obtain ⟨record, program, -, events, rfl, cases⟩ := apply_cases applied
  refine ⟨program.trans continues.program, ?_, fun index inside => ?_,
    fun start finish inside => ?_⟩
  · rw [events, Array.size_push]
    exact Nat.le_succ_of_le continues.size
  · have old := Nat.ne_of_lt (Nat.lt_of_lt_of_le inside continues.size)
    rw [events, Array.getElem?_push, if_neg old, continues.events index inside]
  · rcases cases with ⟨-, -, ends, -⟩ | ⟨-, -, ends, -, -⟩ | ⟨frame, outer, -, top, -, ends, -⟩
    · rw [ends, continues.ends start finish inside]
    · rw [ends, continues.ends start finish inside]
    · simp only [ends, Std.TreeMap.getElem?_insert, Ident.compare_eq_iff]
      split
      -- the invocation that ends now was open, and ends at a later event
      · next same =>
        subst same
        have unended : r'.ends[frame]? = none := nested.unended (top ▸ List.mem_cons_self)
        rw [← continues.ends frame finish inside, unended]
        constructor
        · intro now
          cases now
          exact absurd (Nat.lt_of_lt_of_le inside continues.size) (Nat.lt_irrefl _)
        · intro before
          cases before
      · exact continues.ends start finish inside

/-- A recording keeps what it has. -/
theorem continues_of_run (recorded : run program steps = .ok r)
    (continued : run program (steps ++ more) = .ok r') : r.Continues r' := by
  unfold run at recorded continued
  rw [List.foldlM_append] at continued
  obtain ⟨r₁, first, rest⟩ := bind_eq_ok_iff.1 continued
  obtain rfl : r₁ = r := Except.ok.inj (first.symm.trans recorded)
  have both : r'.Nested ∧ r₁.Continues r' := by
    refine foldlM_induction (P := fun r' => r'.Nested ∧ r₁.Continues r')
      ⟨nested_of_run recorded, .refl r₁⟩ ?_ rest
    rintro step r₂ r₃ - ⟨nested, continues⟩ applied
    obtain ⟨next, result, rfl⟩ := map_eq_ok_iff.1 applied
    exact ⟨nested.apply result, continues.apply nested result⟩
  exact both.2

/-- A recording agrees with what becomes of it before each of its events. -/
theorem agreeBefore_of_run (recorded : run program steps = .ok r)
    (continued : run program (steps ++ more) = .ok r') (inside : boundary.index ≤ r.events.size) :
    r.trace.AgreeBefore r'.trace boundary := by
  have continues := continues_of_run recorded continued
  refine ⟨continues.program, inside, Nat.le_trans inside continues.size, fun e before => ?_,
    fun start finish before => ?_⟩
  · exact continues.events e.index (Nat.lt_of_lt_of_le before inside)
  · exact continues.ends start finish (Nat.lt_of_lt_of_le before inside)

end Recorder

end Inquest
