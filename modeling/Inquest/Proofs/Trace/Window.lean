import Inquest.Trace.Basic

/-!
# What a search in a window finds

A search that succeeds gives an event of the recording that lies in the window and meets the
condition.  The analyses rely on this whenever they read the record of an event that a search
gave them.  A search does not go past such an event, and no search looks at anything outside its
window.

## Main Statements

* `Trace.scanUp_found`, `Trace.scanDown_found` - the two scans
* `Trace.findBetween_found`, `Trace.findLastBetween_found` - the two searches in a window
* `Trace.exists_findBetween_le` - a search finds the first event that meets the condition
* `Trace.exists_le_findLastBetween` - a search from the end finds the last one
* `Trace.findBetween_congr`, `Trace.findLastBetween_congr` - what a search depends on
-/

namespace Inquest.Trace

variable {t t' : Trace} {p : Record → Bool}

/-- An upward scan gives an event of the recording among those it was to look at. -/
theorem scanUp_found {position count : Nat} {event : EventId}
    (found : t.scanUp p position count = some event) :
    ∃ r, t.record? event = some r ∧ p r = true ∧ position ≤ event.index ∧
      event.index < position + count := by
  induction count generalizing position with
  | zero => cases found
  | succ count ih =>
    rw [scanUp] at found
    cases read : t.events[position]? with
    | none => simp [read] at found
    | some r =>
      simp only [read] at found
      by_cases meets : p r = true
      · rw [if_pos meets] at found
        cases found
        exact ⟨r, read, meets, Nat.le_refl _, by simp⟩
      · rw [if_neg meets] at found
        obtain ⟨r', recorded, meets', low, high⟩ := ih found
        exact ⟨r', recorded, meets', by omega, by omega⟩

/-- A downward scan gives an event of the recording between its two ends. -/
theorem scanDown_found {low high : Nat} {event : EventId}
    (found : t.scanDown p low high = some event) :
    ∃ r, t.record? event = some r ∧ p r = true ∧ low ≤ event.index ∧ event.index < high := by
  induction high with
  | zero => cases found
  | succ high ih =>
    rw [scanDown] at found
    by_cases below : high < low
    · rw [if_pos below] at found
      cases found
    · rw [if_neg below] at found
      cases read : t.events[high]? with
      | none =>
        obtain ⟨r, recorded, meets, above, under⟩ := ih (by simpa [read] using found)
        exact ⟨r, recorded, meets, above, by omega⟩
      | some r =>
        simp only [read, Option.any_some] at found
        by_cases meets : p r = true
        · rw [if_pos meets] at found
          cases found
          exact ⟨r, read, meets, Nat.le_of_not_lt below, by simp⟩
        · rw [if_neg meets] at found
          obtain ⟨r', recorded, meets', above, under⟩ := ih found
          exact ⟨r', recorded, meets', above, by omega⟩

/-- The event that a search gives lies in the window. -/
theorem findBetween_found {first last event : EventId}
    (found : t.findBetween first last p = some event) :
    ∃ r, t.record? event = some r ∧ p r = true ∧ first ≤ event ∧ event ≤ last := by
  obtain ⟨r, recorded, meets, low, high⟩ := scanUp_found found
  refine ⟨r, recorded, meets, low, ?_⟩
  rw [windowEnd] at high
  exact Ident.le_def.2 (by omega)

/-- The event that a search from the end gives lies in the window. -/
theorem findLastBetween_found {first last event : EventId}
    (found : t.findLastBetween first last p = some event) :
    ∃ r, t.record? event = some r ∧ p r = true ∧ first ≤ event ∧ event ≤ last := by
  obtain ⟨r, recorded, meets, low, high⟩ := scanDown_found found
  refine ⟨r, recorded, meets, low, ?_⟩
  rw [windowEnd] at high
  exact Ident.le_def.2 (by omega)

/-! ### The first one -/

/-- An upward scan does not go past an event that meets the condition. -/
theorem exists_scanUp_le {position count : Nat} {event : EventId} {r : Record}
    (low : position ≤ event.index) (high : event.index < position + count)
    (recorded : t.record? event = some r) (meets : p r = true) :
    ∃ found, t.scanUp p position count = some found ∧ found ≤ event := by
  induction count generalizing position with
  | zero => omega
  | succ count ih =>
    have inside : event.index < t.events.size := (Array.getElem?_eq_some_iff.1 recorded).1
    have read : t.events[position]? = some t.events[position] :=
      Array.getElem?_eq_getElem (Nat.lt_of_le_of_lt low inside)
    rw [scanUp, read]
    by_cases here : p t.events[position] = true
    · exact ⟨⟨position⟩, if_pos here, low⟩
    · have later : position ≠ event.index := by
        rintro rfl
        rw [record?, read, Option.some.injEq] at recorded
        exact here (recorded ▸ meets)
      obtain ⟨found, scanned, before⟩ := @ih (position + 1) (by omega) (by omega)
      exact ⟨found, (if_neg here).trans scanned, before⟩

/-- A search does not go past an event of the window that meets the condition. -/
theorem exists_findBetween_le {first last event : EventId} {r : Record} (low : first ≤ event)
    (high : event ≤ last) (recorded : t.record? event = some r) (meets : p r = true) :
    ∃ found, t.findBetween first last p = some found ∧ found ≤ event := by
  have inside : event.index < t.size := (Array.getElem?_eq_some_iff.1 recorded).1
  have low := Ident.le_def.1 low
  have high := Ident.le_def.1 high
  refine exists_scanUp_le low ?_ recorded meets
  rw [windowEnd]
  omega

/-! ### The last one -/

/-- A downward scan does not go past an event that meets the condition. -/
theorem exists_le_scanDown {low high : Nat} {event : EventId} {r : Record}
    (above : low ≤ event.index) (below : event.index < high)
    (recorded : t.record? event = some r) (meets : p r = true) :
    ∃ found, t.scanDown p low high = some found ∧ event ≤ found := by
  induction high with
  | zero => omega
  | succ high ih =>
    rw [scanDown, if_neg (by omega)]
    by_cases here : t.events[high]?.any p = true
    · exact ⟨⟨high⟩, if_pos here, Nat.le_of_lt_succ below⟩
    · have earlier : event.index ≠ high := by
        rintro rfl
        rw [record?] at recorded
        rw [recorded, Option.any_some] at here
        exact here meets
      obtain ⟨found, scanned, after⟩ := ih (by omega)
      exact ⟨found, (if_neg here).trans scanned, after⟩

/-- A search from the end does not go past an event of the window that meets the condition. -/
theorem exists_le_findLastBetween {first last event : EventId} {r : Record} (low : first ≤ event)
    (high : event ≤ last) (recorded : t.record? event = some r) (meets : p r = true) :
    ∃ found, t.findLastBetween first last p = some found ∧ event ≤ found := by
  have inside : event.index < t.size := (Array.getElem?_eq_some_iff.1 recorded).1
  have high := Ident.le_def.1 high
  refine exists_le_scanDown low ?_ recorded meets
  rw [windowEnd]
  omega

/-! ### What a search depends on -/

/-- An upward scan depends on the records that it is to look at. -/
theorem scanUp_congr {position count : Nat}
    (same : ∀ index, position ≤ index → index < position + count →
      t'.events[index]? = t.events[index]?) :
    t'.scanUp p position count = t.scanUp p position count := by
  induction count generalizing position with
  | zero => rfl
  | succ count ih =>
    have rest := ih fun index low high => same index (Nat.le_of_succ_le low) (by omega)
    rw [scanUp, scanUp, same position (Nat.le_refl _) (by omega), rest]

/-- A downward scan depends on the records below its upper end. -/
theorem scanDown_congr {low high : Nat}
    (same : ∀ index, index < high → t'.events[index]? = t.events[index]?) :
    t'.scanDown p low high = t.scanDown p low high := by
  induction high with
  | zero => rfl
  | succ high ih =>
    have rest := ih fun index inside => same index (Nat.lt_succ_of_lt inside)
    rw [scanDown, scanDown, same high (Nat.lt_succ_self high), rest]

section Congr

variable {first last : EventId} (inside : last.index < t.size) (inside' : last.index < t'.size)
variable (same : ∀ e, e ≤ last → t'.record? e = t.record? e)

include inside inside' same

/-- A search depends on the records of the recording up to the end of its window. -/
theorem findBetween_congr : t'.findBetween first last p = t.findBetween first last p := by
  have ends : t'.windowEnd last = t.windowEnd last := by
    rw [windowEnd, windowEnd]
    omega
  rw [findBetween, findBetween, ends]
  refine scanUp_congr fun index low high => same ⟨index⟩ (Ident.le_def.2 ?_)
  rw [windowEnd] at high
  show index ≤ last.index
  omega

/-- So does a search from the end. -/
theorem findLastBetween_congr :
    t'.findLastBetween first last p = t.findLastBetween first last p := by
  have ends : t'.windowEnd last = t.windowEnd last := by
    rw [windowEnd, windowEnd]
    omega
  rw [findLastBetween, findLastBetween, ends]
  refine scanDown_congr fun index high => same ⟨index⟩ (Ident.le_def.2 ?_)
  rw [windowEnd] at high
  show index ≤ last.index
  omega

end Congr

end Inquest.Trace
