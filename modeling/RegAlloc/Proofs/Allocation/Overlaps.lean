import Mathlib.Order.Bounds.Defs
import RegAlloc.Proofs.Allocation.Checked

/-!
# Common positions and overlaps

Two intervals are searched for a common position in one walk along their ranges, which leaves
behind whichever range stops first. What is left behind meets nothing that is still to come, so
the walk stops at the least common position. Which of the two intervals is asked for the other
makes no difference, and the check of an allocation notices every overlap.

- `Interval.firstCommon?_eq_some_iff`, `firstCommon?_comm` — what the walk finds;
- `Interval.SharesPlace` — intervals at places that print alike;
- `Allocation.checkOverlaps_iff` — what the check of overlaps accepts;
- `first_common_least` — all of this.
-/

namespace RegAlloc

namespace Interval

variable {i j : Interval} {p : Position}

theorem firstCommon?_isFirst (hi : Ranges.Ascending i.ranges) (hj : Ranges.Ascending j.ranges) :
    Ranges.IsFirst (fun p => i.covers p = true ∧ j.covers p = true) (i.firstCommon? j) :=
  Ranges.firstCommon?_isFirst hi hj

theorem firstCommon?_eq_none_iff (hi : Ranges.Ascending i.ranges)
    (hj : Ranges.Ascending j.ranges) :
    i.firstCommon? j = none ↔ ∀ p, ¬(i.covers p = true ∧ j.covers p = true) := by
  have hfirst := firstCommon?_isFirst hi hj
  constructor
  · intro hnone
    rwa [hnone] at hfirst
  · intro hnone
    exact hfirst.unique hnone

theorem firstCommon?_eq_some_iff (hi : Ranges.Ascending i.ranges)
    (hj : Ranges.Ascending j.ranges) :
    i.firstCommon? j = some p ↔ IsLeast {q | i.covers q = true ∧ j.covers q = true} p := by
  have hfirst := firstCommon?_isFirst hi hj
  constructor
  · intro hsome
    rw [hsome] at hfirst
    exact ⟨hfirst.1, fun q hq => hfirst.2 q hq⟩
  · rintro ⟨hp, hleast⟩
    exact hfirst.unique ⟨hp, fun q hq => hleast hq⟩

/-- Of two intervals, either may be asked for the other. -/
theorem firstCommon?_comm (hi : Ranges.Ascending i.ranges) (hj : Ranges.Ascending j.ranges) :
    i.firstCommon? j = j.firstCommon? i :=
  (firstCommon?_isFirst hi hj).unique ((firstCommon?_isFirst hj hi).congr fun _ => and_comm)

/-- Whether two intervals are at places that print alike. -/
def SharesPlace (i j : Interval) : Prop :=
  ∃ l m, i.location = some l ∧ j.location = some m ∧ l.text = m.text

end Interval

/-- The check of overlaps accepts an allocation exactly when no position is covered by two of its
pieces at one place. -/
theorem Allocation.checkOverlaps_iff {a : Allocation}
    (h : ∀ i ∈ a.intervals, Ranges.Ascending i.ranges) :
    a.checkOverlaps = .ok () ↔ a.intervals.Pairwise fun i j =>
      i.SharesPlace j → ∀ p, ¬(i.covers p = true ∧ j.covers p = true) := by
  rw [checkOverlaps_eq_ok_iff]
  refine List.Pairwise.iff_of_mem fun {i j} hi hj => ?_
  have hmeets : i.meets j = false ↔ ∀ p, ¬(i.covers p = true ∧ j.covers p = true) := by
    rw [Interval.meets_eq_false_iff (h i hi) (h j hj)]
    simp only [not_and, Bool.not_eq_true]
  rw [hmeets]
  constructor
  · rintro hplaces ⟨l, m, hl, hm, htext⟩
    exact hplaces l m hl hm htext
  · intro hplaces l m hl hm htext
    exact hplaces ⟨l, m, hl, hm, htext⟩

/-- Of two intervals with disjoint ranges in order, the first common position is the least
position that both cover, and there is none exactly when no position is covered by both; so it is
the same in either order. The check of overlaps accepts such intervals exactly when no position is
covered by two of them whose places print alike. -/
theorem first_common_least :
    (∀ i j : Interval, Ranges.Ascending i.ranges → Ranges.Ascending j.ranges →
      (i.firstCommon? j = none ↔ ∀ p, ¬(i.covers p = true ∧ j.covers p = true)) ∧
      (∀ p, i.firstCommon? j = some p ↔
        IsLeast {q | i.covers q = true ∧ j.covers q = true} p) ∧
      i.firstCommon? j = j.firstCommon? i) ∧
    ∀ a : Allocation, (∀ i ∈ a.intervals, Ranges.Ascending i.ranges) →
      (a.checkOverlaps = .ok () ↔ a.intervals.Pairwise fun i j =>
        i.SharesPlace j → ∀ p, ¬(i.covers p = true ∧ j.covers p = true)) := by
  refine ⟨fun i j hi hj => ⟨?_, fun p => ?_, ?_⟩, fun a ha => ?_⟩
  · exact Interval.firstCommon?_eq_none_iff hi hj
  · exact Interval.firstCommon?_eq_some_iff hi hj
  · exact Interval.firstCommon?_comm hi hj
  · exact Allocation.checkOverlaps_iff ha

/-- Three intervals in one slot, the second in a hole of the first and behind it. The third
meets the first, and ends where a range of the first does. -/
def interlocked : List Interval :=
  [{ id := 0, register := 0, ranges := [⟨0, 2⟩, ⟨4, 6⟩, ⟨6, 9⟩], location := some (.slot 0) },
    { id := 1, register := 1, ranges := [⟨2, 4⟩, ⟨9, 11⟩], location := some (.slot 0) },
    { id := 2, register := 2, ranges := [⟨-3, 0⟩, ⟨8, 9⟩], location := some (.slot 0) }]

/-- The check accepts the first two and refuses all three. -/
theorem first_common_least_interlocked :
    (∀ i ∈ interlocked, Ranges.Ascending i.ranges) ∧
      IsLeast {q | interlocked[0].covers q = true ∧ interlocked[2].covers q = true} 8 ∧
      (∀ p, ¬(interlocked[0].covers p = true ∧ interlocked[1].covers p = true)) ∧
      ¬interlocked.Pairwise fun i j =>
        i.SharesPlace j → ∀ p, ¬(i.covers p = true ∧ j.covers p = true) := by
  have hascending : ∀ i ∈ interlocked, Ranges.Ascending i.ranges := by decide
  obtain ⟨hpairs, hchecks⟩ := first_common_least
  refine ⟨hascending, ?_, ?_, ?_⟩
  · exact ((hpairs _ _ (by decide) (by decide)).2.1 8).1 (by decide)
  · exact (hpairs _ _ (by decide) (by decide)).1.1 (by decide)
  · have hrefused := hchecks { (default : Allocation) with intervals := interlocked } hascending
    rw [← hrefused]
    decide

end RegAlloc
