import RegAlloc.Interval.Lifetime
import RegAlloc.Proofs.Ranges

/-!
# Live intervals as sets of positions

A well-shaped interval covers something and is written down as an ordered list of
ranges. Its start and stop are then the ends of the set it covers, and a cut divides
that set. Its uses are sorted and lie in the set, and a cut divides them as well.

- `Interval.Shaped`, `Interval.Used` — the intervals that the allocator works with;
- `start_le`, `lt_stop`, `covers_start`, `covers_last` — the ends of an interval;
- `split_eq`, `shaped_keepBefore`, `shaped_cutOff` — the two sides of a cut;
- `meets_eq_false_iff`, `nextRegisterUse?_eq_some` — what looking ahead finds.
-/

namespace RegAlloc

namespace Interval

/-- An interval that is not empty, with ordered ranges. -/
structure Shaped (i : Interval) : Prop where
  ordered : Ranges.Ordered i.ranges
  nonempty : i.ranges ≠ []

/-- An interval whose uses are sorted and covered. -/
structure Used (i : Interval) : Prop where
  sorted : i.uses.Pairwise fun u v => u.position ≤ v.position
  covered : ∀ u ∈ i.uses, i.covers u.position = true

variable {i j : Interval} {p q : Position}

/-! ## Ends -/

theorem covers_start (h : i.Shaped) : i.covers i.start = true := by
  obtain ⟨r, rest, hr⟩ := List.exists_cons_of_ne_nil h.nonempty
  have hlt : r.start < r.stop := h.ordered.nonempty r (by simp [hr])
  simp [covers, start, start?, hr, Range.covers, hlt]

theorem start_le (h : i.Shaped) (hq : i.covers q = true) : i.start ≤ q := by
  obtain ⟨r, rest, hr⟩ := List.exists_cons_of_ne_nil h.nonempty
  have hord := h.ordered
  rw [covers, hr] at hq
  rw [hr] at hord
  simpa [start, start?, hr] using Ranges.start_le_of_covers hord hq

theorem exists_last (h : i.Shaped) :
    ∃ r ∈ i.ranges, i.ranges.getLast? = some r ∧ i.stop = r.stop := by
  have hlast := List.getLast?_eq_some_getLast h.nonempty
  exact ⟨_, List.getLast_mem h.nonempty, hlast, by simp [stop, stop?, hlast]⟩

theorem lt_stop (h : i.Shaped) (hq : i.covers q = true) : q < i.stop := by
  obtain ⟨r, -, hlast, hstop⟩ := exists_last h
  obtain ⟨s, hs, -, hqs⟩ := Ranges.covers_iff.1 hq
  have := Ranges.stop_le_of_getLast? h.ordered hlast hs
  lia

theorem covers_last (h : i.Shaped) : i.covers (i.stop - 1) = true := by
  obtain ⟨r, hr, -, hstop⟩ := exists_last h
  have := h.ordered.nonempty r hr
  exact Ranges.covers_iff.2 ⟨r, hr, by lia, by lia⟩

theorem start_lt_stop (h : i.Shaped) : i.start < i.stop := lt_stop h (covers_start h)

theorem stop_le (h : i.Shaped) (hq : ∀ x, i.covers x = true → x < q) : i.stop ≤ q := by
  have := hq _ (covers_last h)
  lia

/-- The start is the least covered position. -/
theorem start_eq_of_least (h : i.Shaped) (hq : i.covers q = true)
    (hleast : ∀ x, i.covers x = true → q ≤ x) : i.start = q :=
  Int.le_antisymm (start_le h hq) (hleast _ (covers_start h))

theorem not_covers_of_lt_start (h : i.Shaped) (hq : q < i.start) : i.covers q = false := by
  rw [Bool.eq_false_iff]
  intro hcov
  have := start_le h hcov
  lia

theorem not_covers_of_stop_le (h : i.Shaped) (hq : i.stop ≤ q) : i.covers q = false := by
  rw [Bool.eq_false_iff]
  intro hcov
  have := lt_stop h hcov
  lia

/-! ## Cutting -/

@[simp] theorem covers_keepBefore : (i.keepBefore p).covers q = true ↔ i.covers q = true ∧ q < p :=
  Ranges.covers_before i.ranges p q

@[simp] theorem covers_cutOff {id : IntervalId} :
    (i.cutOff p id).covers q = true ↔ i.covers q = true ∧ p ≤ q :=
  Ranges.covers_onward i.ranges p q

@[simp] theorem register_keepBefore : (i.keepBefore p).register = i.register := rfl

@[simp] theorem location_keepBefore : (i.keepBefore p).location = i.location := rfl

@[simp] theorem origin_keepBefore : (i.keepBefore p).origin = i.origin := rfl

@[simp] theorem register_cutOff {id : IntervalId} : (i.cutOff p id).register = i.register := rfl

@[simp] theorem location_cutOff {id : IntervalId} : (i.cutOff p id).location = none := rfl

@[simp] theorem mem_uses_keepBefore {u : UsePoint} :
    u ∈ (i.keepBefore p).uses ↔ u ∈ i.uses ∧ u.position < p := by
  simp [keepBefore]

@[simp] theorem mem_uses_cutOff {u : UsePoint} {id : IntervalId} :
    u ∈ (i.cutOff p id).uses ↔ u ∈ i.uses ∧ p ≤ u.position := by
  simp [cutOff]

/-- The part before a cut is well-shaped if the interval starts before it. -/
theorem shaped_keepBefore (h : i.Shaped) (hp : i.start < p) : (i.keepBefore p).Shaped where
  ordered := Ranges.ordered_before p h.ordered
  nonempty hnil := by
    have hcov : (i.keepBefore p).covers i.start = true := covers_keepBefore.2 ⟨covers_start h, hp⟩
    simp [covers, hnil] at hcov

/-- The part from a cut on is well-shaped if the interval stops after it. -/
theorem shaped_cutOff (h : i.Shaped) (hp : p < i.stop) (id : IntervalId) :
    (i.cutOff p id).Shaped where
  ordered := Ranges.ordered_onward p h.ordered
  nonempty hnil := by
    have hcov : (i.cutOff p id).covers (i.stop - 1) = true :=
      covers_cutOff.2 ⟨covers_last h, by lia⟩
    simp [covers, hnil] at hcov

theorem used_keepBefore (h : i.Used) (p : Position) : (i.keepBefore p).Used where
  sorted := h.sorted.filter _
  covered u hu := by
    obtain ⟨hu, hup⟩ := mem_uses_keepBefore.1 hu
    exact covers_keepBefore.2 ⟨h.covered u hu, hup⟩

theorem used_cutOff (h : i.Used) (p : Position) (id : IntervalId) : (i.cutOff p id).Used where
  sorted := h.sorted.filter _
  covered u hu := by
    obtain ⟨hu, hup⟩ := mem_uses_cutOff.1 hu
    exact covers_cutOff.2 ⟨h.covered u hu, hup⟩

theorem start_keepBefore (h : i.Shaped) (hp : i.start < p) : (i.keepBefore p).start = i.start :=
  start_eq_of_least (shaped_keepBefore h hp) (covers_keepBefore.2 ⟨covers_start h, hp⟩)
    fun _ hx => start_le h (covers_keepBefore.1 hx).1

theorem stop_keepBefore_le (h : i.Shaped) (hp : i.start < p) : (i.keepBefore p).stop ≤ p := by
  have := (covers_keepBefore.1 (covers_last (shaped_keepBefore h hp))).2
  lia

theorem le_start_cutOff (h : i.Shaped) (hp : p < i.stop) (id : IntervalId) :
    p ≤ (i.cutOff p id).start :=
  (covers_cutOff.1 (covers_start (shaped_cutOff h hp id))).2

theorem checkNonempty_eq_ok (h : i.ranges ≠ []) : i.checkNonempty = .ok () := by
  simp [checkNonempty, isEmpty, h]

/-- A cut strictly inside an interval succeeds, and no other does. -/
theorem split_eq (h : i.Shaped) (p : Position) (id : IntervalId) :
    i.split p id = if i.start < p ∧ p < i.stop then .ok (i.keepBefore p, i.cutOff p id)
      else .error (.cannotSplit i.id i.start i.stop p) := by
  rw [split, checkNonempty_eq_ok h.nonempty]
  rfl

/-! ## Looking ahead -/

/-- Two intervals meet exactly when some position is covered by both. -/
theorem meets_eq_false_iff (hi : Ranges.Ascending i.ranges) (hj : Ranges.Ascending j.ranges) :
    i.meets j = false ↔ ∀ p, i.covers p = true → j.covers p = false := by
  rw [meets, Option.isSome_eq_false_iff, Option.isNone_iff_eq_none]
  exact Ranges.firstCommon?_eq_none_iff hi hj

theorem meets_eq_true_iff (hi : Ranges.Ascending i.ranges) (hj : Ranges.Ascending j.ranges) :
    i.meets j = true ↔ ∃ p, i.covers p = true ∧ j.covers p = true := by
  rw [← Bool.not_eq_false, meets_eq_false_iff hi hj]
  simp

theorem nextRegisterUse?_eq_some {u : Position} (h : i.Used)
    (hu : i.nextRegisterUse? p = some u) :
    p ≤ u ∧ (∃ use ∈ i.uses, use.position = u ∧ use.policy = .register) ∧
      ∀ use ∈ i.uses, use.policy = .register → p ≤ use.position → u ≤ use.position := by
  obtain ⟨use, huse, rfl⟩ := Option.map_eq_some_iff.1 hu
  obtain ⟨hfound, before, behind, huses, hbefore⟩ := List.find?_eq_some_iff_append.1 huse
  simp only [Bool.and_eq_true, decide_eq_true_eq, beq_iff_eq] at hfound
  refine ⟨hfound.1, ⟨use, by simp [huses], rfl, hfound.2⟩, fun other hother hreg hp => ?_⟩
  have hsorted := h.sorted
  rw [huses] at hother hsorted
  rcases List.mem_append.1 hother with hother | hother
  · simpa [hreg, hp] using hbefore other hother
  · rcases List.mem_cons.1 hother with rfl | hother
    · exact Int.le_refl _
    · exact (List.pairwise_cons.1 (List.pairwise_append.1 hsorted).2.1).1 other hother

/-- A cut by `q` does not change what is needed from `q` on. -/
theorem nextRegisterUse?_cutOff {id : IntervalId} (hpq : p ≤ q) :
    (i.cutOff p id).nextRegisterUse? q = i.nextRegisterUse? q := by
  rw [nextRegisterUse?, nextRegisterUse?, cutOff, List.find?_filter]
  congr 2
  funext use
  grind

theorem nextRegisterUse?_eq_none (hu : i.nextRegisterUse? p = none) :
    ∀ use ∈ i.uses, use.policy = .register → use.position < p := by
  intro use huse hreg
  rw [nextRegisterUse?, Option.map_eq_none_iff, List.find?_eq_none] at hu
  simpa [hreg] using hu use huse

end Interval

end RegAlloc
