import RegAlloc.Proofs.Intervals

/-!
# Tilings of lifetimes

While the sweep runs, the life of a register is a row of finished pieces followed by at
most one piece that is still pending. A sweep changes such a row in three ways only: it
gives a pending piece a location, it finishes a pending piece, or it cuts one, which
finishes the front and leaves the rest pending.

- `Tiling` — the finished and the pending pieces divide the roots between them;
- `Tiling.relocate`, `Tiling.finish`, `Tiling.cut` — the three changes keep a tiling;
- `Tiling.apart` — two pieces of one register never overlap.
-/

namespace RegAlloc

/-- Pieces that divide the roots between them: at most one pending piece a register,
behind the finished ones, which stand in order. -/
structure Tiling (roots finished pending : List Interval) : Prop where
  shaped : ∀ i ∈ finished ++ pending, i.Shaped
  used : ∀ i ∈ finished ++ pending, i.Used
  single : (pending.map (·.register)).Nodup
  ordered : finished.Pairwise fun i j => i.register = j.register → i.stop ≤ j.start
  before : ∀ i ∈ finished, ∀ j ∈ pending, i.register = j.register → i.stop ≤ j.start
  /-- Nothing of a life is lost and nothing is added. -/
  covers : ∀ r p, (∃ i ∈ finished ++ pending, i.register = r ∧ i.covers p = true) ↔
    ∃ i ∈ roots, i.register = r ∧ i.covers p = true
  uses : ∀ r u, (∃ i ∈ finished ++ pending, i.register = r ∧ u ∈ i.uses) ↔
    ∃ i ∈ roots, i.register = r ∧ u ∈ i.uses
  /-- Each root is still there, as the first piece of its life. -/
  wholes : (((finished ++ pending).filter (·.origin == .whole)).map (·.register)).Perm
    (roots.map (·.register))
  whole_before : ∀ i ∈ finished ++ pending, i.origin ≠ .whole →
    ∃ j ∈ finished, j.register = i.register ∧ j.origin = .whole ∧ j.stop ≤ i.start

namespace Tiling

variable {roots finished pending : List Interval} {i : Interval}

/-- The roots themselves are a tiling, with nothing finished. -/
theorem start (hshaped : ∀ i ∈ roots, i.Shaped) (hused : ∀ i ∈ roots, i.Used)
    (hsingle : (roots.map (·.register)).Nodup) (hwhole : ∀ i ∈ roots, i.origin = .whole) :
    Tiling roots [] roots where
  shaped := by simpa using hshaped
  used := by simpa using hused
  single := hsingle
  ordered := .nil
  before := by simp
  covers r p := by simp
  uses r u := by simp
  wholes := by
    have hall : roots.filter (·.origin == .whole) = roots :=
      List.filter_eq_self.2 fun i hi => by simp [hwhole i hi]
    simp [hall]
  whole_before i hi hne := absurd (hwhole i (by simpa using hi)) hne

/-- The order of the pending pieces does not matter. -/
theorem perm {pending' : List Interval} (h : Tiling roots finished pending)
    (hperm : pending.Perm pending') : Tiling roots finished pending' := by
  have hall : (finished ++ pending).Perm (finished ++ pending') := hperm.append_left finished
  constructor
  · intro i hi
    exact h.shaped i (hall.mem_iff.2 hi)
  · intro i hi
    exact h.used i (hall.mem_iff.2 hi)
  · exact (hperm.map _).nodup_iff.1 h.single
  · exact h.ordered
  · intro i hi j hj
    exact h.before i hi j (hperm.mem_iff.2 hj)
  · intro r p
    rw [← h.covers r p]
    simp only [hall.mem_iff]
  · intro r u
    rw [← h.uses r u]
    simp only [hall.mem_iff]
  · exact ((hall.filter _).map _).symm.trans h.wholes
  · intro i hi
    exact h.whole_before i (hall.mem_iff.2 hi)

/-- A pending piece may be given a location. -/
theorem relocate (h : Tiling roots finished (i :: pending)) (location : Option Location) :
    Tiling roots finished ({ i with location } :: pending) := by
  -- no statement about the pieces looks at a location
  have hmem : ∀ {P : Interval → Prop}, (P i ↔ P { i with location }) →
      ((∃ x ∈ finished ++ { i with location } :: pending, P x) ↔
        ∃ x ∈ finished ++ i :: pending, P x) := by
    intro P hP
    simp [or_and_right, exists_or, hP]
  have hforall : ∀ {P : Interval → Prop}, (P i → P { i with location }) →
      (∀ x ∈ finished ++ i :: pending, P x) →
      ∀ x ∈ finished ++ { i with location } :: pending, P x := by
    intro P hP hall x hx
    rcases List.mem_append.1 hx with hx | hx
    · exact hall x (by simp [hx])
    · rcases List.mem_cons.1 hx with rfl | hx
      · exact hP (hall i (by simp))
      · exact hall x (by simp [hx])
  constructor
  · exact hforall (fun hi => ⟨hi.ordered, hi.nonempty⟩) h.shaped
  · exact hforall (fun hi => ⟨hi.sorted, hi.covered⟩) h.used
  · simpa using h.single
  · exact h.ordered
  · intro x hx y hy
    rcases List.mem_cons.1 hy with rfl | hy
    · exact h.before x hx i (by simp)
    · exact h.before x hx y (by simp [hy])
  · intro r p
    rw [← h.covers r p]
    exact hmem Iff.rfl
  · intro r u
    rw [← h.uses r u]
    exact hmem Iff.rfl
  · simpa [List.filter_append, List.filter_cons, apply_ite] using h.wholes
  · exact hforall (fun hi => hi) h.whole_before

/-- No two pending pieces are of one register. -/
theorem register_ne (h : Tiling roots finished (i :: pending)) {j : Interval} (hj : j ∈ pending) :
    i.register ≠ j.register := by
  have hsingle := h.single
  rw [List.map_cons, List.nodup_cons] at hsingle
  exact fun heq => hsingle.1 (heq ▸ List.mem_map_of_mem hj)

/-- A pending piece may be finished as it is. -/
theorem finish (h : Tiling roots finished (i :: pending)) :
    Tiling roots (finished ++ [i]) pending := by
  have hsame : finished ++ [i] ++ pending = finished ++ i :: pending := by simp
  constructor
  · exact hsame ▸ h.shaped
  · exact hsame ▸ h.used
  · exact (List.nodup_cons.1 h.single).2
  -- the finished piece stands behind all earlier ones of its register
  · refine List.pairwise_append.2 ⟨h.ordered, List.pairwise_singleton .., fun x hx y hy => ?_⟩
    cases List.mem_singleton.1 hy
    exact h.before x hx i (by simp)
  -- no other piece of the register is pending
  · intro x hx y hy hreg
    rcases List.mem_append.1 hx with hx | hx
    · exact h.before x hx y (by simp [hy]) hreg
    · cases List.mem_singleton.1 hx
      exact absurd hreg (h.register_ne hy)
  · exact hsame ▸ h.covers
  · exact hsame ▸ h.uses
  · exact hsame ▸ h.wholes
  · intro x hx hne
    obtain ⟨j, hj, hrest⟩ := h.whole_before x (hsame ▸ hx) hne
    exact ⟨j, by simp [hj], hrest⟩

theorem finishAll : ∀ {l finished : List Interval}, Tiling roots finished (l ++ pending) →
    Tiling roots (finished ++ l) pending
  | [], finished, h => by simpa using h
  | i :: l, finished, h => by simpa using finishAll (l := l) (finish h)

/-- The pieces after a cut: an old one, or a side of the cut. -/
theorem mem_cut {front rest x : Interval} : x ∈ finished ++ [front] ++ rest :: pending ↔
    x = front ∨ x = rest ∨ x ∈ finished ++ pending := by
  simp only [List.mem_append, List.mem_cons, List.not_mem_nil, or_false]
  grind

/-- After a cut, the root of a register is still its first piece. -/
theorem whole_before_cut (h : Tiling roots finished (i :: pending)) {p : Position}
    (hstart : i.start < p) (hstop : p < i.stop) (id : IntervalId) :
    ∀ x ∈ finished ++ [i.keepBefore p] ++ i.cutOff p id :: pending, x.origin ≠ .whole →
      ∃ j ∈ finished ++ [i.keepBefore p], j.register = x.register ∧ j.origin = .whole ∧
        j.stop ≤ x.start := by
  have hi : i.Shaped := h.shaped i (by simp)
  have hkeptStart := Interval.start_keepBefore hi hstart
  have hkeptStop := Interval.stop_keepBefore_le hi hstart
  have hrestStart := Interval.le_start_cutOff hi hstop id
  have hwhole : ∀ y ∈ finished ++ i :: pending, y.origin ≠ .whole →
      ∃ j ∈ finished ++ [i.keepBefore p], j.register = y.register ∧ j.origin = .whole ∧
        j.stop ≤ y.start := by
    intro y hy hne
    obtain ⟨j, hj, hfirst⟩ := h.whole_before y hy hne
    exact ⟨j, by simp [hj], hfirst⟩
  intro x hx hne
  -- every other piece keeps the root that stood before it
  rcases mem_cut.1 hx with rfl | rfl | hx
  · rw [hkeptStart]
    exact hwhole i (by simp) hne
  · -- the rest stands behind the root, which is the front or stands before it
    by_cases hiw : i.origin = .whole
    · exact ⟨i.keepBefore p, by simp, rfl, hiw, by lia⟩
    · obtain ⟨j, hj, hreg, horigin, hle⟩ := hwhole i (by simp) hiw
      have : i.start ≤ (i.cutOff p id).start := by lia
      exact ⟨j, hj, hreg, horigin, by lia⟩
  · exact hwhole x (by grind) hne

/-- A pending piece may be cut: its front is finished and the rest stays pending. -/
theorem cut (h : Tiling roots finished (i :: pending)) {p : Position} (hstart : i.start < p)
    (hstop : p < i.stop) (id : IntervalId) :
    Tiling roots (finished ++ [i.keepBefore p]) (i.cutOff p id :: pending) := by
  have hi : i.Shaped := h.shaped i (by simp)
  have hkeptStart := Interval.start_keepBefore hi hstart
  have hkeptStop := Interval.stop_keepBefore_le hi hstart
  have hrestStart := Interval.le_start_cutOff hi hstop id
  -- one piece is replaced by its two parts
  have hold : ∀ {P : Interval → Prop},
      (∃ x ∈ finished ++ i :: pending, P x) ↔ P i ∨ ∃ x ∈ finished ++ pending, P x := by
    intro P
    simp only [List.mem_append, List.mem_cons, or_and_right, exists_or, exists_eq_left]
    grind
  constructor
  · intro x hx
    rcases mem_cut.1 hx with rfl | rfl | hx
    · exact Interval.shaped_keepBefore hi hstart
    · exact Interval.shaped_cutOff hi hstop id
    · exact h.shaped x (by grind)
  · intro x hx
    rcases mem_cut.1 hx with rfl | rfl | hx
    · exact Interval.used_keepBefore (h.used i (by simp)) p
    · exact Interval.used_cutOff (h.used i (by simp)) p id
    · exact h.used x (by grind)
  · simpa using h.single
  · refine List.pairwise_append.2 ⟨h.ordered, List.pairwise_singleton .., fun x hx y hy hreg => ?_⟩
    cases List.mem_singleton.1 hy
    rw [hkeptStart]
    exact h.before x hx i (by simp) hreg
  · intro x hx y hy hreg
    -- the front keeps the old start, and the rest stands behind the front
    rcases List.mem_append.1 hx with hx | hx <;> rcases List.mem_cons.1 hy with rfl | hy
    · have := h.before x hx i (by simp) hreg
      lia
    · exact h.before x hx y (by simp [hy]) hreg
    · cases List.mem_singleton.1 hx
      lia
    · cases List.mem_singleton.1 hx
      exact absurd hreg (h.register_ne hy)
  -- a position of the old piece is on one side of the cut
  · intro r q
    simp only [mem_cut, or_and_right, exists_or, exists_eq_left]
    rw [← h.covers r q, hold]
    simp only [Interval.register_keepBefore, Interval.register_cutOff, Interval.covers_keepBefore,
      Interval.covers_cutOff]
    have := Int.lt_or_le q p
    grind
  -- and so is a use
  · intro r u
    simp only [mem_cut, or_and_right, exists_or, exists_eq_left]
    rw [← h.uses r u, hold]
    simp only [Interval.register_keepBefore, Interval.register_cutOff,
      Interval.mem_uses_keepBefore, Interval.mem_uses_cutOff]
    have := Int.lt_or_le u.position p
    grind
  -- only the front can be a root
  · have hsplit : (i.cutOff p id).origin = .split i.rootId i.id p := rfl
    simpa [List.filter_append, List.filter_cons, apply_ite, hsplit] using h.wholes
  · exact h.whole_before_cut hstart hstop id

/-- Two pieces of one register never overlap: the one ends before the other starts. -/
theorem apart (h : Tiling roots finished pending) :
    (finished ++ pending).Pairwise fun i j => i.register = j.register → i.stop ≤ j.start := by
  refine List.pairwise_append.2 ⟨h.ordered, ?_, h.before⟩
  refine List.Pairwise.imp ?_ (List.pairwise_map.1 h.single)
  intro x y hne heq
  exact absurd heq hne

end Tiling

end RegAlloc
