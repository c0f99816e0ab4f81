import Mathlib.Data.List.Nodup
import Mathlib.Data.List.Pairwise
import RegAlloc.Move.Resolution
import RegAlloc.Proofs.Sweep.Whole

/-!
# The pieces of a lifetime

When a sweep is over, the pieces of each register are gathered into its lifetime: the root
and then the others by start. Since they tile the life, each ends before the next one
starts, and so at most one of them covers a position.

- `Lifetime.Laid` — pieces one after the other;
- `Lifetime.Laid.pieceAt?_eq_some`, `of_pieceBefore?` — looking pieces up by position;
- `Lifetime.Laid.meet_of_ne`, `mem_neighbours` — pieces that meet, and that they are neighbours;
- `Sweep.laid_collect`, `Sweep.mem_placed_iff` — the pieces that a sweep leaves.
-/

namespace RegAlloc

/-- A lifetime whose pieces come one after the other. -/
structure Lifetime.Laid (life : Lifetime) : Prop where
  shaped : ∀ i ∈ life.pieces, i.Shaped
  ordered : life.pieces.Pairwise fun i j => i.stop ≤ j.start
  register : ∀ i ∈ life.pieces, i.register = life.register

namespace Lifetime.Laid

variable {life : Lifetime} {i j : Interval} {p gap : Position}

/-- A search finds a piece if it passes by all earlier ones. -/
theorem find?_eq_some (h : life.Laid) {q : Interval → Bool} (hi : i ∈ life.pieces)
    (hqi : q i = true) (hearlier : ∀ j ∈ life.pieces, j.stop ≤ i.start → q j = false) :
    life.pieces.find? q = some i := by
  obtain ⟨before, behind, hsplit⟩ := List.append_of_mem hi
  have hordered := h.ordered
  rw [hsplit] at hearlier hordered ⊢
  refine List.find?_eq_some_iff_append.2 ⟨hqi, before, behind, rfl, fun j hj => ?_⟩
  have hle := (List.pairwise_append.1 hordered).2.2 j hj i (by simp)
  simp [hearlier j (by simp [hj]) hle]

/-- The piece that covers a position is found there. -/
theorem pieceAt?_eq_some (h : life.Laid) :
    life.pieceAt? p = some i ↔ i ∈ life.pieces ∧ i.covers p = true := by
  constructor
  · intro hfind
    rw [pieceAt?] at hfind
    have hcovers := List.find?_some hfind
    exact ⟨List.mem_of_find?_eq_some hfind, hcovers⟩
  · rintro ⟨hi, hcovers⟩
    refine h.find?_eq_some hi hcovers fun j hj hle => ?_
    have := Interval.start_le (h.shaped i hi) hcovers
    exact Interval.not_covers_of_stop_le (h.shaped j hj) (by lia)

/-- One piece covers a position. -/
theorem unique (h : life.Laid) (hi : i ∈ life.pieces) (hj : j ∈ life.pieces)
    (hip : i.covers p = true) (hjp : j.covers p = true) : i = j :=
  Option.some.inj ((h.pieceAt?_eq_some.2 ⟨hi, hip⟩).symm.trans (h.pieceAt?_eq_some.2 ⟨hj, hjp⟩))

/-- Different pieces that cover consecutive positions meet there. -/
theorem meet_of_ne (h : life.Laid) (hi : i ∈ life.pieces) (hj : j ∈ life.pieces) (hne : i ≠ j)
    (hip : i.covers p = true) (hjp : j.covers (p + 1) = true) :
    i.stop = p + 1 ∧ j.start = p + 1 := by
  have hsymm : Std.Symm fun i j : Interval => i.stop ≤ j.start ∨ j.stop ≤ i.start :=
    ⟨fun _ _ => Or.symm⟩
  have hle := (h.ordered.imp fun hle => .inl hle : life.pieces.Pairwise fun i j =>
    i.stop ≤ j.start ∨ j.stop ≤ i.start).forall hi hj hne
  have := Interval.start_le (h.shaped i hi) hip
  have := Interval.lt_stop (h.shaped i hi) hip
  have := Interval.start_le (h.shaped j hj) hjp
  have := Interval.lt_stop (h.shaped j hj) hjp
  lia

/-- A value that is live at an instruction and in the gap behind it is kept in the gap
where it is at the instruction. -/
theorem pieceBefore?_of_covers (h : life.Laid) (hi : i ∈ life.pieces)
    (hcovers : i.covers (gap - 1) = true) (hj : j ∈ life.pieces) (hgap : j.covers gap = true) :
    life.pieceBefore? gap = some i := by
  rw [pieceBefore?, h.pieceAt?_eq_some.2 ⟨hj, hgap⟩, Option.isSome_some, if_pos rfl]
  refine h.find?_eq_some hi (by simp [hcovers]) fun k hk hle => ?_
  have hstart := Interval.start_le (h.shaped i hi) hcovers
  have hnot := Interval.not_covers_of_stop_le (q := gap - 1) (h.shaped k hk) (by lia)
  have hnot' := Interval.not_covers_of_stop_le (q := gap) (h.shaped k hk) (by lia)
  simp [hnot, hnot']

/-- A value that begins in a gap is kept in the piece that begins there. -/
theorem pieceBefore?_of_begins (h : life.Laid) (hi : i ∈ life.pieces) (hgap : i.covers gap = true)
    (hbegins : ∀ j ∈ life.pieces, j.covers (gap - 1) = false) :
    life.pieceBefore? gap = some i := by
  rw [pieceBefore?, h.pieceAt?_eq_some.2 ⟨hi, hgap⟩, Option.isSome_some, if_pos rfl]
  refine h.find?_eq_some hi (by simp [hgap]) fun k hk hle => ?_
  have hstart := Interval.start_le (h.shaped i hi) hgap
  have hnot := Interval.not_covers_of_stop_le (q := gap) (h.shaped k hk) (by lia)
  simp [hnot, hbegins k hk]

/-- A piece that a gap begins with is one that covers it or the instruction before, and
then some piece covers the gap. -/
theorem of_pieceBefore? (h : life.Laid) (hi : life.pieceBefore? gap = some i) :
    i ∈ life.pieces ∧ ∃ j ∈ life.pieces, j.covers gap = true ∧
      (i.covers (gap - 1) = true ∨ i = j ∧ ∀ k ∈ life.pieces, k.covers (gap - 1) = false) := by
  have hsome := hi
  rw [pieceBefore?] at hsome
  split at hsome
  · next hat =>
    obtain ⟨j, hj⟩ := Option.isSome_iff_exists.1 hat
    obtain ⟨hjmem, hjgap⟩ := h.pieceAt?_eq_some.1 hj
    refine ⟨List.mem_of_find?_eq_some hsome, j, hjmem, hjgap, ?_⟩
    -- the piece of the position before, unless the value begins in the gap
    by_cases hbegins : ∃ k ∈ life.pieces, k.covers (gap - 1) = true
    · obtain ⟨k, hk, hcovers⟩ := hbegins
      rw [h.pieceBefore?_of_covers hk hcovers hjmem hjgap] at hi
      cases hi
      exact .inl hcovers
    · simp only [not_exists, not_and, Bool.not_eq_true] at hbegins
      rw [h.pieceBefore?_of_begins hjmem hjgap hbegins] at hi
      cases hi
      exact .inr ⟨rfl, hbegins⟩
  · cases hsome

theorem touches_of_stop_eq (h : life.Laid) (hi : i ∈ life.pieces) (hj : j ∈ life.pieces)
    (hmeet : i.stop = j.start) : i.touches j = true := by
  obtain ⟨r, -, hlast, hstop⟩ := Interval.exists_last (h.shaped i hi)
  obtain ⟨s, rest, hs⟩ := List.exists_cons_of_ne_nil (h.shaped j hj).nonempty
  simp only [Interval.stop, Interval.start, Interval.stop?, Interval.start?, hlast, hs] at hmeet
  simpa [Interval.touches, Interval.stop?, Interval.start?, hlast, hs] using hmeet

/-- At most one piece covers a position. -/
theorem countP_covers (h : life.Laid) (p : Position) :
    life.pieces.countP (·.covers p) = if life.pieces.any (·.covers p) then 1 else 0 := by
  suffices hall : ∀ pieces : List Interval, (∀ i ∈ pieces, i.Shaped) →
      (pieces.Pairwise fun i j => i.stop ≤ j.start) →
      pieces.countP (·.covers p) = if pieces.any (·.covers p) then 1 else 0 from
    hall life.pieces h.shaped h.ordered
  intro pieces hshaped hordered
  induction pieces with
  | nil => rfl
  | cons i rest ih =>
    obtain ⟨hi, hrest⟩ := List.pairwise_cons.1 hordered
    rw [List.countP_cons, ih (fun j hj => hshaped j (by simp [hj])) hrest, List.any_cons]
    by_cases hcovers : i.covers p = true
    · -- the others start behind `p`
      have hlt := Interval.lt_stop (hshaped i (by simp)) hcovers
      have hnone : rest.any (·.covers p) = false := List.any_eq_false.2 fun j hj => by
        have := hi j hj
        simp [Interval.not_covers_of_lt_start (hshaped j (by simp [hj])) (q := p) (by lia)]
      simp [hcovers, hnone]
    · simp [hcovers]

/-- Pieces that meet are neighbours. -/
theorem mem_neighbours (h : life.Laid) (hi : i ∈ life.pieces) (hj : j ∈ life.pieces)
    (hmeet : i.stop = j.start) : (i, j) ∈ life.neighbours := by
  suffices hall : ∀ pieces : List Interval, (∀ i ∈ pieces, i.Shaped) →
      (pieces.Pairwise fun i j => i.stop ≤ j.start) → i ∈ pieces → j ∈ pieces →
      (i, j) ∈ pieces.zip pieces.tail from hall life.pieces h.shaped h.ordered hi hj
  intro pieces hshaped hordered hi hj
  have hilt := Interval.start_lt_stop (hshaped i hi)
  have hjlt := Interval.start_lt_stop (hshaped j hj)
  induction pieces with
  | nil => cases hi
  | cons a rest ih =>
    obtain ⟨ha, hrest⟩ := List.pairwise_cons.1 hordered
    -- only the piece that follows `i` at once can start where `i` stops
    rcases List.mem_cons.1 hi with rfl | hirest
    · rcases List.mem_cons.1 hj with rfl | hjrest
      · lia
      cases rest with
      | nil => cases hjrest
      | cons b rest =>
        rcases List.mem_cons.1 hjrest with rfl | hj
        · simp
        · have := ha b (by simp)
          have := (List.pairwise_cons.1 hrest).1 j hj
          have := Interval.start_lt_stop (hshaped b (by simp))
          lia
    · rcases List.mem_cons.1 hj with rfl | hjrest
      · have := ha i hirest
        lia
      cases rest with
      | nil => cases hjrest
      | cons b rest =>
        have := ih (fun k hk => hshaped k (by simp [hk])) hrest hirest hjrest
        exact List.mem_cons_of_mem _ this

end Lifetime.Laid

/-! ## After a sweep -/

namespace Sweep

variable {roots finished pending placed : List Interval} {life : Lifetime}

theorem foldl_insertPiece (life : Lifetime) (l : List Interval) :
    l.foldl (·.insertPiece ·) life = { life with
      children := l.foldl (fun sorted i => insertBefore (Lifetime.startsAfter i) i sorted)
        life.children } := by
  induction l generalizing life with
  | nil => rfl
  | cons i l ih => exact ih (life.insertPiece i)

/-- Two pieces of a register do not overlap. -/
theorem apart_of_tiling (h : Tiling roots finished pending)
    (hperm : (finished ++ pending).Perm placed) :
    placed.Pairwise fun i j => i.register = j.register → i.stop ≤ j.start ∨ j.stop ≤ i.start :=
  hperm.pairwise (h.apart.imp fun hle heq => .inl (hle heq)) fun hij heq => (hij heq.symm).symm

/-- Intervals that do not overlap come one after the other when they are sorted by start. -/
theorem ordered_sortBy {l : List Interval} (hlt : ∀ i ∈ l, i.start < i.stop)
    (hapart : l.Pairwise fun i j => i.stop ≤ j.start ∨ j.stop ≤ i.start) :
    (sortBy Lifetime.startsAfter l).Pairwise fun i j => i.stop ≤ j.start := by
  -- no two overlap, so no two start together
  have hsorted : (sortBy Lifetime.startsAfter l).Pairwise
      fun i j => Lifetime.startsAfter i j = true := by
    refine pairwise_sortBy (fun i j k hij hjk => ?_) (hapart.imp_of_mem fun {i j} hi hj hij => ?_)
    · simp only [Lifetime.startsAfter, decide_eq_true_eq] at hij hjk ⊢
      lia
    · have := hlt i hi
      have := hlt j hj
      simp only [Lifetime.startsAfter, decide_eq_true_eq]
      lia
  have : Std.Symm fun i j : Interval => i.stop ≤ j.start ∨ j.stop ≤ i.start :=
    ⟨fun _ _ => Or.symm⟩
  refine hsorted.imp_of_mem fun {i j} hi hj hij => ?_
  rw [mem_sortBy] at hi hj
  simp only [Lifetime.startsAfter, decide_eq_true_eq] at hij
  have hne : i ≠ j := by
    rintro rfl
    lia
  -- of the two ways to be apart, the order of the starts leaves one
  have := hapart.forall hi hj hne
  have := hlt i hi
  have := hlt j hj
  lia

/-- Every register with a root has one whole piece, which stands before the others. -/
theorem exists_whole (h : Tiling roots finished pending) (hsingle : (roots.map (·.register)).Nodup)
    (hperm : (finished ++ pending).Perm placed) {r : VReg} (hr : r ∈ roots.map (·.register)) :
    ∃ w ∈ placed, w.register = r ∧ w.origin = .whole ∧
      (∀ i ∈ placed, i.register = r → i.origin = .whole → i = w) ∧
      ∀ i ∈ placed, i.register = r → i.origin ≠ .whole → w.stop ≤ i.start := by
  have hwholes : ((placed.filter (·.origin == .whole)).map (·.register)).Perm
      (roots.map (·.register)) :=
    (((hperm.filter _).map _).symm).trans h.wholes
  have hnodup := hwholes.nodup_iff.2 hsingle
  obtain ⟨w, hw, rfl⟩ := List.mem_map.1 (hwholes.mem_iff.2 hr)
  obtain ⟨hplaced, horigin⟩ := List.mem_filter.1 hw
  have hunique : ∀ i ∈ placed, i.register = w.register → i.origin = .whole → i = w :=
    fun i hi hreg hwhole => List.inj_on_of_nodup_map hnodup
      (List.mem_filter.2 ⟨hi, by simp [hwhole]⟩) hw hreg
  refine ⟨w, hplaced, rfl, by simpa using horigin, hunique, fun i hi hreg hne => ?_⟩
  obtain ⟨j, hj, hjreg, hjwhole, hle⟩ := h.whole_before i (hperm.mem_iff.2 hi) hne
  rw [← hunique j (hperm.mem_iff.1 (by simp [hj])) (hjreg.trans hreg) hjwhole]
  exact hle

/-- The pieces of a register are gathered into its lifetime, one after the other. -/
theorem laid_collect (h : Tiling roots finished pending) (hsingle : (roots.map (·.register)).Nodup)
    (hperm : (finished ++ pending).Perm placed) (hregister : life.register ∈ roots.map (·.register))
    (hchildren : life.children = []) :
    (collect placed life).Laid ∧ (collect placed life).register = life.register ∧
      ∀ i, i ∈ (collect placed life).pieces ↔ i ∈ placed ∧ i.register = life.register := by
  obtain ⟨w, hw, hwreg, hwhole, hunique, hfirst⟩ := exists_whole h hsingle hperm hregister
  let own := placed.filter (·.register == life.register)
  have hown : ∀ i, i ∈ own ↔ i ∈ placed ∧ i.register = life.register := by
    simp [own]
  -- the whole piece becomes the root, and the others follow by their starts
  have hfind : own.find? (·.origin == .whole) = some w := by
    cases hfind : own.find? (·.origin == .whole) with
    | none => simpa [hwhole] using List.find?_eq_none.1 hfind w ((hown w).2 ⟨hw, hwreg⟩)
    | some v =>
      obtain ⟨hv, hvreg⟩ := (hown v).1 (List.mem_of_find?_eq_some hfind)
      rw [hunique v hv hvreg (by simpa using List.find?_some hfind)]
  have hcollect : collect placed life =
      { root := w, children := sortBy Lifetime.startsAfter (own.filter (·.origin != .whole)) } := by
    rw [collect, foldl_insertPiece]
    simp only [own] at hfind
    simp [hfind, hchildren, sortBy, own]
  have hmem : ∀ i, i ∈ (collect placed life).pieces ↔ i ∈ placed ∧ i.register = life.register := by
    intro i
    rw [hcollect, ← hown, Lifetime.pieces, List.mem_cons, mem_sortBy, List.mem_filter]
    constructor
    · rintro (rfl | ⟨hi, -⟩)
      · exact (hown i).2 ⟨hw, hwreg⟩
      · exact hi
    · intro hi
      by_cases horigin : i.origin = .whole
      · exact .inl (hunique i ((hown i).1 hi).1 ((hown i).1 hi).2 horigin)
      · exact .inr ⟨hi, by simpa using horigin⟩
  have hshaped : ∀ i ∈ placed, i.Shaped := fun i hi => h.shaped i (hperm.mem_iff.2 hi)
  have hregister' : (collect placed life).register = life.register := by
    rw [hcollect]
    exact hwreg
  refine ⟨⟨fun i hi => hshaped i ((hmem i).1 hi).1, ?_, fun i hi => ?_⟩, hregister', hmem⟩
  -- the root comes before every split piece
  · rw [hcollect, Lifetime.pieces, List.pairwise_cons]
    constructor
    · intro i hi
      obtain ⟨hi, horigin⟩ := List.mem_filter.1 (mem_sortBy.1 hi)
      obtain ⟨hi, hreg⟩ := (hown i).1 hi
      exact hfirst i hi hreg (by simpa using horigin)
    · -- sorted by start, and no two overlap
      refine ordered_sortBy (fun i hi => ?_) ?_
      · exact Interval.start_lt_stop (hshaped i ((hown i).1 (List.mem_filter.1 hi).1).1)
      · refine List.Pairwise.sublist List.filter_sublist ?_
        exact ((apart_of_tiling h hperm).sublist List.filter_sublist).imp_of_mem
          fun {i j} hi hj hij => hij (((hown i).1 hi).2.trans ((hown j).1 hj).2.symm)
  · rw [hregister']
    exact ((hmem i).1 hi).2

section

variable {lives : List Lifetime} (h : Tiling (lives.map (·.root)) finished pending)
  (hsingle : (lives.map (·.register)).Nodup) (hperm : (finished ++ pending).Perm placed)
  (hchildren : ∀ life ∈ lives, life.children = [])

include h hsingle hperm hchildren

/-- All lifetimes are gathered, each from the pieces of its register. -/
theorem laid_collect_all : ∀ life ∈ lives, (collect placed life).Laid ∧
    (collect placed life).register = life.register ∧
      ∀ i, i ∈ (collect placed life).pieces ↔ i ∈ placed ∧ i.register = life.register := by
  intro life hlife
  have hregisters : (lives.map (·.root)).map (·.register) = lives.map (·.register) := List.map_map
  exact laid_collect h (hregisters ▸ hsingle) hperm (hregisters ▸ List.mem_map_of_mem hlife)
    (hchildren life hlife)

theorem registers_collect :
    (lives.map (collect placed)).map (·.register) = lives.map (·.register) := by
  rw [List.map_map]
  exact List.map_congr_left fun life hlife =>
    (laid_collect_all h hsingle hperm hchildren life hlife).2.1

/-- Every piece is gathered. -/
theorem mem_placed_iff (i : Interval) :
    i ∈ placed ↔ ∃ life ∈ lives.map (collect placed), i ∈ life.pieces := by
  have hcollect := laid_collect_all h hsingle hperm hchildren
  constructor
  · intro hi
    have hcovers := Interval.covers_start (h.shaped i (hperm.mem_iff.2 hi))
    obtain ⟨root, hroot, hreg, -⟩ := (h.covers i.register i.start).1
      ⟨i, hperm.mem_iff.2 hi, rfl, hcovers⟩
    obtain ⟨life, hlife, rfl⟩ := List.mem_map.1 hroot
    exact ⟨_, List.mem_map_of_mem hlife, ((hcollect life hlife).2.2 i).2 ⟨hi, hreg.symm⟩⟩
  · rintro ⟨_, hmem, hi⟩
    obtain ⟨life, hlife, rfl⟩ := List.mem_map.1 hmem
    exact (((hcollect life hlife).2.2 i).1 hi).1

end

end Sweep

end RegAlloc
