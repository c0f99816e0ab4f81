import RegAlloc.Proofs.Allocation.Contents

/-!
# When the moves of a gap deliver

The moves of a gap take values from one piece to the next: those whose pieces meet in the gap
itself, and those whose pieces meet at the instruction behind it. All of them are put in order
as if they happened at once. That is right unless a value moves twice in the gap, or two values
cross to one location, which the first of them leaves again at once.

- `Grouped` — moves that were grouped by their gaps;
- `Allocation.CrossesAt`, `Allocation.gapTransfers` — the parallel moves of a gap;
- `Arranged.exists_resolveGaps`, `Arranged.sequence_gapTransfers` — the groups of moves in gaps
  put these in order;
- `Allocation.Orderly` — crossings that can be made at once;
- `Disjoint.replay_gapMoves`, `Disjoint.orderly_of_checkGaps` — the moves of gaps can be
  replayed if crossings are orderly, and only then;
- `gap_moves_deliver_iff` — what holds of every sweep whose pieces do not overlap.
-/

namespace RegAlloc

/-! ## Grouping -/

/-- The moves of one gap, in order. -/
def movesIn (gap : Position) (found : List (Position × Move)) : List Move :=
  (found.filter (·.1 == gap)).map (·.2)

/-- Groups that hold the moves that were found, gap by gap. -/
structure Grouped (found : List (Position × Move)) (groups : List (Position × List Move)) :
    Prop where
  keys : (groups.map (·.1)).Nodup
  lookup : ∀ gap, (groups.lookup gap).getD [] = movesIn gap found

namespace Grouped

variable {found : List (Position × Move)} {groups : List (Position × List Move)}

/-- Adding a move to its gap. -/
theorem add (h : Grouped found groups) (gap : Position) (m : Move) :
    Grouped (found ++ [(gap, m)]) (addToGap groups gap m) := by
  refine ⟨Table.nodup_put h.keys, fun key => ?_⟩
  rw [addToGap, Table.lookup_put, h.lookup gap]
  by_cases hkey : key = gap
  · simp [hkey, movesIn]
  · simp [hkey, movesIn, h.lookup key, Ne.symm hkey]

/-- Adding all moves, one after the other. -/
theorem addAll (h : Grouped found groups) (rest : List (Position × Move)) :
    Grouped (found ++ rest)
      (rest.foldl (fun groups (gap, m) => addToGap groups gap m) groups) := by
  induction rest generalizing found groups with
  | nil => simpa using h
  | cons x rest ih => simpa using ih (h.add x.1 x.2)

/-- A group is the one of its gap. -/
theorem eq_movesIn (h : Grouped found groups) {group : Position × List Move}
    (hgroup : group ∈ groups) : group.2 = movesIn group.1 found := by
  have hlookup : (groups.map fun x => (x.1, x.2)).lookup group.1 = some group.2 :=
    Table.lookup_map h.keys group hgroup
  have hsame : (groups.map fun x => (x.1, x.2)) = groups := List.map_id groups
  rw [← h.lookup, ← hsame, hlookup, Option.getD_some]

/-- A gap with moves has a group. -/
theorem exists_mem (h : Grouped found groups) {gap : Position} (hne : movesIn gap found ≠ []) :
    ∃ group ∈ groups, group.1 = gap := by
  rw [← h.lookup] at hne
  cases hlookup : groups.lookup gap with
  | none => exact absurd (by rw [hlookup]; rfl) hne
  | some moves =>
    obtain ⟨before, behind, hsplit, -⟩ := List.lookup_eq_some_iff.1 hlookup
    exact ⟨(gap, moves), by simp [hsplit], rfl⟩

end Grouped

/-- Put the moves of one gap in order. -/
def orderGap (order : LinearOrder) (scratch : Location) (group : Position × List Move) :
    Except Violation GapMoves := do
  match order.blockAt? (group.1 + 1) with
  | none => throw (.gapOutside group.1)
  | some block =>
    return { position := group.1, block, moves := ← Move.sequence group.2 scratch }

/-- The groups of gaps are put in order one by one. -/
theorem resolveGaps_eq (order : LinearOrder) (liveness : Liveness) (scratch : Location) :
    resolveGaps order liveness scratch =
      bridges order liveness.lives >>= (·.mapM (orderGap order scratch)) := rfl

theorem of_orderGap {order : LinearOrder} {scratch : Location} {group : Position × List Move}
    {found : GapMoves} (h : orderGap order scratch group = .ok found) :
    found.position = group.1 ∧ order.blockAt? (group.1 + 1) = some found.block := by
  rw [orderGap] at h
  split at h
  · cases h
  · next block hblock =>
    rw [bind_eq_ok] at h
    obtain ⟨out, -, ⟨⟩⟩ := h
    exact ⟨rfl, hblock⟩

/-- The groups of moves stand in the order of their gaps. -/
theorem sorted_gaps {order : LinearOrder} {liveness : Liveness} {scratch : Location}
    {gaps : List GapMoves} (h : resolveGaps order liveness scratch = .ok gaps) :
    gaps.Pairwise fun x y => x.position < y.position := by
  rw [resolveGaps_eq, bind_eq_ok] at h
  obtain ⟨groups, hgroups, hgaps⟩ := h
  rw [bridges, bind_eq_ok] at hgroups
  obtain ⟨found, -, ⟨⟩⟩ := hgroups
  have hgrouped : Grouped [] [] := ⟨by simp, fun _ => rfl⟩
  have hkeys := (hgrouped.addAll (found.flatten.filterMap id)).keys
  refine pairwise_of_mapM_eq_ok (fun x y gx gy hlt hx hy => ?_) hgaps (pairwise_sortBy
    (fun x y z hxy hyz => ?_) ((List.pairwise_map.1 hkeys).imp fun {x y} hne => ?_))
  · rw [(of_orderGap hx).1, (of_orderGap hy).1]
    exact of_decide_eq_true hlt
  · simp only [decide_eq_true_eq] at hxy hyz ⊢
    lia
  · simp only [decide_eq_true_eq]
    lia

/-- No gap has two groups of moves. -/
theorem pairwise_gaps {order : LinearOrder} {liveness : Liveness} {scratch : Location}
    {gaps : List GapMoves} (h : resolveGaps order liveness scratch = .ok gaps) :
    gaps.Pairwise fun x y => x.position ≠ y.position :=
  (sorted_gaps h).imp Int.ne_of_lt

/-! ## Crossings -/

variable {a : Allocation} {regClass : Option String} {life : Lifetime} {i j k : Interval}
  {gap : Position} {m : Move}

namespace Allocation

/-- The value of a lifetime goes from one piece to the next in a gap. -/
structure CrossesAt (a : Allocation) (gap : Position) (life : Lifetime) (i j : Interval) :
    Prop where
  mem : life ∈ a.liveness.lives
  neighbours : (i, j) ∈ life.neighbours
  touches : i.touches j = true
  splits : a.order.splitGap? j.start = some gap

/-- The gap in which a value goes from one piece to the next, and how. -/
def crossing? (a : Allocation) (r : VReg) (i j : Interval) : Option (Position × Move) :=
  if i.touches j then
    match a.order.splitGap? j.start, i.location, j.location with
    | some gap, some source, some target => some (gap, ⟨r, source, target⟩)
    | _, _, _ => none
  else none

theorem crossing?_eq_some (hlife : life ∈ a.liveness.lives) (hij : (i, j) ∈ life.neighbours) :
    a.crossing? life.register i j = some (gap, m) ↔ a.CrossesAt gap life i j ∧
      m.register = life.register ∧ i.location = some m.source ∧ j.location = some m.target := by
  have hcross : a.CrossesAt gap life i j ↔
      i.touches j = true ∧ a.order.splitGap? j.start = some gap :=
    ⟨fun h => ⟨h.touches, h.splits⟩, fun h => ⟨hlife, hij, h.1, h.2⟩⟩
  obtain ⟨register, source, target⟩ := m
  rw [crossing?, hcross]
  grind

/-- The parallel moves between neighbouring pieces, with their gaps and with those between
pieces in one location. -/
def crossings (a : Allocation) : List (Position × Move) :=
  a.liveness.lives.flatMap fun life =>
    life.neighbours.filterMap fun (i, j) => a.crossing? life.register i j

/-- The parallel moves of a gap, with those of values that stay in place. -/
def gapTransfers (a : Allocation) (gap : Position) : List Move := movesIn gap a.crossings

theorem mem_gapTransfers : m ∈ a.gapTransfers gap ↔ ∃ life i j, a.CrossesAt gap life i j ∧
    m.register = life.register ∧ i.location = some m.source ∧ j.location = some m.target := by
  simp only [gapTransfers, movesIn, crossings, List.mem_map, List.mem_filter, List.mem_flatMap,
    List.mem_filterMap, beq_iff_eq]
  constructor
  · rintro ⟨⟨_, m⟩, ⟨⟨life, hlife, ⟨i, j⟩, hij, hcrossing⟩, rfl⟩, rfl⟩
    exact ⟨life, i, j, (crossing?_eq_some hlife hij).1 hcrossing⟩
  · rintro ⟨life, i, j, hcross, hm⟩
    exact ⟨(gap, m), ⟨⟨life, hcross.mem, (i, j), hcross.neighbours,
      (crossing?_eq_some hcross.mem hcross.neighbours).2 ⟨hcross, hm⟩⟩, rfl⟩, rfl⟩

namespace CrossesAt

/-- Values cross in gaps, not at instructions. -/
theorem odd (h : a.CrossesAt gap life i j) : gap % stride = 1 := by
  have hsplits := h.splits
  rw [LinearOrder.splitGap?, Option.ite_none_left_eq_some] at hsplits
  obtain ⟨-, hgap⟩ := hsplits
  split at hgap
  · cases hgap
    lia
  · cases hgap
    lia

/-- A value crosses in the gap or at the instruction behind it. -/
theorem start (h : a.CrossesAt gap life i j) : j.start = gap ∨ j.start = gap + 1 :=
  ((LinearOrder.splitGap?_eq_some h.odd).1 h.splits).1

theorem stop (h : a.CrossesAt gap life i j) : i.stop = j.start :=
  Interval.stop_eq_of_touches h.touches

theorem left (h : a.CrossesAt gap life i j) : i ∈ life.pieces := (List.of_mem_zip h.neighbours).1

theorem right (h : a.CrossesAt gap life i j) : j ∈ life.pieces :=
  List.mem_cons_of_mem _ (List.of_mem_zip h.neighbours).2

end CrossesAt

namespace Arranged

/-- A value that crosses in a gap is found behind it, in the stretch of some block. -/
theorem exists_blockAt? (h : a.Arranged regClass) (hcross : a.CrossesAt gap life i j) :
    ∃ b, a.order.blockAt? (gap + 1) = some b := by
  have hlaid := h.laid life hcross.mem
  obtain ⟨span, hspan, hfirst, hlt⟩ : ∃ span ∈ a.order.spans,
      span.first ≤ gap + 1 ∧ gap + 1 < span.stop := by
    rcases hcross.start with hstart | hstart
    · -- the cut is in the gap itself, and an instruction follows
      obtain ⟨-, hmended⟩ := h.seam_of_meet hcross.mem hcross.left hcross.right hcross.stop
        (hstart ▸ hcross.odd)
      obtain ⟨instruction, span, hspan, n, hn, hp⟩ := hmended.followed
      have hwithin := LinearOrder.stands_within h.regular hspan hn
      exact ⟨span, hspan, by lia, by lia⟩
    -- the cut is at the instruction, which is in some block
    · refine LinearOrder.exists_span_of_covers h.regular ((h.covers life hcross.mem _).1
        ⟨j, hcross.right, ?_⟩)
      exact hstart ▸ Interval.covers_start (hlaid.shaped j hcross.right)
  obtain ⟨slot, hslot⟩ := Option.isSome_iff_exists.1 (h.regular.hasSlot span hspan _ hfirst hlt)
  exact ⟨slot.block, by rw [LinearOrder.blockAt?, hslot, Option.map_some]⟩

/-- The bridge between two pieces is how their value crosses, unless it stays in place. -/
theorem bridge?_eq_ok (h : a.Arranged regClass) (hlife : life ∈ a.liveness.lives)
    (hij : (i, j) ∈ life.neighbours) : bridge? a.order life.register i j =
      .ok ((a.crossing? life.register i j).filter fun x => x.2.source != x.2.target) := by
  have hi := h.mem_of_piece hlife (List.of_mem_zip hij).1
  have hj := h.mem_of_piece hlife (List.mem_cons_of_mem _ (List.of_mem_zip hij).2)
  obtain ⟨source, hsource⟩ := h.exists_location hi
  obtain ⟨target, htarget⟩ := h.exists_location hj
  rw [bridge?, crossing?]
  split
  · simp only [Interval.locate_eq_ok.2 hsource, Interval.locate_eq_ok.2 htarget, hsource, htarget]
    by_cases hstays : source = target <;> cases a.order.splitGap? j.start <;>
      simp [hstays, Option.filter, bind, Except.bind, pure, Except.pure]
  · rfl

/-- The moves that are found between pieces, gap by gap. -/
theorem exists_bridges (h : a.Arranged regClass) :
    ∃ groups, bridges a.order a.liveness.lives = .ok groups ∧
      (∀ group ∈ groups, group.2 = Move.moving (a.gapTransfers group.1)) ∧
      ∀ gap, Move.moving (a.gapTransfers gap) ≠ [] → ∃ group ∈ groups, group.1 = gap := by
  -- neighbours are bridged one by one, and each finds its two locations
  have hfound : (a.liveness.lives.mapM fun life =>
      life.neighbours.mapM fun (i, j) => bridge? a.order life.register i j) = .ok _ :=
    mapM_eq_ok_map fun life hlife => mapM_eq_ok_map fun ij hij => h.bridge?_eq_ok hlife hij
  rw [bridges, hfound]
  have hmoving : ((a.liveness.lives.map fun life => life.neighbours.map fun ij =>
      (a.crossing? life.register ij.1 ij.2).filter
        fun x => x.2.source != x.2.target).flatten.filterMap id) =
      a.crossings.filter fun x => x.2.source != x.2.target := by
    simp [crossings, List.filter_filterMap, List.filterMap_flatten, List.filterMap_map,
      List.flatMap, Function.comp_def]
  -- grouping by gaps and leaving out those that stay can be done in either order
  have hgap : ∀ gap, movesIn gap (a.crossings.filter fun x => x.2.source != x.2.target) =
      Move.moving (a.gapTransfers gap) := by
    simp [movesIn, gapTransfers, Move.moving, List.filter_map, List.filter_filter, Bool.and_comm,
      Function.comp_def]
  have hgrouped : Grouped [] [] := ⟨by simp, fun _ => rfl⟩
  have hgroups := hgrouped.addAll (a.crossings.filter fun x => x.2.source != x.2.target)
  rw [List.nil_append] at hgroups
  refine ⟨_, rfl, fun group hgroup => ?_, fun gap hne => ?_⟩
  · rw [hmoving, mem_sortBy] at hgroup
    rw [hgroups.eq_movesIn hgroup, hgap]
  · rw [← hgap] at hne
    obtain ⟨group, hgroup, heq⟩ := hgroups.exists_mem hne
    exact ⟨group, by rwa [hmoving, mem_sortBy], heq⟩

/-- The parallel moves of a gap do not lead to the scratch location. -/
theorem target_ne_scratch (h : a.Arranged regClass) : ∀ m ∈ a.gapTransfers gap,
    m.target ≠ a.scratch := by
  intro m hm
  obtain ⟨life, i, j, hcross, -, -, htarget⟩ := mem_gapTransfers.1 hm
  exact h.ne_scratch (h.mem_of_piece hcross.mem hcross.right) htarget

/-- All groups of moves in gaps are found. They are the parallel moves of their gaps, put in
order, and no gap with moves is left out. -/
theorem exists_resolveGaps (h : a.Arranged regClass) :
    ∃ gaps, resolveGaps a.order a.liveness a.scratch = .ok gaps ∧
      (∀ group ∈ gaps, Move.moving (a.gapTransfers group.position) ≠ [] ∧
        Move.sequence (a.gapTransfers group.position) a.scratch = .ok group.moves) ∧
      ∀ gap, Move.moving (a.gapTransfers gap) ≠ [] → ∃ group ∈ gaps, group.position = gap := by
  obtain ⟨groups, hgroups, hmoves, hall⟩ := h.exists_bridges
  have hcrossed := (bridges_ensures a.order a.liveness.lives).of_eq_ok hgroups
  -- a group has a move, so there is a crossing in it, and an instruction behind that
  have hone : ∀ group ∈ groups, ∃ b out,
      Move.sequence (a.gapTransfers group.1) a.scratch = .ok out ∧
        orderGap a.order a.scratch group = .ok ⟨group.1, b, out⟩ := by
    intro group hgroup
    obtain ⟨m, hm⟩ := List.exists_mem_of_ne_nil _ (hcrossed group hgroup).1
    rw [hmoves group hgroup, Move.mem_moving] at hm
    obtain ⟨life, i, j, hcross, -⟩ := mem_gapTransfers.1 hm.1
    obtain ⟨b, hb⟩ := h.exists_blockAt? hcross
    obtain ⟨out, hout, -⟩ := Move.sequence_eq_ok h.target_ne_scratch
    refine ⟨b, out, hout, ?_⟩
    rw [orderGap, hb, hmoves group hgroup, Move.sequence_moving, hout]
    rfl
  obtain ⟨gaps, hgaps⟩ := exists_mapM_eq_ok.2 fun group hgroup =>
    let ⟨_, _, _, hfound⟩ := hone group hgroup
    ⟨_, hfound⟩
  rw [resolveGaps_eq]
  refine ⟨gaps, bind_eq_ok.2 ⟨groups, hgroups, hgaps⟩, fun found hfound => ?_, fun gap hne => ?_⟩
  · obtain ⟨group, hgroup, hfound⟩ := (mem_of_mapM_eq_ok hgaps).1 hfound
    obtain ⟨b, out, hout, hfound'⟩ := hone group hgroup
    cases hfound.symm.trans hfound'
    exact ⟨hmoves group hgroup ▸ (hcrossed group hgroup).1, hout⟩
  · obtain ⟨group, hgroup, rfl⟩ := hall gap hne
    obtain ⟨b, out, -, hfound⟩ := hone group hgroup
    exact ⟨_, (mem_of_mapM_eq_ok hgaps).2 ⟨group, hgroup, hfound⟩, rfl⟩

/-- The moves that are made in a gap are its parallel moves, put in order. -/
theorem sequence_gapTransfers (h : a.Arranged regClass)
    (hgaps : resolveGaps a.order a.liveness a.scratch = .ok a.resolution.gaps) (gap : Position) :
    Move.sequence (a.gapTransfers gap) a.scratch = .ok (a.gapMoves gap) := by
  obtain ⟨gaps, hgaps', hmoves, hall⟩ := h.exists_resolveGaps
  cases hgaps.symm.trans hgaps'
  rw [gapMoves]
  cases hfind : a.resolution.gaps.find? (·.position == gap) with
  | some group =>
    have hposition : group.position = gap := by simpa using List.find?_some hfind
    exact hposition ▸ (hmoves group (List.mem_of_find?_eq_some hfind)).2
  | none =>
    have hnone : Move.moving (a.gapTransfers gap) = [] := by
      refine Decidable.byContradiction fun hne => ?_
      obtain ⟨group, hgroup, hposition⟩ := hall gap hne
      simpa [hposition] using List.find?_eq_none.1 hfind group hgroup
    rw [← Move.sequence_moving, hnone]
    rfl

/-! ## Where values are as a gap begins -/

/-- Pieces that meet in a gap within a block cross there. -/
theorem crossesAt_of_meet (h : a.Arranged regClass) (hlife : life ∈ a.liveness.lives)
    (hi : i ∈ life.pieces) (hj : j ∈ life.pieces) (hodd : gap % stride = 1) (hstop : i.stop = gap)
    (hstart : j.start = gap) (hinside : a.order.isBlockStart (gap + 1) = false) :
    a.CrossesAt gap life i j := by
  have hlaid := h.laid life hlife
  have hmeet : i.stop = j.start := hstop.trans hstart.symm
  exact ⟨hlife, hlaid.mem_neighbours hi hj hmeet, hlaid.touches_of_stop_eq hi hj hmeet,
    (LinearOrder.splitGap?_eq_some hodd).2 ⟨.inl hstart, hinside⟩⟩

/-- A value that crosses in the gap itself is in the first piece as the gap begins. -/
theorem pieceBefore?_of_start (h : a.Arranged regClass) (hcross : a.CrossesAt gap life i j)
    (hstart : j.start = gap) : life.pieceBefore? gap = some i := by
  have hlaid := h.laid life hcross.mem
  have hlast := Interval.covers_last (hlaid.shaped i hcross.left)
  rw [hcross.stop, hstart] at hlast
  exact hlaid.pieceBefore?_of_covers hcross.left hlast hcross.right
    (hstart ▸ Interval.covers_start (hlaid.shaped j hcross.right))

/-- A value that crosses is in the first piece as the gap begins, unless it crosses to that
one in the same gap. -/
theorem pieceBefore?_of_crosses (h : a.Arranged regClass) (hcross : a.CrossesAt gap life i j) :
    life.pieceBefore? gap = some i ∨
      ∃ k, a.CrossesAt gap life k i ∧ life.pieceBefore? gap = some k := by
  have hlaid := h.laid life hcross.mem
  -- the next piece starts in the gap, or at the instruction behind it
  rcases hcross.start with hstart | hstart
  · exact .inl (h.pieceBefore?_of_start hcross hstart)
  · have hgap := Interval.covers_last (hlaid.shaped i hcross.left)
    rw [hcross.stop, hstart, Int.add_sub_cancel] at hgap
    -- the piece at the instruction before, unless the value begins in the gap
    by_cases hbegins : ∃ k ∈ life.pieces, k.covers (gap - 1) = true
    · obtain ⟨k, hk, hbefore⟩ := hbegins
      have hpiece := hlaid.pieceBefore?_of_covers hk hbefore hcross.left hgap
      by_cases hki : k = i
      · exact .inl (hki ▸ hpiece)
      · obtain ⟨hstop, hbegin⟩ := hlaid.meet_of_ne hk hcross.left hki hbefore (by simpa using hgap)
        have hinside := ((LinearOrder.splitGap?_eq_some hcross.odd).1 hcross.splits).2
        exact .inr ⟨k, h.crossesAt_of_meet hcross.mem hk hcross.left hcross.odd (by lia) (by lia)
          hinside, hpiece⟩
    · simp only [not_exists, not_and, Bool.not_eq_true] at hbegins
      exact .inl (hlaid.pieceBefore?_of_begins hcross.left hgap hbegins)

/-- A value that crosses twice in a gap crosses first in the gap itself. -/
theorem start_of_crosses (h : a.Arranged regClass) (hfirst : a.CrossesAt gap life i j)
    (hsecond : a.CrossesAt gap life j k) : j.start = gap := by
  have hlt := Interval.start_lt_stop ((h.laid life hfirst.mem).shaped j hfirst.right)
  have := hsecond.stop
  have := hsecond.start
  have := hfirst.start
  lia

/-- Of two crossings in a gap, the later one starts from where the earlier one leads. -/
theorem eq_of_start_lt (h : a.Arranged regClass) {i' j' : Interval}
    (hcross : a.CrossesAt gap life i j) (hcross' : a.CrossesAt gap life i' j')
    (hlt : j.start < j'.start) : i' = j := by
  have hlaid := h.laid life hcross.mem
  have hstart := hcross.start
  have hstart' := hcross'.start
  have hlast := Interval.covers_last (hlaid.shaped i' hcross'.left)
  have hj : i'.stop - 1 = j.start := by
    rw [hcross'.stop]
    lia
  rw [hj] at hlast
  exact hlaid.unique hcross'.left hcross.right hlast
    (Interval.covers_start (hlaid.shaped j hcross.right))

/-- Neighbouring pieces are listed in order. -/
theorem pairwise_neighbours (h : a.Arranged regClass) (hlife : life ∈ a.liveness.lives) :
    life.neighbours.Pairwise fun x y => x.2.start < y.2.start := by
  have hordered := (h.laid life hlife).ordered
  have hshaped := (h.laid life hlife).shaped
  have hsnd : life.neighbours.map (·.2) = life.children :=
    List.map_snd_zip (by simp [Lifetime.pieces])
  rw [Lifetime.pieces, List.pairwise_cons] at hordered
  have hchildren : life.children.Pairwise fun x y => x.start < y.start := by
    refine hordered.2.imp_of_mem fun {x y} hx _ hle => ?_
    have := Interval.start_lt_stop (hshaped x (List.mem_cons_of_mem _ hx))
    lia
  rw [← hsnd, List.pairwise_map] at hchildren
  exact hchildren

end Arranged

/-! ## When the moves of gaps deliver -/

/-- Crossings that can be made at once: a value that crosses twice in a gap stays in place
once, and different values cross to different locations. -/
structure Orderly (a : Allocation) : Prop where
  once : ∀ gap life i j k, a.CrossesAt gap life i j → a.CrossesAt gap life j k →
    i.location = j.location ∨ j.location = k.location
  apart : ∀ gap life i j other i' j', a.CrossesAt gap life i j → a.CrossesAt gap other i' j' →
    j.location = j'.location → life = other

namespace Disjoint

/-- The moves of a gap are of different registers. -/
theorem registers_gapTransfers (h : a.Disjoint regClass) (horderly : a.Orderly) :
    (Move.moving (a.gapTransfers gap)).Pairwise fun m x => m.register ≠ x.register := by
  have hcrossings : a.crossings.Pairwise fun x y => x.1 = gap → y.1 = gap →
      x.2.source ≠ x.2.target → y.2.source ≠ y.2.target → x.2.register ≠ y.2.register := by
    refine List.pairwise_flatMap.2 ⟨fun life hlife => List.pairwise_filterMap.2 ?_, ?_⟩
    · -- a value does not move twice in the gap
      refine (h.pairwise_neighbours hlife).imp_of_mem fun {ij kl} hij hkl hlt => ?_
      rintro ⟨_, m⟩ hm ⟨_, x⟩ hx rfl rfl hmoves hmoves' -
      -- two crossings of one life in one gap follow each other
      obtain ⟨hcross, -, hsource, htarget⟩ := (crossing?_eq_some hlife hij).1 hm
      obtain ⟨hcross', -, hsource', htarget'⟩ := (crossing?_eq_some hlife hkl).1 hx
      have hjoin := h.eq_of_start_lt hcross hcross' hlt
      rw [hjoin] at hsource' hcross'
      rcases horderly.once _ _ _ _ _ hcross hcross' with heq | heq
      · rw [hsource, htarget] at heq
        exact hmoves (Option.some.inj heq)
      · rw [hsource', htarget'] at heq
        exact hmoves' (Option.some.inj heq)
    · -- different lives are of different registers
      refine (List.pairwise_map.1 h.single).imp_of_mem fun {life other} hlife hother hne => ?_
      intro ⟨_, m⟩ hm ⟨_, x⟩ hx _ _ _ _
      obtain ⟨⟨i, j⟩, hij, hm⟩ := List.mem_filterMap.1 hm
      obtain ⟨⟨i', j'⟩, hij', hx⟩ := List.mem_filterMap.1 hx
      rw [((crossing?_eq_some hlife hij).1 hm).2.1, ((crossing?_eq_some hother hij').1 hx).2.1]
      exact hne
  rw [Move.moving, List.pairwise_filter, gapTransfers, movesIn, List.pairwise_map,
    List.pairwise_filter]
  refine hcrossings.imp fun {x y} hxy hx hy hmoves hmoves' => ?_
  simp only [beq_iff_eq, bne_iff_ne] at hx hy hmoves hmoves'
  exact hxy hx hy hmoves hmoves'

/-- No two moves of a gap lead to one location. -/
theorem nodup_gapTransfers (h : a.Disjoint regClass) (horderly : a.Orderly) :
    ((Move.moving (a.gapTransfers gap)).map (·.target)).Nodup := by
  rw [List.Nodup, List.pairwise_map]
  refine (h.registers_gapTransfers horderly).imp_of_mem fun {m x} hm hx hne heq => hne ?_
  obtain ⟨life, i, j, hcross, hregister, -, htarget⟩ :=
    mem_gapTransfers.1 (Move.mem_moving.1 hm).1
  obtain ⟨other, i', j', hcross', hregister', -, htarget'⟩ :=
    mem_gapTransfers.1 (Move.mem_moving.1 hx).1
  have hsame : j.location = j'.location := by rw [htarget, htarget', heq]
  rw [hregister, hregister', horderly.apart _ _ _ _ _ _ _ hcross hcross' hsame]

/-- The parallel moves of a gap lead from places to places. -/
theorem within_gapTransfers : ∀ m ∈ a.gapTransfers gap,
    m.Within (Place a.liveness.lives a.scratch) (Place a.liveness.lives a.scratch) := by
  intro m hm
  obtain ⟨life, i, j, hcross, -, hsource, htarget⟩ := mem_gapTransfers.1 hm
  exact ⟨.inr ⟨life, hcross.mem, i, hcross.left, hsource⟩,
    .inr ⟨life, hcross.mem, j, hcross.right, htarget⟩⟩

/-- If crossings are orderly, the moves of a gap can be replayed, and then all values have
crossed. -/
theorem replay_gapMoves (h : a.Disjoint regClass)
    (hgaps : resolveGaps a.order a.liveness a.scratch = .ok a.resolution.gaps)
    (horderly : a.Orderly) (hodd : gap % stride = 1) :
    ∃ after, (contentsBefore a.liveness.lives gap).replay (a.gapMoves gap) = .ok after ∧
      ∀ m ∈ a.gapTransfers gap, after.get? m.target = some m.register := by
  -- a value is where its move reads it, unless it crosses to there in the same gap
  have hsource : ∀ m ∈ a.gapTransfers gap,
      (contentsBefore a.liveness.lives gap).get? m.source = some m.register ∨
        m.source = m.target ∧ ∃ x ∈ Move.moving (a.gapTransfers gap), x.target = m.source := by
    intro m hm
    rw [h.get?_contentsBefore hodd (within_gapTransfers m hm).1, h.locateBefore?_eq_some]
    obtain ⟨life, i, j, hcross, hregister, hsource, htarget⟩ := mem_gapTransfers.1 hm
    -- the crossing starts from where the value is, or follows another crossing
    rcases h.pieceBefore?_of_crosses hcross with hi | ⟨k, hfirst, hk⟩
    · exact .inl ⟨life, hcross.mem, hregister.symm, i, hi, hsource⟩
    · by_cases hki : k.location = i.location
      · exact .inl ⟨life, hcross.mem, hregister.symm, k, hk, hki.trans hsource⟩
      · have hij := (horderly.once _ _ _ _ _ hfirst hcross).resolve_left hki
        rw [hsource, htarget, Option.some.injEq] at hij
        obtain ⟨l, hl⟩ := h.exists_location (h.mem_of_piece hfirst.mem hfirst.left)
        refine .inr ⟨hij, ⟨life.register, l, m.source⟩, Move.mem_moving.2
          ⟨mem_gapTransfers.2 ⟨life, k, i, hfirst, rfl, hl, hsource⟩, fun heq => hki ?_⟩, rfl⟩
        rw [hl, hsource]
        exact congrArg some heq
  refine Contents.replay_sequence h.place_eq (.inl rfl) within_gapTransfers h.target_ne_scratch
    (h.sequence_gapTransfers hgaps gap) (h.nodup_gapTransfers horderly) (fun m hm => ?_)
    (fun m hm x hx heq => ?_) fun m hm hstays hnot => ?_
  -- a value that moves is where its move reads it
  · obtain ⟨hm, hmoves⟩ := Move.mem_moving.1 hm
    exact (hsource m hm).resolve_right fun hstays => hmoves hstays.1
  -- two values that arrive at one place are the same
  · obtain ⟨life, i, j, hcross, hregister, -, htarget⟩ := mem_gapTransfers.1 hm
    obtain ⟨other, i', j', hcross', hregister', -, htarget'⟩ := mem_gapTransfers.1 hx
    rw [hregister, hregister', horderly.apart _ _ _ _ _ _ _ hcross hcross']
    rw [htarget, htarget', heq]
  -- a value that stays is there, unless another one has arrived
  · rw [← hstays] at hnot ⊢
    refine (hsource m hm).resolve_right ?_
    rintro ⟨-, x, hx, htarget⟩
    exact hnot (List.mem_map.2 ⟨x, hx, htarget⟩)

/-- If the moves of a gap can be replayed, a value that moves is where its move reads it as
the gap begins. -/
theorem locateBefore?_of_replay (h : a.Disjoint regClass)
    (hgaps : resolveGaps a.order a.liveness a.scratch = .ok a.resolution.gaps)
    (hcross : a.CrossesAt gap life i j) (hmoves : i.location ≠ j.location) {contents : Contents}
    (hreplay : (contentsBefore a.liveness.lives gap).replay (a.gapMoves gap) = .ok contents) :
    a.locateBefore? life.register gap = i.location := by
  have hi := h.mem_of_piece hcross.mem hcross.left
  obtain ⟨source, hsource⟩ := h.exists_location hi
  obtain ⟨target, htarget⟩ := h.exists_location (h.mem_of_piece hcross.mem hcross.right)
  rw [hsource, htarget, ne_eq, Option.some.injEq] at hmoves
  have hmem : ⟨life.register, source, target⟩ ∈ a.gapTransfers gap :=
    mem_gapTransfers.2 ⟨life, i, j, hcross, rfl, hsource, htarget⟩
  -- the moves were ordered so that each reads its value before it is overwritten
  obtain ⟨out, hout, hsequenced⟩ := Move.sequence_eq_ok h.target_ne_scratch
  cases hout.symm.trans (h.sequence_gapTransfers hgaps gap)
  have hwithin := (Move.sequence_ensures (fun _ h => h) (.inl rfl)
    within_gapTransfers).of_eq_ok hout
  have hfinds := Contents.finds_of_replay h.place_eq (fun _ _ => rfl) hwithin hreplay
  have hheld := hsequenced.of_finds hfinds _ (Move.mem_moving.2 ⟨hmem, hmoves⟩)
    (h.ne_scratch hi hsource)
  rw [h.get?_contentsBefore hcross.odd (within_gapTransfers _ hmem).1] at hheld
  exact hheld.trans hsource.symm

/-- If the check of the moves in gaps succeeds, crossings are orderly. -/
theorem orderly_of_checkGaps (h : a.Disjoint regClass)
    (hgaps : resolveGaps a.order a.liveness a.scratch = .ok a.resolution.gaps)
    (hcheck : a.checkGaps = .ok ()) : a.Orderly := by
  have hbridge : ∀ gap life i j, a.CrossesAt gap life i j → ∃ contents,
      (contentsBefore a.liveness.lives gap).replay (a.gapMoves gap) = .ok contents ∧
        ∀ l, j.location = some l → contents.get? l = some life.register :=
    fun gap life i j hcross => of_checkBridge (forM_eq_ok.1 (forM_eq_ok.1 hcheck life hcross.mem)
      (i, j) hcross.neighbours) hcross.touches hcross.splits
  refine ⟨fun gap life i j k hfirst hsecond => ?_,
    fun gap life i j other i' j' hcross hcross' heq => ?_⟩
  · -- as the gap begins, the value is where the first crossing starts
    refine Decidable.or_iff_not_imp_right.2 fun hmoves => ?_
    obtain ⟨contents, hreplay, -⟩ := hbridge gap life j k hsecond
    have hheld := h.locateBefore?_of_replay hgaps hsecond hmoves hreplay
    rwa [locateBefore?, h.life?_register hfirst.mem, Option.bind_some,
      h.pieceBefore?_of_start hfirst (h.start_of_crosses hfirst hsecond),
      Option.bind_some] at hheld
  -- two values at one place after the moves are one value
  · obtain ⟨contents, hreplay, hheld⟩ := hbridge gap life i j hcross
    obtain ⟨_, hreplay', hheld'⟩ := hbridge gap other i' j' hcross'
    cases hreplay.symm.trans hreplay'
    obtain ⟨l, hl⟩ := h.exists_location (h.mem_of_piece hcross.mem hcross.right)
    have hsame := (hheld l hl).symm.trans (hheld' l (heq ▸ hl))
    exact h.eq_of_register hcross.mem hcross'.mem (Option.some.inj hsame)

/-- If crossings are orderly, the check of the moves in gaps succeeds. -/
theorem checkGaps_of_orderly (h : a.Disjoint regClass)
    (hgaps : resolveGaps a.order a.liveness a.scratch = .ok a.resolution.gaps)
    (horderly : a.Orderly) : a.checkGaps = .ok () := by
  refine forM_eq_ok.2 fun life hlife => forM_eq_ok.2 fun ⟨i, j⟩ hij => ?_
  change a.checkBridge life.register i j = .ok ()
  rw [checkBridge]
  split
  · rfl
  · next htouches =>
    split
    · rfl
    · next gap hsplits =>
      -- what crosses the gap has arrived after the moves
      have hcross : a.CrossesAt gap life i j := ⟨hlife, hij, by simpa using htouches, hsplits⟩
      obtain ⟨after, hreplay, hafter⟩ := h.replay_gapMoves hgaps horderly hcross.odd
      obtain ⟨source, hsource⟩ := h.exists_location (h.mem_of_piece hlife hcross.left)
      obtain ⟨target, htarget⟩ := h.exists_location (h.mem_of_piece hlife hcross.right)
      have hheld := hafter ⟨life.register, source, target⟩
        (mem_gapTransfers.2 ⟨life, i, j, hcross, rfl, hsource, htarget⟩)
      refine bind_eq_ok.2 ⟨after, hreplay, bind_eq_ok.2
        ⟨target, Interval.locate_eq_ok.2 htarget, ?_⟩⟩
      rw [if_pos hheld]
      rfl

/-- If crossings are orderly, the moves of a gap bring every value from one piece to the next,
on every store that keeps the values as the gap begins. -/
theorem runMoves_gapMoves (h : a.Disjoint regClass)
    (hgaps : resolveGaps a.order a.liveness a.scratch = .ok a.resolution.gaps)
    (horderly : a.Orderly) (hcross : a.CrossesAt gap life i j) {V : Type} {store : Location → V}
    {env : VReg → V} (hkeeps : a.Keeps (·.pieceBefore? gap) store env) {l : Location}
    (hl : j.location = some l) : runMoves store (a.gapMoves gap) l = env life.register := by
  obtain ⟨after, hreplay, hafter⟩ := h.replay_gapMoves hgaps horderly hcross.odd
  have hwithin := (Move.sequence_ensures (fun _ h => h) (.inl rfl)
    within_gapTransfers).of_eq_ok (h.sequence_gapTransfers hgaps gap)
  have hdescribes := (h.describes_contentsBefore hkeeps).replay h.place_eq hwithin hreplay
  obtain ⟨source, hsource⟩ := h.exists_location (h.mem_of_piece hcross.mem hcross.left)
  exact hdescribes l life.register (.inr ⟨life, hcross.mem, j, hcross.right, hl⟩)
    (hafter ⟨life.register, source, l⟩
      (mem_gapTransfers.2 ⟨life, i, j, hcross, rfl, hsource, hl⟩))

end Disjoint

end Allocation

open Allocation (runMoves)

/-- When the moves of gaps deliver. When the pieces that a sweep leaves do not overlap, the
moves of all gaps are found. Their check succeeds exactly when crossings are orderly: no value
moves twice in a gap, and no two values cross to one location. Then, whatever the values are,
the moves of a gap bring each of them from one piece to the next. -/
theorem gap_moves_deliver_iff {g : Graph} {order : LinearOrder} {liveness : Liveness}
    (hall : Analysed g regClass order liveness) {pool : List String} (hnamed : Location.Named pool)
    (hswept : (Allocation.start order liveness pool).sweep = .ok a)
    (hoverlaps : a.checkOverlaps = .ok ()) :
    ∃ gaps, resolveGaps a.order a.liveness a.scratch = .ok gaps ∧
      ∀ edges b, b = { a with resolution := ⟨edges, gaps⟩ } →
        (b.checkGaps = .ok () ↔ b.Orderly) ∧
        (b.Orderly → ∀ (V : Type) (store : Location → V) (env : VReg → V) gap,
          b.Keeps (·.pieceBefore? gap) store env → ∀ life i j, b.CrossesAt gap life i j →
          ∀ l, j.location = some l → runMoves store (b.gapMoves gap) l = env life.register) := by
  have hdisjoint := hall.disjoint hnamed hswept hoverlaps
  obtain ⟨gaps, hgaps, -⟩ := hdisjoint.exists_resolveGaps
  refine ⟨gaps, hgaps, ?_⟩
  rintro edges b rfl
  have hmoved := hdisjoint.withMoves ⟨edges, gaps⟩
  refine ⟨⟨hmoved.orderly_of_checkGaps hgaps, hmoved.checkGaps_of_orderly hgaps⟩, ?_⟩
  intro horderly V store env gap hkeeps life i j hcross l hl
  exact hmoved.runMoves_gapMoves hgaps horderly hcross hkeeps hl

/-- Two values that change places in a gap, with one register for both. -/
def exchanged : Graph := Graph.run {} [
  .createRegister {}, .createRegister {}, .addBlock,
  .addInstruction (0 : Nat) { opcode := "a", defs := [{ register := (0 : Nat) }] },
  .addInstruction (0 : Nat) { opcode := "b", defs := [{ register := (1 : Nat) }] },
  .addInstruction (0 : Nat) { opcode := "c" },
  .addInstruction (0 : Nat)
    { opcode := "d"
      uses := [{ register := (0 : Nat) }, { register := (1 : Nat), policy := .any }] }]

theorem gap_moves_deliver_iff_exchanged : ∃ order liveness a gaps,
    Analysed exchanged none order liveness ∧ Location.Named ["r0"] ∧
      (Allocation.start order liveness ["r0"]).sweep = .ok a ∧ a.checkOverlaps = .ok () ∧
      resolveGaps a.order a.liveness a.scratch = .ok gaps ∧
      gaps.map (·.moves) = [[⟨0, .register "r0", .slot 0⟩],
        [⟨1, .register "r0", .slot 1⟩, ⟨0, .slot 0, .register "r0"⟩]] ∧
      { a with resolution := ⟨[], gaps⟩ }.checkGaps = .ok () ∧
      { a with resolution := ⟨[], gaps⟩ }.Orderly := by
  have hnamed : Location.Named ["r0"] := Location.named_of_head (by decide)
  have hswept : ∃ order liveness a gaps, Analysed exchanged none order liveness ∧
      (Allocation.start order liveness ["r0"]).sweep = .ok a ∧ a.checkOverlaps = .ok () ∧
      resolveGaps a.order a.liveness a.scratch = .ok gaps ∧
      gaps.map (·.moves) = [[⟨0, .register "r0", .slot 0⟩],
        [⟨1, .register "r0", .slot 1⟩, ⟨0, .slot 0, .register "r0"⟩]] ∧
      { a with resolution := ⟨[], gaps⟩ }.checkGaps = .ok () :=
    ⟨_, _, _, _, ⟨⟨_, rfl⟩, ⟨_, rfl⟩, ⟨_, rfl⟩⟩, rfl, rfl, rfl, rfl, rfl⟩
  obtain ⟨order, liveness, a, gaps, hall, hsweep, hoverlaps, hgaps, hmoves, hcheck⟩ := hswept
  obtain ⟨_, hgaps', hdeliver⟩ := gap_moves_deliver_iff hall hnamed hsweep hoverlaps
  cases hgaps.symm.trans hgaps'
  exact ⟨order, liveness, a, gaps, hall, hnamed, hsweep, hoverlaps, hgaps, hmoves, hcheck,
    (hdeliver [] _ rfl).1.1 hcheck⟩

/-- A value that is sent to memory in a gap and fetched back in the same gap. -/
def movedTwice : Graph := Graph.run {} [
  .createRegister {}, .createRegister {}, .createRegister {}, .addBlock,
  .addInstruction (0 : Nat) { opcode := "a", defs := [{ register := (0 : Nat) }] },
  .addInstruction (0 : Nat)
    { opcode := "b", defs := [{ register := (1 : Nat) }, { register := (2 : Nat) }] },
  .addInstruction (0 : Nat) { opcode := "c", defs := [{ register := (2 : Nat) }] },
  .addInstruction (0 : Nat)
    { opcode := "d"
      uses := [{ register := (0 : Nat) }, { register := (1 : Nat), policy := .any }]
      defs := [{ register := (1 : Nat) }] }]

/-- The second move of the value runs first, and does not find it in memory. -/
theorem gap_moves_lost_movedTwice : Location.Named ["r0", "r1"] ∧ ∃ order liveness a gaps,
    Analysed movedTwice none order liveness ∧
      (Allocation.start order liveness ["r0", "r1"]).sweep = .ok a ∧
      a.checkLocations = .ok () ∧ a.checkOverlaps = .ok () ∧
      resolveGaps a.order a.liveness a.scratch = .ok gaps ∧
      { a with resolution := ⟨[], gaps⟩ }.checkGaps = .error (.staleMove 1 (.slot 1) none) :=
  ⟨Location.named_of_head (by decide),
    _, _, _, _, ⟨⟨_, rfl⟩, ⟨_, rfl⟩, ⟨_, rfl⟩⟩, rfl, rfl, rfl, rfl, rfl⟩

end RegAlloc
