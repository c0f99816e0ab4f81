import RegAlloc.Proofs.Allocation.Contents

/-!
# The moves of an edge deliver

On an edge, every register that is live in the exit gap and into the target goes from where it
is in the gap to where it is as the target begins. Two registers never go to one location,
since two pieces there would overlap. So the moves can be put in order, and when they have
been made, every register has arrived.

- `Allocation.edgeTransfers` — the parallel moves of an edge;
- `Arranged.exists_resolveEdges`, `Arranged.sequence_edgeTransfers` — the groups of moves on
  edges put these in order;
- `Disjoint.checkEdges_eq_ok` — replaying them brings every register to its place;
- `edge_moves_deliver` — what holds of every sweep whose pieces do not overlap.
-/

namespace RegAlloc

variable {a : Allocation} {regClass : Option String} {span target : Span} {b : BlockId}
  {gap entry : Position} {r : VReg}

namespace Allocation

/-! ## Parallel moves -/

/-- How a register gets from where it is in a gap to where it is at another position. -/
def transfer? (a : Allocation) (gap entry : Position) (r : VReg) : Option Move :=
  match a.locateBefore? r gap, a.locate? r entry with
  | some source, some target => some ⟨r, source, target⟩
  | _, _ => none

theorem transfer?_eq_some {m : Move} : a.transfer? gap entry r = some m ↔
    m.register = r ∧ a.locateBefore? r gap = some m.source ∧ a.locate? r entry = some m.target := by
  rw [transfer?]
  obtain ⟨register, source, target⟩ := m
  grind

/-- The parallel moves of an edge, with those of registers that stay in place. -/
def edgeTransfers (a : Allocation) (span target : Span) : List Move :=
  (a.liveness.liveInto target.block).filterMap (a.transfer? (span.last + 1) target.first)

theorem mem_edgeTransfers {m : Move} : m ∈ a.edgeTransfers span target ↔
    m.register ∈ a.liveness.liveInto target.block ∧
      a.locateBefore? m.register (span.last + 1) = some m.source ∧
      a.locate? m.register target.first = some m.target := by
  simp only [edgeTransfers, List.mem_filterMap, transfer?_eq_some]
  exact ⟨fun ⟨r, hr, heq, h⟩ => heq ▸ ⟨hr, h⟩, fun ⟨hr, h⟩ => ⟨_, hr, rfl, h⟩⟩

namespace Arranged

/-- A register that is live into a block is somewhere as the block begins. -/
theorem exists_locate?_first (h : a.Arranged regClass) (htarget : target ∈ a.order.spans)
    (hr : r ∈ a.liveness.liveInto target.block) : ∃ l, a.locate? r target.first = some l := by
  obtain ⟨hoccurs, hcovers⟩ := (h.liveInto target htarget r).1 hr
  obtain ⟨life, hlife, rfl⟩ := (h.occurs r).1 hoccurs
  obtain ⟨i, hi, hcovers⟩ := (h.covers life hlife _).2 hcovers
  obtain ⟨l, -, hlocate⟩ := h.locate?_of_covers hlife hi hcovers
  exact ⟨l, hlocate⟩

/-- The move of a register on an edge is how it gets to its place, unless it is there. -/
theorem edgeMove?_eq_ok (h : a.Arranged regClass) (htarget : target ∈ a.order.spans)
    (hr : r ∈ a.liveness.liveInto target.block) :
    edgeMove? a.liveness gap target r =
      .ok ((a.transfer? gap target.first r).filter fun m => m.source != m.target) := by
  obtain ⟨goal, hgoal⟩ := h.exists_locate?_first htarget hr
  obtain ⟨life, hlife, rfl, j, hj, hcovers, hjl⟩ := h.locate?_eq_some.1 hgoal
  rw [edgeMove?, h.life?_register hlife, transfer?, hgoal, locateBefore?, h.life?_register hlife,
    Option.bind_some]
  cases hbefore : life.pieceBefore? gap with
  | none => simp [hbefore, pure, Except.pure]
  | some i =>
    have hi := ((h.laid life hlife).of_pieceBefore? hbefore).1
    obtain ⟨source, hsource⟩ := h.exists_location (h.mem_of_piece hlife hi)
    simp only [hbefore, (h.laid life hlife).pieceAt?_eq_some.2 ⟨hj, hcovers⟩, Option.bind_some,
      Interval.locate_eq_ok.2 hsource, Interval.locate_eq_ok.2 hjl, hsource]
    by_cases hstays : source = goal <;>
      simp [hstays, Option.filter, bind, Except.bind, pure, Except.pure]

/-- The parallel moves of an edge lead to places other than the scratch location. -/
theorem place_of_edgeTransfer (h : a.Arranged regClass) : ∀ m ∈ a.edgeTransfers span target,
    Place a.liveness.lives a.scratch m.target ∧ m.target ≠ a.scratch := by
  intro m hm
  obtain ⟨-, -, hlocate⟩ := mem_edgeTransfers.1 hm
  obtain ⟨life, hlife, -, i, hi, -, hl⟩ := h.locate?_eq_some.1 hlocate
  exact ⟨.inr ⟨life, hlife, i, hi, hl⟩, h.ne_scratch (h.mem_of_piece hlife hi) hl⟩

/-- A group of moves on an edge names its ends and says where the moves can stand. -/
theorem exists_moves_of_edgeMoves? {order : LinearOrder} {liveness : Liveness} {scratch : Location}
    {group : EdgeMoves} (h : edgeMoves? order liveness scratch span b = .ok (some group)) :
    ∃ moves, group =
      { source := span.block
        target := b
        placement := placementOf order.graph span.block b
        moves } := by
  simp only [edgeMoves?, bind_eq_ok] at h
  obtain ⟨target, -, moves, -, h⟩ := h
  split at h
  · cases h
  · rw [bind_eq_ok] at h
    obtain ⟨out, -, ⟨⟩⟩ := h
    exact ⟨out, rfl⟩

theorem ends_of_edgeMoves? {order : LinearOrder} {liveness : Liveness} {scratch : Location}
    {group : EdgeMoves} (h : edgeMoves? order liveness scratch span b = .ok (some group)) :
    group.source = span.block ∧ group.target = b := by
  obtain ⟨_, rfl⟩ := exists_moves_of_edgeMoves? h
  exact ⟨rfl, rfl⟩

/-- The moves of an edge are its parallel moves, put in order. A group has moves. -/
theorem exists_edgeMoves? (h : a.Arranged regClass) (span : Span)
    (htarget : target ∈ a.order.spans) :
    ∃ found, edgeMoves? a.order a.liveness a.scratch span target.block = .ok found ∧
      Move.sequence (a.edgeTransfers span target) a.scratch =
        .ok ((found.map (·.moves)).getD []) ∧
      ∀ group, found = some group → Move.moving (a.edgeTransfers span target) ≠ [] := by
  -- every value that is live into the target has a place on both sides
  have hmoves : (a.liveness.liveInto target.block).mapM
      (edgeMove? a.liveness (span.last + 1) target) = .ok _ :=
    mapM_eq_ok_map fun r hr => h.edgeMove?_eq_ok htarget hr
  -- values that stay where they are need no move
  have hmoving : ((a.liveness.liveInto target.block).map fun r =>
        (a.transfer? (span.last + 1) target.first r).filter
          fun m => m.source != m.target).filterMap id =
      Move.moving (a.edgeTransfers span target) := by
    rw [List.filterMap_map, edgeTransfers, Move.moving, List.filter_filterMap]
    rfl
  obtain ⟨out, hout, -⟩ := Move.sequence_eq_ok fun m hm => (h.place_of_edgeTransfer m hm).2
  simp only [edgeMoves?, h.regular.span_block htarget, hmoves, bind, Except.bind, hmoving]
  rw [← Move.sequence_moving] at hout ⊢
  split
  -- nothing moves, so there is no group
  · next hnone =>
    rw [hnone]
    exact ⟨none, rfl, rfl, fun _ hgroup => by cases hgroup⟩
  · next hsome =>
    rw [hout]
    exact ⟨some _, rfl, rfl, fun _ _ => hsome⟩

/-- All groups of moves on edges are found. -/
theorem exists_resolveEdges (h : a.Arranged regClass) :
    ∃ edges, resolveEdges a.order a.liveness a.scratch = .ok edges := by
  have hrows : ∀ span ∈ a.order.spans, ∃ row, (a.order.graph.successors span.block).mapM
      (edgeMoves? a.order a.liveness a.scratch span) = .ok row := by
    refine fun span _ => exists_mapM_eq_ok.2 fun b hb => ?_
    obtain ⟨target, htarget, rfl⟩ := h.regular.exists_span_target hb
    obtain ⟨found, hfound, -⟩ := h.exists_edgeMoves? span htarget
    exact ⟨found, hfound⟩
  obtain ⟨rows, hrows⟩ := exists_mapM_eq_ok.2 hrows
  exact ⟨_, bind_eq_ok.2 ⟨rows, hrows, rfl⟩⟩

/-- The groups of moves on edges are those of the edges, one by one. -/
theorem mem_edges (hedges : resolveEdges a.order a.liveness a.scratch = .ok a.resolution.edges)
    {group : EdgeMoves} : group ∈ a.resolution.edges ↔ ∃ span ∈ a.order.spans,
      ∃ b ∈ a.order.graph.successors span.block,
        edgeMoves? a.order a.liveness a.scratch span b = .ok (some group) := by
  rw [resolveEdges, bind_eq_ok] at hedges
  obtain ⟨rows, hrows, hedges⟩ := hedges
  rw [← Except.ok.inj hedges]
  simp only [List.mem_filterMap, List.mem_flatten, id, exists_eq_right, mem_of_mapM_eq_ok hrows]
  constructor
  · rintro ⟨row, ⟨span, hspan, hrow⟩, hgroup⟩
    exact ⟨span, hspan, (mem_of_mapM_eq_ok hrow).1 hgroup⟩
  · rintro ⟨span, hspan, hgroup⟩
    obtain ⟨row, hrow⟩ := exists_mapM_eq_ok.1 ⟨rows, hrows⟩ span hspan
    exact ⟨row, ⟨span, hspan, hrow⟩, (mem_of_mapM_eq_ok hrow).2 hgroup⟩

/-- No edge has two groups of moves. -/
theorem pairwise_edges (h : a.Arranged regClass)
    (hedges : resolveEdges a.order a.liveness a.scratch = .ok a.resolution.edges) :
    a.resolution.edges.Pairwise fun e f => e.source = f.source → e.target ≠ f.target := by
  rw [resolveEdges, bind_eq_ok] at hedges
  obtain ⟨rows, hrows, hedges⟩ := hedges
  rw [← Except.ok.inj hedges, List.pairwise_filterMap, List.pairwise_flatten]
  constructor
  -- the groups of one source have different targets
  · intro row hrow
    obtain ⟨span, -, hrow⟩ := (mem_of_mapM_eq_ok hrows).1 hrow
    refine pairwise_of_mapM_eq_ok ?_ hrow (h.regular.wellFormed.distinct span.block)
    rintro b b' x y hne hx hy e rfl f rfl - htarget
    rw [(ends_of_edgeMoves? hx).2, (ends_of_edgeMoves? hy).2] at htarget
    exact hne (Option.some.inj (congrArg Ref.index? htarget))
  -- groups of different sources
  · refine pairwise_of_mapM_eq_ok ?_ hrows (List.pairwise_map.1 h.regular.nodup)
    rintro s t row row' hne hrow hrow' x hx y hy e rfl f rfl hsource -
    obtain ⟨b, -, hx⟩ := (mem_of_mapM_eq_ok hrow).1 hx
    obtain ⟨b', -, hy⟩ := (mem_of_mapM_eq_ok hrow').1 hy
    rw [(ends_of_edgeMoves? hx).1, (ends_of_edgeMoves? hy).1] at hsource
    exact hne (Option.some.inj (congrArg Ref.index? hsource))

/-- The moves of a group on an edge are the parallel moves of the edge, put in order. -/
theorem of_mem_edges (h : a.Arranged regClass)
    (hedges : resolveEdges a.order a.liveness a.scratch = .ok a.resolution.edges)
    {group : EdgeMoves} (hgroup : group ∈ a.resolution.edges) (hspan : span ∈ a.order.spans)
    (hsource : group.source = span.block) : ∃ target ∈ a.order.spans,
      target.block ∈ a.order.graph.successors span.block ∧ group.target = target.block ∧
        Move.sequence (a.edgeTransfers span target) a.scratch = .ok group.moves := by
  obtain ⟨other, hother, b, hb, hfound⟩ := (mem_edges hedges).1 hgroup
  obtain ⟨target, htarget, rfl⟩ := h.regular.exists_span_target hb
  obtain ⟨found, hfound', hmoves, -⟩ := h.exists_edgeMoves? other htarget
  cases hfound.symm.trans hfound'
  obtain ⟨hsource', htarget'⟩ := ends_of_edgeMoves? hfound
  have hblock : other.block = span.block :=
    Option.some.inj (congrArg Ref.index? (hsource'.symm.trans hsource))
  cases h.regular.span_unique hother hspan hblock
  exact ⟨target, htarget, hb, htarget', hmoves⟩

/-- The moves that are made on an edge are its parallel moves, put in order. -/
theorem sequence_edgeTransfers (h : a.Arranged regClass)
    (hedges : resolveEdges a.order a.liveness a.scratch = .ok a.resolution.edges)
    (hspan : span ∈ a.order.spans) (htarget : target ∈ a.order.spans)
    (hedge : target.block ∈ a.order.graph.successors span.block) :
    Move.sequence (a.edgeTransfers span target) a.scratch =
      .ok (a.edgeMoves span.block target.block) := by
  rw [edgeMoves]
  cases hfind : a.resolution.edges.find? fun e =>
      e.source == (span.block : Ref) && e.target == (target.block : Ref) with
  | some group =>
    have hends := List.find?_some hfind
    simp only [Bool.and_eq_true, beq_iff_eq] at hends
    obtain ⟨found, hmem, -, hfound, hmoves⟩ :=
      h.of_mem_edges hedges (List.mem_of_find?_eq_some hfind) hspan hends.1
    have hblock : found.block = target.block :=
      Option.some.inj (congrArg Ref.index? (hfound.symm.trans hends.2))
    cases h.regular.span_unique hmem htarget hblock
    exact hmoves
  -- no group was recorded for the edge, so nothing moves on it
  | none =>
    obtain ⟨found, hfound, hmoves, -⟩ := h.exists_edgeMoves? span htarget
    cases found with
    | none => exact hmoves
    | some group =>
      have hgroup := (mem_edges hedges).2 ⟨span, hspan, target.block, hedge, hfound⟩
      have hnot := List.find?_eq_none.1 hfind group hgroup
      simp [ends_of_edgeMoves? hfound] at hnot

end Arranged

/-! ## Arrivals -/

namespace Disjoint

/-- Registers that are in one location at a position are the same. -/
theorem eq_of_locate? (h : a.Disjoint regClass) {p : Position} {r s : VReg} {l : Location}
    (hr : a.locate? r p = some l) (hs : a.locate? s p = some l) : r = s := by
  obtain ⟨life, hlife, rfl, i, hi, hip, hil⟩ := h.locate?_eq_some.1 hr
  obtain ⟨other, hother, rfl, j, hj, hjp, hjl⟩ := h.locate?_eq_some.1 hs
  cases eq_of_covers h.ascending h.apart (h.mem_of_piece hlife hi) (h.mem_of_piece hother hj) hil
    hjl hip hjp
  exact ((h.laid life hlife).register i hi).symm.trans ((h.laid other hother).register i hj)

/-- The moves of an edge are of different registers. -/
theorem registers_edgeTransfers (h : a.Disjoint regClass) (htarget : target ∈ a.order.spans) :
    (Move.moving (a.edgeTransfers span target)).Pairwise fun m x => m.register ≠ x.register := by
  refine List.Pairwise.sublist List.filter_sublist ?_
  rw [edgeTransfers, List.pairwise_filterMap]
  refine (h.liveIntoNodup target htarget).imp fun {r s} hne m hm x hx => ?_
  rw [(transfer?_eq_some.1 hm).1, (transfer?_eq_some.1 hx).1]
  exact hne

/-- No two moves of an edge lead to one location. -/
theorem nodup_edgeTransfers (h : a.Disjoint regClass) (htarget : target ∈ a.order.spans) :
    ((Move.moving (a.edgeTransfers span target)).map (·.target)).Nodup := by
  rw [List.Nodup, List.pairwise_map]
  refine (h.registers_edgeTransfers htarget).imp_of_mem fun {m x} hm hx hne heq => hne ?_
  obtain ⟨-, -, hm⟩ := mem_edgeTransfers.1 (Move.mem_moving.1 hm).1
  obtain ⟨-, -, hx⟩ := mem_edgeTransfers.1 (Move.mem_moving.1 hx).1
  exact h.eq_of_locate? (heq ▸ hm) hx

/-- The moves of an edge can be replayed, and then all registers have arrived. -/
theorem replay_edgeMoves (h : a.Disjoint regClass)
    (hedges : resolveEdges a.order a.liveness a.scratch = .ok a.resolution.edges)
    (hspan : span ∈ a.order.spans) (htarget : target ∈ a.order.spans)
    (hedge : target.block ∈ a.order.graph.successors span.block) :
    ∃ after, (contentsBefore a.liveness.lives (span.last + 1)).replay
        (a.edgeMoves span.block target.block) = .ok after ∧
      ∀ m ∈ a.edgeTransfers span target, after.get? m.target = some m.register := by
  -- a value is read from where it is as the block ends
  have hsource : ∀ m ∈ a.edgeTransfers span target, Place a.liveness.lives a.scratch m.source ∧
      (contentsBefore a.liveness.lives (span.last + 1)).get? m.source = some m.register := by
    intro m hm
    obtain ⟨-, hbefore, -⟩ := mem_edgeTransfers.1 hm
    obtain ⟨life, hlife, -, i, hi, hl⟩ := h.locateBefore?_eq_some.1 hbefore
    have hplace : Place a.liveness.lives a.scratch m.source :=
      .inr ⟨life, hlife, i, ((h.laid life hlife).of_pieceBefore? hi).1, hl⟩
    exact ⟨hplace, (h.get?_contentsBefore (h.regular.odd_exit hspan) hplace).2 hbefore⟩
  refine Contents.replay_sequence h.place_eq (.inl rfl)
    (fun m hm => ⟨(hsource m hm).1, (h.place_of_edgeTransfer m hm).1⟩)
    (fun m hm => (h.place_of_edgeTransfer m hm).2)
    (h.sequence_edgeTransfers hedges hspan htarget hedge) (h.nodup_edgeTransfers htarget)
    (fun m hm => (hsource m (Move.mem_moving.1 hm).1).2) (fun m hm x hx heq => ?_)
    fun m hm hstays _ => hstays ▸ (hsource m hm).2
  -- two values that arrive at one place are the same
  obtain ⟨-, -, hm⟩ := mem_edgeTransfers.1 hm
  obtain ⟨-, -, hx⟩ := mem_edgeTransfers.1 hx
  exact h.eq_of_locate? (heq ▸ hm) hx

/-- The check of the moves on edges succeeds. -/
theorem checkEdges_eq_ok (h : a.Disjoint regClass)
    (hedges : resolveEdges a.order a.liveness a.scratch = .ok a.resolution.edges) :
    a.checkEdges = .ok () := by
  refine forM_eq_ok.2 fun span hspan => forM_eq_ok.2 fun b hb => ?_
  obtain ⟨target, htarget, rfl⟩ := h.regular.exists_span_target hb
  obtain ⟨after, hreplay, hafter⟩ := h.replay_edgeMoves hedges hspan htarget hb
  refine bind_eq_ok.2 ⟨target, h.regular.span_block htarget,
    bind_eq_ok.2 ⟨after, hreplay, forM_eq_ok.2 fun r hr => ?_⟩⟩
  obtain ⟨goal, hgoal⟩ := h.exists_locate?_first htarget hr
  obtain ⟨life, hlife, rfl, -⟩ := h.locate?_eq_some.1 hgoal
  have hpiece := hgoal
  rw [locate?, h.life?_register hlife, Option.bind_some] at hpiece
  simp only [checkArrival, h.life?_register hlife, hpiece]
  -- a register that had no place before the edge is not checked
  cases hbefore : life.pieceBefore? (span.last + 1) with
  | none => rfl
  | some i =>
    have hi := ((h.laid life hlife).of_pieceBefore? hbefore).1
    obtain ⟨source, hsource⟩ := h.exists_location (h.mem_of_piece hlife hi)
    have harrived := hafter ⟨life.register, source, goal⟩ (mem_edgeTransfers.2
      ⟨hr, h.locateBefore?_eq_some.2 ⟨life, hlife, rfl, i, hbefore, hsource⟩, hgoal⟩)
    simp only [Option.isNone_some, harrived]
    rfl

/-- On every store that keeps the registers as an edge is taken, the moves of the edge bring
those that are live in the exit gap and into the target to where the target expects them. -/
theorem runMoves_edgeMoves (h : a.Disjoint regClass)
    (hedges : resolveEdges a.order a.liveness a.scratch = .ok a.resolution.edges)
    (hspan : span ∈ a.order.spans) (htarget : target ∈ a.order.spans)
    (hedge : target.block ∈ a.order.graph.successors span.block) {V : Type} {store : Location → V}
    {env : VReg → V} (hkeeps : a.Keeps (·.pieceBefore? (span.last + 1)) store env)
    (hr : r ∈ a.liveness.liveInto target.block)
    (hleaves : (a.locateBefore? r (span.last + 1)).isSome) :
    ∃ l, a.locate? r target.first = some l ∧
      runMoves store (a.edgeMoves span.block target.block) l = env r := by
  obtain ⟨after, hreplay, hafter⟩ := h.replay_edgeMoves hedges hspan htarget hedge
  have hwithin : ∀ m ∈ a.edgeMoves span.block target.block,
      m.Within (Place a.liveness.lives a.scratch) (Place a.liveness.lives a.scratch) := by
    intro m hm
    obtain ⟨group, hgroup, -, hm⟩ := mem_edgeMoves hm
    exact (resolveEdges_ensures ..).of_eq_ok hedges group hgroup m hm
  have hdescribes := (h.describes_contentsBefore hkeeps).replay h.place_eq hwithin hreplay
  obtain ⟨goal, hgoal⟩ := h.exists_locate?_first htarget hr
  obtain ⟨source, hsource⟩ := Option.isSome_iff_exists.1 hleaves
  obtain ⟨life, hlife, -, i, hi, -, hl⟩ := h.locate?_eq_some.1 hgoal
  exact ⟨goal, hgoal, hdescribes goal r (.inr ⟨life, hlife, i, hi, hl⟩)
    (hafter ⟨r, source, goal⟩ (mem_edgeTransfers.2 ⟨hr, hsource, hgoal⟩))⟩

end Disjoint

end Allocation

open Allocation (runMoves)

/-- Edge moves deliver. When the pieces that a sweep leaves do not overlap, the moves of all
edges are found and their check succeeds: whatever the values are, the moves of an edge bring
every register that is live in the exit gap and into the target to where it is kept there. -/
theorem edge_moves_deliver {g : Graph} {order : LinearOrder} {liveness : Liveness}
    (hall : Analysed g regClass order liveness) {pool : List String} (hnamed : Location.Named pool)
    (hswept : (Allocation.start order liveness pool).sweep = .ok a)
    (hoverlaps : a.checkOverlaps = .ok ()) :
    ∃ edges, resolveEdges a.order a.liveness a.scratch = .ok edges ∧
      ∀ gaps b, b = { a with resolution := ⟨edges, gaps⟩ } → b.checkEdges = .ok () ∧
        ∀ (V : Type) (store : Location → V) (env : VReg → V), ∀ span ∈ b.order.spans,
          b.Keeps (·.pieceBefore? (span.last + 1)) store env →
          ∀ target ∈ b.order.spans, target.block ∈ b.order.graph.successors span.block →
          ∀ r ∈ b.liveness.liveInto target.block, (b.locateBefore? r (span.last + 1)).isSome →
            ∃ l, b.locate? r target.first = some l ∧
              runMoves store (b.edgeMoves span.block target.block) l = env r := by
  have hdisjoint := hall.disjoint hnamed hswept hoverlaps
  obtain ⟨edges, hedges⟩ := hdisjoint.exists_resolveEdges
  refine ⟨edges, hedges, ?_⟩
  rintro gaps b rfl
  have hmoved := hdisjoint.withMoves ⟨edges, gaps⟩
  exact ⟨hmoved.checkEdges_eq_ok hedges, fun V store env span hspan hkeeps target htarget hedge
    r hr hleaves => hmoved.runMoves_edgeMoves hedges hspan htarget hedge hkeeps hr hleaves⟩

/-- A loop at whose end two values have changed registers. -/
def swapping : Graph := Graph.run {} [
  .createRegister {}, .createRegister {}, .createRegister {}, .addBlock, .addBlock, .addBlock,
  .addInstruction (0 : Nat)
    { opcode := "a", defs := [{ register := (0 : Nat) }, { register := (1 : Nat) }] },
  .addInstruction (2 : Nat)
    { opcode := "b", uses := [{ register := (1 : Nat) }], defs := [{ register := (2 : Nat) }] },
  .addInstruction (2 : Nat) { opcode := "c", uses := [{ register := (0 : Nat) }] },
  .addInstruction (2 : Nat)
    { opcode := "d", uses := [{ register := (1 : Nat) }], defs := [{ register := (0 : Nat) }] },
  .addEdge (0 : Nat) (1 : Nat), .addEdge (1 : Nat) (2 : Nat), .addEdge (2 : Nat) (1 : Nat)]

theorem edge_moves_deliver_swapping : ∃ order liveness a edges,
    Analysed swapping none order liveness ∧ Location.Named ["r0", "r1"] ∧
      (Allocation.start order liveness ["r0", "r1"]).sweep = .ok a ∧ a.checkOverlaps = .ok () ∧
      resolveEdges a.order a.liveness a.scratch = .ok edges ∧
      edges.map (·.moves.map (·.target)) =
        [[.slot 0], [.slot 2, .register "r0", .register "r1"]] ∧
      { a with resolution := ⟨edges, []⟩ }.checkEdges = .ok () := by
  have hnamed : Location.Named ["r0", "r1"] := Location.named_of_head (by decide)
  have hswept : ∃ order liveness a edges, Analysed swapping none order liveness ∧
      (Allocation.start order liveness ["r0", "r1"]).sweep = .ok a ∧ a.checkOverlaps = .ok () ∧
      resolveEdges a.order a.liveness a.scratch = .ok edges ∧
      edges.map (·.moves.map (·.target)) =
        [[.slot 0], [.slot 2, .register "r0", .register "r1"]] :=
    ⟨_, _, _, _, ⟨⟨_, rfl⟩, ⟨_, rfl⟩, ⟨_, rfl⟩⟩, rfl, rfl, rfl, rfl⟩
  obtain ⟨order, liveness, a, edges, hall, hsweep, hoverlaps, hedges, htargets⟩ := hswept
  obtain ⟨_, hedges', hdeliver⟩ := edge_moves_deliver hall hnamed hsweep hoverlaps
  cases hedges.symm.trans hedges'
  exact ⟨order, liveness, a, edges, hall, hnamed, hsweep, hoverlaps, hedges, htargets,
    (hdeliver [] _ rfl).1⟩

end RegAlloc
