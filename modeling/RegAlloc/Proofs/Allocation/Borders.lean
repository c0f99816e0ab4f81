import RegAlloc.Proofs.Allocation.Edges
import RegAlloc.Proofs.Liveness.Exact

/-!
# Liveness at the borders of blocks

The analysis says in two ways that a register is live as a block begins: it lists the
register for the block, and the life of the register covers the first position. The two
agree, whatever loops there are. So whatever pieces a sweep cuts the lives into, a register
that is live into a block has a piece there, and moves on edges are always found; at most
they cannot be put in order with the scratch location that is given.

- `Analysed.mem_liveInto_iff_covers` — the two ways agree;
- `Move.sequence_stops` — why moves may not be put in order;
- `Arranged.resolveEdges_stops` — nothing else stops the search for the moves on edges;
- `liveInto_covers` — both about every graph that is analysed.
-/

namespace RegAlloc

/-- A register is live into a block exactly if its life covers the first position. -/
theorem Analysed.mem_liveInto_iff_covers {g : Graph} {regClass : Option String}
    {order : LinearOrder} {liveness : Liveness} (h : Analysed g regClass order liveness)
    {span : Span} (hspan : span ∈ order.spans) {r : VReg} :
    r ∈ liveness.liveInto span.block ↔ liveness.Covers r span.first := by
  rw [h.mem_liveInto hspan, h.covers_iff, LinearOrder.covers_first_iff h.regular hspan]

/-- Moves could not be put in order. -/
def Violation.Unsequenced (v : Violation) : Prop := v = .movesUnfinished ∨ v = .noReader

namespace Move

theorem sequencePending_stops (scratch : Location) : ∀ (fuel : Nat) (moves : List Move),
    Ensures (sequencePending scratch fuel moves) (fun _ => True) Violation.Unsequenced
  | _, [] => by simp [sequencePending]
  | 0, _ :: _ => .inl rfl
  | fuel + 1, first :: rest => by
    rw [sequencePending]
    split
    · next ready others _ =>
      exact (sequencePending_stops scratch fuel others).bind fun _ _ => trivial
    · split
      · exact .inr rfl
      · next reader redirected _ =>
        exact (sequencePending_stops scratch fuel redirected).bind fun _ _ => trivial

theorem sequence_stops (moves : List Move) (scratch : Location) :
    Ensures (sequence moves scratch) (fun _ => True) Violation.Unsequenced :=
  sequencePending_stops scratch _ _

end Move

namespace Allocation.Arranged

variable {a : Allocation} {regClass : Option String}

/-- The moves of an edge are found for every register; only their order may fail. -/
theorem edgeMoves?_stops (h : a.Arranged regClass) (scratch : Location) (span : Span)
    {target : Span} (htarget : target ∈ a.order.spans) :
    Ensures (edgeMoves? a.order a.liveness scratch span target.block) (fun _ => True)
      Violation.Unsequenced := by
  have hmoves : (a.liveness.liveInto target.block).mapM
      (edgeMove? a.liveness (span.last + 1) target) = .ok _ :=
    mapM_eq_ok_map fun r hr => h.edgeMove?_eq_ok htarget hr
  simp only [edgeMoves?, h.regular.span_block htarget, hmoves, bind, Except.bind]
  split
  · trivial
  · exact (Move.sequence_stops _ scratch).bind fun _ _ => trivial

/-- The moves on all edges are found; only their order may fail. -/
theorem resolveEdges_stops (h : a.Arranged regClass) (scratch : Location) :
    Ensures (resolveEdges a.order a.liveness scratch) (fun _ => True) Violation.Unsequenced := by
  rw [resolveEdges]
  refine Ensures.bind (P := fun _ => True) ?_ fun _ _ => trivial
  refine Ensures.mono (P := fun rows => ∀ row ∈ rows, ∀ found ∈ row, True) ?_ fun _ _ => trivial
  refine Ensures.mapM fun span _ => Ensures.mapM fun b hb => ?_
  obtain ⟨target, htarget, rfl⟩ := h.regular.exists_span_target hb
  exact h.edgeMoves?_stops scratch span htarget

end Allocation.Arranged

/-- The registers live into a block are those whose lives cover its first position, and so
the moves on edges never lack a piece there, whatever pieces a sweep has made. -/
theorem liveInto_covers {g : Graph} {regClass : Option String} {order : LinearOrder}
    {liveness : Liveness} (h : Analysed g regClass order liveness) :
    (∀ span ∈ order.spans, ∀ r,
      r ∈ liveness.liveInto span.block ↔ liveness.Covers r span.first) ∧
    ∀ pool swept, sweep order liveness.lives pool = .ok swept → ∀ scratch r b p,
      resolveEdges order { liveness with lives := swept.lives } scratch ≠
        .error (.notCovered r b p) := by
  refine ⟨fun span hspan r => h.mem_liveInto_iff_covers hspan, ?_⟩
  intro pool swept hswept scratch r b p herror
  have hsweep : (Allocation.start order liveness pool).sweep = .ok _ :=
    bind_eq_ok.2 ⟨swept, hswept, rfl⟩
  rcases ((h.arranged hsweep).resolveEdges_stops scratch).of_eq_error herror with hstop | hstop
  · cases hstop
  · cases hstop

/-- Around a loop, a value is live into the header and two values change registers. -/
theorem liveInto_covers_swapping : ∃ order liveness swept,
    Analysed swapping none order liveness ∧
      sweep order liveness.lives ["r0", "r1"] = .ok swept ∧
      ⟨1, 2, 2⟩ ∈ order.spans ∧ 0 ∈ liveness.liveInto 1 ∧ liveness.Covers 0 2 ∧
      ∀ scratch r b p, resolveEdges order { liveness with lives := swept.lives } scratch ≠
        .error (.notCovered r b p) := by
  have h : ∃ order liveness swept, Analysed swapping none order liveness ∧
      sweep order liveness.lives ["r0", "r1"] = .ok swept ∧ ⟨1, 2, 2⟩ ∈ order.spans ∧
      0 ∈ liveness.liveInto 1 :=
    ⟨_, _, _, ⟨⟨_, rfl⟩, ⟨_, rfl⟩, ⟨_, rfl⟩⟩, rfl, by decide, by decide⟩
  obtain ⟨order, liveness, swept, hall, hswept, hspan, hlive⟩ := h
  obtain ⟨hagree, hedges⟩ := liveInto_covers hall
  exact ⟨order, liveness, swept, hall, hswept, hspan, hlive,
    (hagree ⟨1, 2, 2⟩ hspan 0).1 hlive, hedges _ swept hswept⟩

end RegAlloc
