import RegAlloc.Proofs.Allocation.Edges
import RegAlloc.Proofs.Allocation.Gaps

/-!
# Moves and fresh definitions

An instruction writes a register to where it is kept in the gap behind it. The moves of that
gap, and of the edges behind a block, take a register from where it is kept at the instruction
before the gap, if it is live there. So a register that is read and written by one instruction
may be written to one place and moved from another. A definition that needs a register is
safe, since no piece begins with one in a gap in which another piece ends.

- `Allocation.Fresh` — no move reads a register from where the instruction did not write it;
- `Arranged.exists_gap_read_iff`, `Arranged.exists_edge_read_iff` — where the moves of a
  register read it;
- `fresh_iff` — when all moves read what was written.
-/

namespace RegAlloc

variable {a : Allocation} {regClass : Option String} {life : Lifetime} {i j : Interval}
  {span : Span} {p gap : Position} {r : VReg} {l : Location}

namespace Allocation

/-- Behind the instruction at a position, the moves of a register read it from where the
instruction writes it, or from the scratch location. -/
def Fresh (a : Allocation) (p : Position) (r : VReg) : Prop :=
  (∀ group ∈ a.resolution.gaps, group.position = p + 1 → ∀ m ∈ group.moves, m.register = r →
    m.source ≠ a.scratch → a.locate? r (p + 1) = some m.source) ∧
  ∀ span ∈ a.order.spans, p = span.last → ∀ group ∈ a.resolution.edges,
    group.source = span.block → ∀ m ∈ group.moves, m.register = r →
      m.source ≠ a.scratch → a.locate? r (p + 1) = some m.source

namespace Arranged

/-! ## What moves read -/

/-- The moves of a gap read a register where it crosses from, unless it stays in place. -/
theorem exists_gap_read_iff (h : a.Arranged regClass)
    (hgaps : resolveGaps a.order a.liveness a.scratch = .ok a.resolution.gaps)
    (hl : l ≠ a.scratch) :
    (∃ group ∈ a.resolution.gaps, group.position = gap ∧
        ∃ m ∈ group.moves, m.register = r ∧ m.source = l) ↔
      ∃ life i j, a.CrossesAt gap life i j ∧ life.register = r ∧ i.location = some l ∧
        j.location ≠ some l := by
  obtain ⟨gaps, hgaps', hmoves, hall⟩ := h.exists_resolveGaps
  cases hgaps.symm.trans hgaps'
  constructor
  -- a recorded move comes from a value that crosses the gap
  · rintro ⟨group, hgroup, rfl, hread⟩
    obtain ⟨x, hx, hregister, rfl, hne⟩ :=
      (Move.exists_read_iff (hmoves group hgroup).2 h.target_ne_scratch hl).1 hread
    obtain ⟨life, i, j, hcross, hlife, hsource, htarget⟩ := mem_gapTransfers.1 hx
    refine ⟨life, i, j, hcross, hlife.symm.trans hregister, hsource, fun heq => hne ?_⟩
    exact Option.some.inj (htarget.symm.trans heq)
  -- a value that crosses to another place is moved
  · rintro ⟨life, i, j, hcross, rfl, hsource, hne⟩
    obtain ⟨target, htarget⟩ := h.exists_location (h.mem_of_piece hcross.mem hcross.right)
    have hmem : ⟨life.register, l, target⟩ ∈ a.gapTransfers gap :=
      mem_gapTransfers.2 ⟨life, i, j, hcross, rfl, hsource, htarget⟩
    have htarget' : target ≠ l := fun heq => hne (heq ▸ htarget)
    obtain ⟨group, hgroup, rfl⟩ := hall gap
      (List.ne_nil_of_mem (Move.mem_moving.2 ⟨hmem, htarget'.symm⟩))
    exact ⟨group, hgroup, rfl,
      (Move.exists_read_iff (hmoves group hgroup).2 h.target_ne_scratch hl).2
        ⟨_, hmem, rfl, rfl, htarget'⟩⟩

/-- The moves of the edges behind a block read a register where it is in the exit gap, unless
it stays in place. -/
theorem exists_edge_read_iff (h : a.Arranged regClass)
    (hedges : resolveEdges a.order a.liveness a.scratch = .ok a.resolution.edges)
    (hspan : span ∈ a.order.spans) (hl : l ≠ a.scratch) :
    (∃ group ∈ a.resolution.edges, group.source = span.block ∧
        ∃ m ∈ group.moves, m.register = r ∧ m.source = l) ↔
      a.locateBefore? r (span.last + 1) = some l ∧ ∃ target ∈ a.order.spans,
        target.block ∈ a.order.graph.successors span.block ∧
          r ∈ a.liveness.liveInto target.block ∧ a.locate? r target.first ≠ some l := by
  -- what is read on an edge is what moves there
  have hread : ∀ {target : Span} {out : List Move},
      Move.sequence (a.edgeTransfers span target) a.scratch = .ok out →
      ((∃ m ∈ out, m.register = r ∧ m.source = l) ↔
        ∃ x ∈ a.edgeTransfers span target, x.register = r ∧ x.source = l ∧ x.target ≠ l) :=
    fun hout => Move.exists_read_iff hout (fun m hm => (h.place_of_edgeTransfer m hm).2) hl
  constructor
  · rintro ⟨group, hgroup, hsource, hm⟩
    obtain ⟨target, htarget, hedge, -, hmoves⟩ := h.of_mem_edges hedges hgroup hspan hsource
    obtain ⟨x, hx, rfl, rfl, hne⟩ := (hread hmoves).1 hm
    obtain ⟨hr, hbefore, hgoal⟩ := mem_edgeTransfers.1 hx
    refine ⟨hbefore, target, htarget, hedge, hr, fun heq => hne ?_⟩
    exact Option.some.inj (hgoal.symm.trans heq)
  · rintro ⟨hbefore, target, htarget, hedge, hr, hne⟩
    obtain ⟨goal, hgoal⟩ := h.exists_locate?_first htarget hr
    obtain ⟨m, hm, hregister, hsource⟩ :=
      (hread (h.sequence_edgeTransfers hedges hspan htarget hedge)).2
        ⟨⟨r, l, goal⟩, mem_edgeTransfers.2 ⟨hr, hbefore, hgoal⟩, rfl, rfl,
          fun heq => hne (heq ▸ hgoal)⟩
    obtain ⟨group, hgroup, hends, hm⟩ := mem_edgeMoves hm
    exact ⟨group, hgroup, hends, m, hm, hregister, hsource⟩

/-! ## Where a written register is -/

/-- A register that is live in a gap is, as the gap begins, where it is at the instruction
before, or else where it is in the gap. -/
theorem locateBefore?_eq (h : a.Arranged regClass) (hlife : life ∈ a.liveness.lives)
    (hi : i ∈ life.pieces) (hcovers : i.covers (p + 1) = true) :
    a.locateBefore? life.register (p + 1) =
      (a.locate? life.register p).or (a.locate? life.register (p + 1)) := by
  have hlaid := h.laid life hlife
  have hgap := hlaid.pieceAt?_eq_some.2 ⟨hi, hcovers⟩
  simp only [locateBefore?, locate?, h.life?_register hlife, Option.bind_some, hgap]
  by_cases hbegins : ∃ k ∈ life.pieces, k.covers p = true
  · obtain ⟨k, hk, hkp⟩ := hbegins
    obtain ⟨l, hl⟩ := h.exists_location (h.mem_of_piece hlife hk)
    rw [hlaid.pieceBefore?_of_covers hk (by simpa using hkp) hi hcovers,
      hlaid.pieceAt?_eq_some.2 ⟨hk, hkp⟩, Option.bind_some, hl, Option.some_or]
  · simp only [not_exists, not_and, Bool.not_eq_true] at hbegins
    have hnone : life.pieceAt? p = none := by
      rw [Lifetime.pieceAt?, List.find?_eq_none]
      exact fun k hk => by simp [hbegins k hk]
    rw [hlaid.pieceBefore?_of_begins hi hcovers (by simpa using hbegins), hnone, Option.bind_some,
      Option.bind_none, Option.none_or]

/-- A register that crosses behind an instruction leaves the place where it is at the
instruction, or the place where it is in the gap. -/
theorem locate?_of_crosses (h : a.Arranged regClass) (hcross : a.CrossesAt (p + 1) life i j) :
    a.locate? life.register p = i.location ∧ a.locate? life.register (p + 1) = j.location ∨
      a.locate? life.register (p + 1) = i.location := by
  have hshaped := (h.laid life hcross.mem).shaped
  have hlast := Interval.covers_last (hshaped i hcross.left)
  rw [hcross.stop] at hlast
  rcases hcross.start with hstart | hstart
  · have hj := Interval.covers_start (hshaped j hcross.right)
    rw [hstart] at hj hlast
    rw [Int.add_sub_cancel] at hlast
    obtain ⟨source, hsource, hbefore⟩ := h.locate?_of_covers hcross.mem hcross.left hlast
    obtain ⟨target, htarget, hgap⟩ := h.locate?_of_covers hcross.mem hcross.right hj
    exact .inl ⟨hbefore.trans hsource.symm, hgap.trans htarget.symm⟩
  · rw [hstart, Int.add_sub_cancel] at hlast
    obtain ⟨source, hsource, hgap⟩ := h.locate?_of_covers hcross.mem hcross.left hlast
    exact .inr (hgap.trans hsource.symm)

/-- Where a register is written that needs to be in a register there, it is where it was at
the instruction, if it was live at all. -/
theorem locate?_of_register (h : a.Arranged regClass) (hlife : life ∈ a.liveness.lives)
    (heven : p % stride = 0) (hi : i ∈ life.pieces) {u : UsePoint} (hu : u ∈ i.uses)
    (hposition : u.position = p + 1) (hpolicy : u.policy = .register) :
    a.locate? life.register p = none ∨
      a.locate? life.register p = a.locate? life.register (p + 1) := by
  have hlaid := h.laid life hlife
  have himem := h.mem_of_piece hlife hi
  have hcovers := (h.used i himem).covered u hu
  rw [hposition] at hcovers
  cases hlocate : a.locate? life.register p with
  | none => exact .inl rfl
  | some l =>
    -- the piece at the instruction, which a required use does not let change in the gap
    obtain ⟨other, hother, hregister, k, hk, hkp, hkl⟩ := h.locate?_eq_some.1 hlocate
    cases h.eq_of_register hother hlife hregister
    have hki : k = i := by
      refine Decidable.byContradiction fun hne => ?_
      obtain ⟨hstop, hstart⟩ := hlaid.meet_of_ne hk hi hne hkp hcovers
      obtain ⟨-, hmended⟩ := h.seam_of_meet hlife hk hi (by lia) (by lia)
      exact hmended.quiet u hu (by lia) hpolicy
    rw [h.locate?_eq_some.2 ⟨life, hlife, rfl, i, hi, hcovers, hki ▸ hkl⟩]
    exact .inr rfl

/-! ## Fresh definitions -/

section

variable (h : a.Arranged regClass)
  (hgaps : resolveGaps a.order a.liveness a.scratch = .ok a.resolution.gaps)
  (hspan : span ∈ a.order.spans) (hlife : life ∈ a.liveness.lives) (hi : i ∈ life.pieces)
  (hcovers : i.covers (p + 1) = true)

include h hgaps hspan hlife hi hcovers

/-- Within a block, a register that is written is fresh unless it was elsewhere before. -/
theorem fresh_iff_of_lt (heven : p % stride = 0) (hfirst : span.first ≤ p) (hlt : p < span.last) :
    a.Fresh p life.register ↔ a.locate? life.register p = none ∨
      a.locate? life.register p = a.locate? life.register (p + 1) := by
  have hlaid := h.laid life hlife
  constructor
  · rintro ⟨hfresh, -⟩
    cases hlocate : a.locate? life.register p with
    | none => exact .inl rfl
    | some l =>
      -- the value would cross the gap, and its move would read the place that it had before
      obtain ⟨other, hother, hregister, k, hk, hkp, hkl⟩ := h.locate?_eq_some.1 hlocate
      cases h.eq_of_register hother hlife hregister
      obtain ⟨target, htarget, hgap⟩ := h.locate?_of_covers hlife hi hcovers
      refine .inr (Decidable.byContradiction fun hne => ?_)
      have hki : k ≠ i := by
        rintro rfl
        exact hne (hkl ▸ htarget ▸ hgap.symm)
      obtain ⟨hstop, hstart⟩ := hlaid.meet_of_ne hk hi hki hkp hcovers
      have hinside : a.order.isBlockStart (p + 1 + 1) = false :=
        h.regular.isBlockStart_eq_false hspan (by lia) (by rw [Span.stop]; lia)
      have hcross := h.crossesAt_of_meet hlife hk hi (by lia) hstop hstart hinside
      have hscratch := h.ne_scratch (h.mem_of_piece hlife hk) hkl
      obtain ⟨group, hgroup, hposition, m, hm, hmr, rfl⟩ :=
        (h.exists_gap_read_iff hgaps hscratch).2 ⟨life, k, i, hcross, rfl, hkl, fun heq =>
          hne (hgap ▸ htarget ▸ heq.symm)⟩
      exact hne (hfresh group hgroup hposition m hm hmr hscratch).symm
  · intro hstays
    refine ⟨fun group hgroup hposition m hm hmr hscratch => ?_, fun other hother hlast => ?_⟩
    -- a move in the gap reads a value that crosses it
    · obtain ⟨other, k, j, hcross, hregister, hsource, hne⟩ :=
        (h.exists_gap_read_iff hgaps hscratch).1 ⟨group, hgroup, hposition, m, hm, hmr, rfl⟩
      cases h.eq_of_register hcross.mem hlife hregister
      rcases h.locate?_of_crosses hcross with ⟨hbefore, hgap⟩ | hgap
      · -- the register would leave the place in which it was at the instruction
        rw [hbefore, hgap, hsource] at hstays
        rcases hstays with hnone | heq
        · cases hnone
        · exact absurd heq.symm hne
      · exact hgap.trans hsource
    -- no edge leaves here, since the block goes on
    · cases h.regular.eq_of_last hother hspan (by lia) (by lia)
      lia

/-- At the end of a block, a register that is written is fresh unless it was elsewhere before
and has to leave that place on an edge. -/
theorem fresh_iff_of_last
    (hedges : resolveEdges a.order a.liveness a.scratch = .ok a.resolution.edges)
    (hlast : p = span.last) :
    a.Fresh p life.register ↔ a.locate? life.register p = none ∨
      a.locate? life.register p = a.locate? life.register (p + 1) ∨
      ∀ target ∈ a.order.spans, target.block ∈ a.order.graph.successors span.block →
        life.register ∈ a.liveness.liveInto target.block →
          a.locate? life.register target.first = a.locate? life.register p := by
  -- on the edges, a register is looked for at the instruction first
  have hbefore := h.locateBefore?_eq hlife hi hcovers
  constructor
  · rintro ⟨-, hfresh⟩
    cases hlocate : a.locate? life.register p with
    | none => exact .inl rfl
    | some l =>
      refine .inr (Decidable.or_iff_not_imp_left.2 fun hgap target htarget hedge hr => ?_)
      -- otherwise the value would move on that edge
      refine Decidable.byContradiction fun hne => hgap ?_
      obtain ⟨other, hother, -, k, hk, -, hkl⟩ := h.locate?_eq_some.1 hlocate
      have hscratch := h.ne_scratch (h.mem_of_piece hother hk) hkl
      rw [hlocate, Option.some_or, hlast] at hbefore
      obtain ⟨group, hgroup, hsource, m, hm, hmr, rfl⟩ :=
        (h.exists_edge_read_iff hedges hspan hscratch).2
          ⟨hbefore, target, htarget, hedge, hr, hne⟩
      exact (hfresh span hspan hlast group hgroup hsource m hm hmr hscratch).symm
  · intro hstays
    refine ⟨fun group hgroup hposition => ?_,
      fun other hother hother' group hgroup hsource m hm hmr hscratch => ?_⟩
    -- there is no group of moves at the end of a block
    · have hsound := (resolveGaps_ensures ..).of_eq_ok hgaps group hgroup
      exact absurd (hlast ▸ hposition) (hsound.position_ne h.regular hspan)
    · have hfirst := h.regular.first_le_last hspan
      cases h.regular.eq_of_last hother hspan (by lia) (by lia)
      obtain ⟨hread, target, htarget, hedge, hr, hne⟩ :=
        (h.exists_edge_read_iff hedges hspan hscratch).1 ⟨group, hgroup, hsource, m, hm, hmr, rfl⟩
      rw [← hlast, hbefore, Option.or_eq_some_iff] at hread
      rcases hread with hread | ⟨-, hread⟩
      · rw [hread] at hstays
        rcases hstays with hnone | heq | hall
        · cases hnone
        · exact heq.symm
        · exact absurd (hall target htarget hedge hr) hne
      · exact hread

/-- Behind an instruction, a register that is live there is fresh unless it was elsewhere
before and has to leave that place. -/
theorem fresh_iff_stays
    (hedges : resolveEdges a.order a.liveness a.scratch = .ok a.resolution.edges)
    (heven : p % stride = 0) (hfirst : span.first ≤ p) (hlast : p ≤ span.last) :
    a.Fresh p life.register ↔ a.locate? life.register p = none ∨
      a.locate? life.register p = a.locate? life.register (p + 1) ∨
      ∃ span ∈ a.order.spans, p = span.last ∧ ∀ target ∈ a.order.spans,
        target.block ∈ a.order.graph.successors span.block →
          life.register ∈ a.liveness.liveInto target.block →
            a.locate? life.register target.first = a.locate? life.register p := by
  have hspan' : ∀ other ∈ a.order.spans, p = other.last → other = span := fun other hother hp =>
    h.regular.eq_of_last hother hspan (by lia) (by lia)
  by_cases hp : p = span.last
  · rw [h.fresh_iff_of_last hgaps hspan hlife hi hcovers hedges hp]
    refine or_congr_right (or_congr_right ⟨fun hall => ⟨span, hspan, hp, hall⟩, ?_⟩)
    rintro ⟨other, hother, hp', hall⟩
    exact hspan' other hother hp' ▸ hall
  · rw [h.fresh_iff_of_lt hgaps hspan hlife hi hcovers heven hfirst (by lia)]
    refine or_congr_right ⟨.inl, fun hstays => hstays.resolve_right ?_⟩
    rintro ⟨other, hother, hp', -⟩
    exact hp (hspan' other hother hp' ▸ hp')

end

end Arranged

end Allocation

/-- The moves of a successful allocation are those between its pieces. -/
theorem Graph.resolution_of_allocate {g : Graph} {options : Options} {messages : Messages Issue}
    (h : g.allocate options = .ok (.success a messages)) :
    resolveGaps a.order a.liveness a.scratch = .ok a.resolution.gaps ∧
      resolveEdges a.order a.liveness a.scratch = .ok a.resolution.edges := by
  obtain ⟨order, -, _, hallocate⟩ := of_allocate h
  obtain ⟨liveness, swept, resolution, -, -, hresolve, -, rfl⟩ :=
    LinearOrder.of_allocate hallocate
  rw [resolve, bind_eq_ok] at hresolve
  obtain ⟨edges, hedges, hresolve⟩ := hresolve
  rw [bind_eq_ok] at hresolve
  obtain ⟨gaps, hgaps, ⟨⟩⟩ := hresolve
  exact ⟨hgaps, hedges⟩

/-- When moves read fresh definitions. Behind an instruction of a successful allocation, all
moves of a register that it writes read the register from where it was written, exactly when
the register was not live at the instruction, or was in the same place there, or, at the end of
a block, stays where it was on all edges. A definition that needs a register is always fresh. -/
theorem fresh_iff {g : Graph} (hg : g.Built) {options : Options} {messages : Messages Issue}
    (h : g.allocate options = .ok (.success a messages)) {instruction : Instruction}
    (hstands : a.order.Stands p instruction) {d : Def} (hd : d ∈ instruction.defs)
    (hclass : a.order.graph.inClass options.regClass d.register = true) :
    (a.Fresh p d.register ↔ a.locate? d.register p = none ∨
      a.locate? d.register p = a.locate? d.register (p + 1) ∨
      ∃ span ∈ a.order.spans, p = span.last ∧ ∀ target ∈ a.order.spans,
        target.block ∈ a.order.graph.successors span.block →
          d.register ∈ a.liveness.liveInto target.block →
            a.locate? d.register target.first = a.locate? d.register p) ∧
    (d.policy = .register → a.Fresh p d.register) := by
  have harranged := Graph.arranged_of_allocate hg h
  obtain ⟨hgaps, hedges⟩ := Graph.resolution_of_allocate h
  have heven := hstands.even harranged.regular
  obtain ⟨life, hlife, hregister, i, hi, hu, hcovers⟩ :=
    harranged.exists_used hstands hclass (.inl ⟨d, hd, rfl, rfl⟩)
  obtain ⟨span, hspan, n, hn, hp⟩ := hstands
  obtain ⟨hfirst, hstop⟩ := LinearOrder.stands_within harranged.regular hspan hn
  rw [← hp, Span.stop] at hstop
  rw [← hp] at hfirst
  have hiff := harranged.fresh_iff_stays hgaps hspan hlife hi hcovers hedges heven hfirst (by lia)
  rw [← hregister]
  refine ⟨hiff, fun hpolicy => hiff.2 ?_⟩
  exact (harranged.locate?_of_register hlife heven hi hu rfl hpolicy).imp_right .inl

theorem fresh_iff_swapping : swapping.Built ∧ ∃ a messages instruction,
    swapping.allocate { registers := ["r0", "r1"] } = .ok (.success a messages) ∧
      a.order.Stands 8 instruction ∧ ⟨0, .register⟩ ∈ instruction.defs ∧
      a.order.graph.inClass none 0 = true ∧
      a.resolution.edges.map (·.moves) = [[⟨0, .register "r0", .slot 0⟩],
        [⟨1, .register "r0", .slot 2⟩, ⟨0, .register "r1", .register "r0"⟩,
          ⟨1, .slot 2, .register "r1"⟩]] ∧
      a.Fresh 8 0 := by
  have hbuilt : swapping.Built := ⟨_, rfl⟩
  have hallocate : ∃ a messages instruction,
      swapping.allocate { registers := ["r0", "r1"] } = .ok (.success a messages) ∧
        a.order.Stands 8 instruction ∧ ⟨0, .register⟩ ∈ instruction.defs ∧
        a.order.graph.inClass none 0 = true ∧
        a.resolution.edges.map (·.moves) = [[⟨0, .register "r0", .slot 0⟩],
          [⟨1, .register "r0", .slot 2⟩, ⟨0, .register "r1", .register "r0"⟩,
            ⟨1, .slot 2, .register "r1"⟩]] :=
    ⟨_, _, _, rfl, ⟨_, .tail _ (.tail _ (.head _)), 2, rfl, rfl⟩, .head _, rfl, rfl⟩
  obtain ⟨a, messages, instruction, h, hstands, hd, hclass, hmoves⟩ := hallocate
  exact ⟨hbuilt, a, messages, instruction, h, hstands, hd, hclass, hmoves,
    (fresh_iff hbuilt h hstands hd hclass).2 rfl⟩

/-- A value that is read from memory and written to a register by one instruction. -/
def rewritten : Graph := Graph.run {} [
  .createRegister {}, .createRegister {}, .addBlock,
  .addInstruction (0 : Nat)
    { opcode := "a"
      defs := [{ register := (0 : Nat) }, { register := (1 : Nat), policy := .any }] },
  .addInstruction (0 : Nat)
    { opcode := "b"
      uses := [{ register := (1 : Nat), policy := .any }]
      defs := [{ register := (1 : Nat), policy := .any }] },
  .addInstruction (0 : Nat) { opcode := "c", uses := [{ register := (1 : Nat) }] }]

/-- The move behind the instruction replaces the value that was written by the old one. -/
theorem not_fresh_rewritten : rewritten.Built ∧ ∃ a messages instruction,
    rewritten.allocate { registers := ["r0"], verify := true } = .ok (.success a messages) ∧
      a.order.Stands 2 instruction ∧ ⟨1, .any⟩ ∈ instruction.defs ∧ ¬ a.Fresh 2 1 := by
  have hallocate : ∃ a messages instruction,
      rewritten.allocate { registers := ["r0"], verify := true } = .ok (.success a messages) ∧
        a.order.Stands 2 instruction ∧ ⟨1, .any⟩ ∈ instruction.defs ∧
        a.resolution.gaps = [⟨3, 0, [⟨1, .slot 0, .register "r0"⟩]⟩] ∧
        a.scratch = .slot 1 ∧ a.locate? 1 3 = some (.register "r0") :=
    ⟨_, _, _, rfl, ⟨_, .head _, 1, rfl, rfl⟩, .head _, rfl, rfl, rfl⟩
  obtain ⟨a, messages, instruction, h, hstands, hd, hgaps, hscratch, hlocate⟩ := hallocate
  refine ⟨⟨_, rfl⟩, a, messages, instruction, h, hstands, hd, fun hfresh => ?_⟩
  have hread := hfresh.1 ⟨3, 0, [⟨1, .slot 0, .register "r0"⟩]⟩ (by simp [hgaps]) rfl
    ⟨1, .slot 0, .register "r0"⟩ (by simp) rfl (by simp [hscratch])
  cases hlocate.symm.trans hread

end RegAlloc
