import RegAlloc.Proofs.Liveness.Paths
import RegAlloc.Proofs.Sweep.Seams

/-!
# How values flow through a program

A life that begins in a gap begins with a write there, and goes on from there as long as
it is needed: a value that is alive at an instruction was alive in the gap before it, and
one that is alive as a block begins was alive in the exit gaps of the blocks before it.

- `LinearOrder.Stands.unique` — one instruction a position;
- `LinearOrder.writes_of_begins` — a life begins with a write, or at an instruction;
- `LinearOrder.timed_root` — lifetimes as a sweep with mended seams needs them;
- `LinearOrder.covers_gap`, `covers_exit` — back along the code and back along an edge.
-/

namespace RegAlloc

/-- Definitions that need a register. -/
def Graph.DefsInRegisters (g : Graph) : Prop :=
  ∀ b, ∀ i ∈ g.instructions b, ∀ d ∈ i.defs, d.policy = .register

namespace LinearOrder

variable {order : LinearOrder} {r : VReg} {p q : Position} {i j : Instruction} {span : Span}

/-! ## Instructions and positions -/

/-- The position of an instruction lies in the stretch of its block. -/
theorem stands_within (h : order.Regular) (hspan : span ∈ order.spans) {k : Nat}
    (hk : (order.graph.instructions span.block)[k]? = some i) :
    span.first ≤ span.first + stride * k ∧ span.first + stride * k + 1 < span.stop := by
  obtain ⟨hlt, -⟩ := List.getElem?_eq_some_iff.1 hk
  have := h.stop span hspan
  lia

/-- At most one instruction stands at a position. -/
theorem Stands.unique (h : order.Regular) (hi : order.Stands p i) (hj : order.Stands p j) :
    i = j := by
  obtain ⟨s, hs, k, hk, rfl⟩ := hi
  obtain ⟨t, ht, l, hl, heq⟩ := hj
  have hsp := stands_within h hs hk
  have htp := stands_within h ht hl
  cases h.span_at_unique hs ht ⟨hsp.1, by lia⟩ ⟨by lia, by lia⟩
  have hkl : k = l := by lia
  subst hkl
  exact Option.some.inj (hk.symm.trans hl)

theorem Stands.even (h : order.Regular) (hi : order.Stands p i) : p % stride = 0 := by
  obtain ⟨s, hs, k, -, rfl⟩ := hi
  have := h.even_first s hs
  lia

/-! ## Where a life begins -/

/-- A life that begins in a gap is written by the instruction before. -/
theorem writes_of_begins (h : order.Regular) (hq : q % stride = 1)
    (hcovers : Ranges.covers (order.scan r).track.ranges q = true)
    (hbegins : Ranges.covers (order.scan r).track.ranges (q - 1) = false) :
    ∃ i, order.Stands (q - 1) i ∧ i.writes r = true := by
  rw [Bool.eq_false_iff, ne_eq, covers_scan h] at hbegins
  obtain ⟨span, hspan, hblock | ⟨hneeded, stop, hstop, hfirst, hlt⟩⟩ :=
    (covers_scan h r q).1 hcovers
  -- alive inside of the block: the gap behind an instruction
  · have heven := h.even_first span hspan
    rcases hblock with hcode | ⟨hempty, hout, hfirst, hlt⟩
    · obtain ⟨k, i, hk, ⟨rfl, -⟩ | ⟨rfl, hlive⟩⟩ := codeLive_iff.1 hcode
      · lia
      · refine ⟨i, ⟨span, hspan, k, hk, by lia⟩, ?_⟩
        cases hwrites : i.writes r with
        | true => rfl
        | false =>
          -- otherwise it is needed behind the instruction, and so before it
          rw [hwrites, Bool.false_or] at hlive
          refine absurd ⟨span, hspan, .inl (.inl (codeLive_iff.2 ⟨k, i, hk, .inl ⟨by lia, ?_⟩⟩))⟩
            hbegins
          obtain ⟨hlt, rfl⟩ := List.getElem?_eq_some_iff.1 hk
          rw [List.drop_eq_getElem_cons hlt, liveBefore, hwrites, hlive]
          simp
    · exact absurd ⟨span, hspan, .inl (.inr ⟨hempty, hout, by lia, by lia⟩)⟩ hbegins
  -- a loop begins with its header, at an even position
  · have heven := h.even_first span hspan
    exact absurd ⟨span, hspan, .inr ⟨hneeded, stop, hstop, by lia, by lia⟩⟩ hbegins

/-- A write in a gap is recorded as a use. -/
theorem writtenAt_of_begins (h : order.Regular) {root : Interval}
    (huses : root.uses = (order.scan r).track.uses)
    (hranges : root.ranges = (order.scan r).track.ranges) (hq : q % stride = 1)
    (hcovers : root.covers q = true) (hbegins : root.covers (q - 1) = false) :
    root.WrittenAt q := by
  rw [Interval.covers, hranges] at hcovers hbegins
  obtain ⟨i, hi, hwrites⟩ := writes_of_begins h hq hcovers hbegins
  simp only [Instruction.writes, List.any_eq_true, beq_iff_eq] at hwrites
  obtain ⟨d, hd, hdr⟩ := hwrites
  refine ⟨⟨q, d.policy, .write⟩, ?_, rfl, rfl⟩
  rw [huses, mem_uses_scan]
  exact ⟨q - 1, i, hi, .inl ⟨d, hd, hdr, by simp⟩⟩

/-- Lifetimes are read at instructions and written in gaps, and those that begin in a gap are
written there. -/
theorem timed_root (h : order.Regular) {regClass : Option String} {life : Lifetime}
    (hlife : life ∈ livesOf (order.scans regClass)) :
    life.root.Timed order ∧ life.root.Urgent := by
  obtain ⟨-, -, id, hroot⟩ := mem_livesOf hlife
  have huses : life.root.uses = (order.scan life.register).track.uses := by rw [hroot]
  have hranges : life.root.ranges = (order.scan life.register).track.ranges := by rw [hroot]
  have hshaped : life.root.Shaped :=
    (rooted_lives h).shaped life.root (List.mem_map_of_mem hlife)
  have htimed : life.root.Timed order := by
    refine ⟨fun u hu hread => ?_, fun u hu => ?_, fun q hq _ hcovers hbegins =>
      writtenAt_of_begins h huses hranges hq hcovers hbegins⟩
    -- a read is at its instruction, and a write right behind it
    · obtain ⟨p, i, hi, hused⟩ := (mem_uses_scan ..).1 (huses ▸ hu)
      rcases hused with ⟨d, -, -, rfl⟩ | ⟨use, -, -, rfl⟩
      · cases hread
      · exact ⟨i, hi⟩
    · obtain ⟨p, i, hi, hused⟩ := (mem_uses_scan ..).1 (huses ▸ hu)
      have heven := hi.even h
      rcases hused with ⟨d, -, -, rfl⟩ | ⟨use, -, -, rfl⟩
      · refine ⟨fun _ => ?_, fun _ => rfl⟩
        dsimp only
        lia
      · refine ⟨fun hwrite => (nomatch hwrite), fun hodd => ?_⟩
        dsimp only at hodd
        lia
  refine ⟨htimed, fun hodd => ?_⟩
  -- nothing is covered before the start, so a start in a gap is a write
  have hbegins : life.root.covers (life.root.start - 1) = false :=
    Interval.not_covers_of_lt_start hshaped (by lia)
  exact .inl (writtenAt_of_begins h huses hranges hodd (Interval.covers_start hshaped) hbegins)

/-! ## Back along the code and along an edge -/

/-- A value that is alive at an instruction is alive in the gap before it, if that is in
the same block. -/
theorem covers_gap (h : order.Regular) (hspan : span ∈ order.spans) {k : Nat}
    (hk : (order.graph.instructions span.block)[k + 1]? = some i)
    (hcovers : Ranges.covers (order.scan r).track.ranges (span.first + stride * (k + 1)) = true) :
    Ranges.covers (order.scan r).track.ranges (span.first + stride * k + 1) = true := by
  have hwithin := stands_within h hspan hk
  obtain ⟨hlt, -⟩ := List.getElem?_eq_some_iff.1 hk
  rw [covers_scan h] at hcovers ⊢
  obtain ⟨s, hs, hblock | ⟨hneeded, stop, hstop, hfirst, hlt'⟩⟩ := hcovers
  -- needed at the next instruction, so needed in the gap before it
  · have hsame := h.span_at_unique hs hspan
      ⟨first_le_of_blockLive hblock, lt_stop_of_blockLive h hs hblock⟩ ⟨by lia, by lia⟩
    subst hsame
    refine ⟨s, hs, .inl (.inl (codeLive_iff.2 ⟨k, _, List.getElem?_eq_getElem (by lia),
      .inr ⟨by lia, ?_⟩⟩))⟩
    rcases hblock with hcode | ⟨hempty, -⟩
    · obtain ⟨l, j, -, ⟨heq, hlive⟩ | ⟨heq, -⟩⟩ := codeLive_iff.1 hcode
      · have hl : l = k + 1 := by lia
        rw [← hl, hlive, Bool.or_true]
      · lia
    · simp [hempty] at hlt
  · -- the header of the loop does not start inside of this block
    refine ⟨s, hs, .inr ⟨hneeded, stop, hstop, ?_, by lia⟩⟩
    have hne : s.first ≠ span.first + stride * (k + 1) := by
      intro heq
      have hlt := h.contiguous.first_lt_stop s hs
      have hsame := h.span_at_unique hs hspan ⟨Int.le_refl _, hlt⟩ ⟨by lia, by lia⟩
      subst hsame
      lia
    lia

/-- A value that is needed after a block is alive in its exit gap. -/
theorem blockLive_exit (h : order.Regular) (hspan : span ∈ order.spans) :
    order.BlockLive r true span (span.last + 1) := by
  have hlt := h.contiguous.first_lt_stop span hspan
  have hstop := h.stop span hspan
  rw [Span.stop] at hlt hstop
  by_cases hempty : order.graph.instructions span.block = []
  · exact .inr ⟨hempty, rfl, by simp [hempty] at hstop; lia, by rw [Span.stop]; lia⟩
  · have hpos := List.length_pos_iff.2 hempty
    refine .inl (codeLive_iff.2 ⟨(order.graph.instructions span.block).length - 1, _,
      List.getElem?_eq_getElem (by lia), .inr ⟨by lia, ?_⟩⟩)
    rw [List.drop_eq_nil_of_le (by lia), liveBefore, Bool.or_true]

/-- Without loops, a value that is alive as a block begins is alive in the exit gap of
every block before it. -/
theorem covers_exit (h : order.Regular) (hloops : order.loopEdges = []) {s t : Span}
    (hs : s ∈ order.spans) (ht : t ∈ order.spans) (hedge : order.graph.HasEdge s.block t.block)
    (hcovers : Ranges.covers (order.scan r).track.ranges t.first = true) :
    Ranges.covers (order.scan r).track.ranges (s.last + 1) = true := by
  have hneeded : order.needed r t.block = true := by
    rcases (covers_first_iff h ht).1 hcovers with hneeded | ⟨b, hb, -⟩
    · exact (needed_iff h t ht).2 hneeded
    · simp [headers, hloops] at hb
  have hafter : order.neededAfter r s.block = true := by
    rw [neededAfter, Scan.neededAfter, List.any_eq_true]
    exact ⟨t.block, hedge, by simpa [isLoopEdge, hloops, needed] using hneeded⟩
  rw [covers_scan h]
  exact ⟨s, hs, .inl (hafter ▸ blockLive_exit h hs)⟩

end LinearOrder

end RegAlloc
