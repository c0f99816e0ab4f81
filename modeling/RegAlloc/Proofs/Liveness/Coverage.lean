import RegAlloc.Proofs.Liveness.Track
import RegAlloc.Proofs.Order.Regular

/-!
# Where a scan finds a register alive

The scan of a register covers exactly the positions at which one of two things holds: the
block there keeps the value alive, judged by the code behind that position and by what
the block's successors along edges that close no loop need; or the position lies in the
stretch of a loop whose header needs the value.

- `LinearOrder.needed`, `neededAfter` — what a block needs as it begins and as it ends;
- `needed_eq` — the one in terms of the other;
- `LinearOrder.BlockLive`, `LoopLive` — the two reasons to be alive;
- `covers_scan` — the positions that a scan covers;
- `ordered_scan`, `sorted_scan`, `mem_uses_scan` — the shape of what a scan finds.
-/

namespace RegAlloc

namespace LinearOrder

variable {order : LinearOrder} {r : VReg}

/-- Whether a value is needed as a block begins, loop edges aside. -/
def needed (order : LinearOrder) (r : VReg) (b : BlockId) : Bool := (order.scan r).neededAt b

/-- Whether a value is needed as a block ends, loop edges aside. -/
def neededAfter (order : LinearOrder) (r : VReg) (b : BlockId) : Bool :=
  (order.scan r).neededAfter order b

/-- The positions at which a block keeps a value alive that is needed after it if `out`. -/
def BlockLive (order : LinearOrder) (r : VReg) (out : Bool) (span : Span) (q : Position) : Prop :=
  CodeLive r out span.first (order.graph.instructions span.block) q ∨
    (order.graph.instructions span.block = [] ∧ out = true ∧ span.first ≤ q ∧ q < span.stop)

/-- The positions at which the loop of a header keeps a value alive. -/
def LoopLive (order : LinearOrder) (needed : Bool) (span : Span) (q : Position) : Prop :=
  needed = true ∧ ∃ stop, order.latchEnd? span.block = some stop ∧ span.first ≤ q ∧ q < stop

/-! ## Loops end behind their headers -/

/-- A loop ends with the last of the blocks that return to its header. -/
theorem latchEnd?_eq_some (h : order.Regular) {b : BlockId} {stop : Position} :
    order.latchEnd? b = some stop ↔
      (∃ s ∈ order.spans, order.isLoopEdge s.block b = true ∧ s.stop = stop) ∧
        ∀ s ∈ order.spans, order.isLoopEdge s.block b = true → s.stop ≤ stop := by
  -- the latches are the spans that a loop edge leads from
  have hmem : ∀ x, x ∈ ((order.loopEdges.filter (·.target == b)).filterMap fun edge =>
      (order.span? edge.source).map (·.last + stride)) ↔
      ∃ s ∈ order.spans, order.isLoopEdge s.block b = true ∧ s.stop = x := by
    intro x
    simp only [List.mem_filterMap, List.mem_filter, beq_iff_eq, Option.map_eq_some_iff, isLoopEdge,
      decide_eq_true_eq, Span.stop, h.span?_eq_some]
    constructor
    · rintro ⟨e, ⟨he, rfl⟩, s, ⟨hs, hblock⟩, hx⟩
      exact ⟨s, hs, hblock ▸ he, hx⟩
    · rintro ⟨s, hs, he, hx⟩
      exact ⟨⟨s.block, b⟩, ⟨he, rfl⟩, s, ⟨hs, rfl⟩, hx⟩
  rw [latchEnd?, List.max?_eq_some_iff]
  simp only [hmem]
  refine and_congr Iff.rfl ⟨fun hall s hs hloop => hall _ ⟨s, hs, hloop, rfl⟩, ?_⟩
  rintro hall _ ⟨s, hs, hloop, rfl⟩
  exact hall s hs hloop

theorem first_lt_latchEnd (h : order.Regular) {span : Span} (hspan : span ∈ order.spans)
    {stop : Position} (hstop : order.latchEnd? span.block = some stop) : span.first < stop := by
  obtain ⟨⟨s, hs, hloop, rfl⟩, -⟩ := (latchEnd?_eq_some h).1 hstop
  have := h.back s hs span hspan hloop
  have := h.contiguous.first_lt_stop s hs
  lia

/-! ## One block -/

theorem first_le_of_blockLive {out : Bool} {span : Span} {q : Position}
    (h : order.BlockLive r out span q) : span.first ≤ q := by
  rcases h with h | ⟨-, -, h, -⟩
  · obtain ⟨k, i, -, hk⟩ := codeLive_iff.1 h
    lia
  · exact h

theorem lt_stop_of_blockLive (h : order.Regular) {out : Bool} {span : Span}
    (hspan : span ∈ order.spans) {q : Position} (hq : order.BlockLive r out span q) :
    q < span.stop := by
  rcases hq with hq | ⟨-, -, -, hq⟩
  · obtain ⟨k, i, hk, hq⟩ := codeLive_iff.1 hq
    obtain ⟨hlt, -⟩ := List.getElem?_eq_some_iff.1 hk
    have := h.stop span hspan
    lia
  · exact hq

/-- A block keeps a value alive at its start exactly when it needs it. -/
theorem blockLive_first (h : order.Regular) {out : Bool} {span : Span}
    (hspan : span ∈ order.spans) : order.BlockLive r out span span.first ↔
      liveBefore r out (order.graph.instructions span.block) = true := by
  have hlt := h.contiguous.first_lt_stop span hspan
  rw [BlockLive, codeLive_iff]
  cases hcode : order.graph.instructions span.block with
  | nil => simp [liveBefore, hlt]
  | cons i rest =>
    constructor
    · rintro (⟨k, j, -, ⟨hk, hlive⟩ | ⟨hk, -⟩⟩ | ⟨hnil, -⟩)
      · have hzero : k = 0 := by lia
        subst hzero
        exact hlive
      · lia
      · cases hnil
    · intro hlive
      exact .inl ⟨0, i, rfl, .inl ⟨by simp, hlive⟩⟩

/-- A block that does not write a value needed behind it keeps it alive throughout. -/
theorem blockLive_of_passes (h : order.Regular) {span : Span} (hspan : span ∈ order.spans)
    (hpasses : ∀ i ∈ order.graph.instructions span.block, i.writes r = false) {q : Position}
    (hq : span.first ≤ q ∧ q < span.stop) : order.BlockLive r true span q := by
  -- what is needed behind code that does not write it is needed before
  have hlive : ∀ c : List Instruction, (∀ i ∈ c, i.writes r = false) →
      liveBefore r true c = true := by
    intro c hc
    induction c with
    | nil => rfl
    | cons i rest ih =>
      rw [List.forall_mem_cons] at hc
      simp [liveBefore, hc.1, ih hc.2]
  by_cases hcode : order.graph.instructions span.block = []
  · exact .inr ⟨hcode, rfl, hq⟩
  · have hpos : 0 < (order.graph.instructions span.block).length := List.length_pos_iff.2 hcode
    have hstop := h.stop span hspan
    -- the instruction at `q`, or the one before the gap `q`
    have hk : ((q - span.first) / stride).toNat < (order.graph.instructions span.block).length := by
      lia
    refine .inl (codeLive_iff.2 ⟨((q - span.first) / stride).toNat, _,
      List.getElem?_eq_getElem hk, ?_⟩)
    have hparity : (q - span.first) % stride = 0 ∨ (q - span.first) % stride = 1 := by lia
    rcases hparity with heven | hodd
    · exact .inl ⟨by lia, hlive _ fun i hi => hpasses i (List.mem_of_mem_drop hi)⟩
    · refine .inr ⟨by lia, ?_⟩
      rw [hlive _ fun i hi => hpasses i (List.mem_of_mem_drop hi), Bool.or_true]

/-- Following the code of a block adds what the block keeps alive. -/
theorem code_block_spec (h : order.Regular) {span : Span} (hspan : span ∈ order.spans) {t : Track}
    (hordered : Ranges.Ordered t.ranges)
    (habove : ∀ q, Ranges.covers t.ranges q = true → span.stop ≤ q) :
    let opened := if t.live then t.extend span.first span.stop else t
    let followed := opened.code r span.first span.first (order.graph.instructions span.block)
    Ranges.Ordered followed.ranges ∧
      followed.live = liveBefore r t.live (order.graph.instructions span.block) ∧
      ∀ q, Ranges.covers followed.ranges q = true ↔
        order.BlockLive r t.live span q ∨ Ranges.covers t.ranges q = true := by
  intro opened followed
  have hlt := h.contiguous.first_lt_stop span hspan
  have hlive : opened.live = t.live := Track.live_extend_if ..
  -- the whole block is covered to begin with, if the value is needed behind it
  have hcovers : ∀ q, Ranges.covers opened.ranges q = true ↔
      (t.live = true ∧ span.first ≤ q ∧ q < span.stop) ∨ Ranges.covers t.ranges q = true := by
    intro q
    simp only [opened]
    split
    · next hout => simp [hout, Track.extend, Ranges.covers_add, -Ranges.covers_iff]
    · next hout => simp [hout]
  have hreached : Track.Reached span.first span.stop opened := by
    refine ⟨?_, fun q hq => ?_⟩
    · simp only [opened]
      split
      · exact Ranges.ordered_add hlt hordered
      · exact hordered
    · rw [hcovers, hlive]
      have := habove q
      grind
  have hstop := h.stop span hspan
  by_cases hcode : order.graph.instructions span.block = []
  · simp only [followed, hcode, Track.code, liveBefore]
    refine ⟨hreached.ordered, hlive, fun q => ?_⟩
    rw [hcovers]
    simp [BlockLive, hcode, CodeLive]
  · have hpos : 0 < (order.graph.instructions span.block).length := List.length_pos_iff.2 hcode
    have hstop' : span.stop =
        span.first + stride * (order.graph.instructions span.block).length := by
      rw [hstop]
      lia
    obtain ⟨hfollowed, hcovers'⟩ :=
      Track.code_spec (r := r) _ (hstop' ▸ hreached) (Int.le_refl span.first)
    rw [hlive] at hcovers'
    refine ⟨hfollowed.ordered, by rw [← hlive]; exact Track.live_code .., fun q => ?_⟩
    -- the instructions change nothing outside of their block
    rcases Int.lt_or_le q span.first with hq | hq
    · -- below the block nothing is covered
      have hnone := hfollowed.below q hq
      have hblock : ¬ order.BlockLive r t.live span q := fun hq' => by
        have := first_le_of_blockLive hq'
        lia
      have := habove q
      grind
    · rw [hcovers' q hq, hcovers, ← hstop']
      simp only [BlockLive, hcode, false_and, or_false]
      have := habove q
      grind

/-- Following a block adds what the block keeps alive, and the loop if it is a header. -/
theorem block_spec (h : order.Regular) {span : Span} (hspan : span ∈ order.spans) {t : Track}
    (hordered : Ranges.Ordered t.ranges)
    (habove : ∀ q, Ranges.covers t.ranges q = true → span.stop ≤ q) (out : Bool) :
    Ranges.Ordered (t.block order r span out).ranges ∧
      ∀ q, Ranges.covers (t.block order r span out).ranges q = true ↔
        order.BlockLive r out span q ∨
        order.LoopLive (liveBefore r out (order.graph.instructions span.block)) span q ∨
        Ranges.covers t.ranges q = true := by
  obtain ⟨hfollowed, hlive, hcovers⟩ :=
    code_block_spec (r := r) (t := { t with live := out }) h hspan hordered habove
  rw [Track.block]
  dsimp only [Span.stop] at hfollowed hlive hcovers ⊢
  generalize Track.code r span.first span.first (order.graph.instructions span.block) _ = followed
    at hfollowed hlive hcovers ⊢
  -- the loop that the block is the header of, if there is one
  cases hlatch : order.latchEnd? span.block with
  | none =>
    refine ⟨hfollowed, fun q => ?_⟩
    rw [hcovers]
    simp [LoopLive, hlatch]
  | some stop =>
    have hlt := first_lt_latchEnd h hspan hlatch
    dsimp only
    rw [hlive]
    split
    · next hneeded =>
      refine ⟨Ranges.ordered_add hlt hfollowed, fun q => ?_⟩
      simp only [Track.extend, Ranges.covers_add, Range.covers_iff, hcovers, LoopLive, hneeded,
        hlatch, Option.some.injEq, exists_eq_left', true_and]
      exact or_left_comm
    · next hneeded =>
      refine ⟨hfollowed, fun q => ?_⟩
      rw [hcovers]
      simp [LoopLive, hneeded]

/-! ## The whole order -/

theorem neededAt_scanSpans {b : BlockId} : ∀ {earlier later : List Span},
    b ∉ earlier.map (·.block) →
    (order.scanSpans r (earlier ++ later)).neededAt b = (order.scanSpans r later).neededAt b
  | [], _, _ => rfl
  | span :: earlier, later, hb => by
    rw [List.map_cons, List.mem_cons, not_or] at hb
    have hne : (b == span.block) = false := by simpa using hb.1
    have hrest : (order.scanSpans r (earlier ++ later)).neededAt b =
        (order.scanSpans r later).neededAt b := neededAt_scanSpans hb.2
    rw [← hrest]
    simp only [List.cons_append, Scan.neededAt, scanSpans, List.lookup_cons, hne]

/-- What a block needs after it is known from the blocks behind it. -/
theorem neededAfter_scanSpans (h : order.Regular) {earlier later : List Span} {span : Span}
    (hspans : order.spans = earlier ++ span :: later) :
    (order.scanSpans r later).neededAfter order span.block = order.neededAfter r span.block := by
  rw [neededAfter, Scan.neededAfter, Scan.neededAfter, Bool.eq_iff_iff, List.any_eq_true,
    List.any_eq_true]
  refine exists_congr fun s => and_congr_right fun hs => ?_
  cases hloop : order.isLoopEdge span.block s with
  | true => simp
  | false =>
    have happend : order.spans = (earlier ++ [span]) ++ later := by simp [hspans]
    obtain ⟨t, ht, rfl⟩ := h.exists_span_target hs
    have hlater := h.mem_later hspans ht (h.forward span (by simp [hspans]) t ht hs hloop)
    have hnot : t.block ∉ (earlier ++ [span]).map (·.block) := by
      have hnodup := h.nodup
      rw [happend, List.map_append, List.nodup_append] at hnodup
      exact fun hmem => hnodup.2.2 _ hmem _ (List.mem_map_of_mem hlater) rfl
    rw [scan, happend, neededAt_scanSpans hnot]

/-- What a scan of the last blocks finds. -/
theorem scanSpans_spec (h : order.Regular) : ∀ {later earlier : List Span},
    order.spans = earlier ++ later →
    Ranges.Ordered (order.scanSpans r later).track.ranges ∧
      ∀ q, Ranges.covers (order.scanSpans r later).track.ranges q = true ↔
        ∃ span ∈ later, order.BlockLive r (order.neededAfter r span.block) span q ∨
          order.LoopLive (liveBefore r (order.neededAfter r span.block)
            (order.graph.instructions span.block)) span q
  | [], _, _ => ⟨Ranges.ordered_nil, by simp [scanSpans]⟩
  | span :: later, earlier, hspans => by
    have hspan : span ∈ order.spans := by simp [hspans]
    have happend : order.spans = (earlier ++ [span]) ++ later := by simp [hspans]
    obtain ⟨hordered, hcovers⟩ := scanSpans_spec h happend
    -- the spans come one after the other, so what was covered before is behind this block
    have hbehind : ∀ s ∈ later, span.stop ≤ s.first := by
      have hpairwise := h.contiguous.pairwise
      rw [hspans] at hpairwise
      exact (List.pairwise_cons.1 (List.pairwise_append.1 hpairwise).2.1).1
    have habove : ∀ q, Ranges.covers (order.scanSpans r later).track.ranges q = true →
        span.stop ≤ q := by
      intro q hq
      obtain ⟨s, hs, hblock | ⟨-, _, -, hfirst, -⟩⟩ := (hcovers q).1 hq
      · exact Int.le_trans (hbehind s hs) (first_le_of_blockLive hblock)
      · exact Int.le_trans (hbehind s hs) hfirst
    obtain ⟨hordered', hcovers'⟩ := block_spec (r := r) h hspan hordered habove
      ((order.scanSpans r later).neededAfter order span.block)
    rw [neededAfter_scanSpans h hspans] at hordered' hcovers'
    rw [scanSpans, neededAfter_scanSpans h hspans]
    refine ⟨hordered', fun q => ?_⟩
    rw [hcovers', hcovers]
    simp only [List.mem_cons, exists_eq_or_imp, or_assoc]

/-- What a block needs as it begins follows from its code and from what it needs after it. -/
theorem needed_eq (h : order.Regular) {span : Span} (hspan : span ∈ order.spans) :
    order.needed r span.block = liveBefore r (order.neededAfter r span.block)
      (order.graph.instructions span.block) := by
  obtain ⟨earlier, later, hspans⟩ := List.append_of_mem hspan
  have hnot : span.block ∉ earlier.map (·.block) := by
    have hnodup := h.nodup
    rw [hspans, List.map_append, List.nodup_append] at hnodup
    exact fun hmem => hnodup.2.2 _ hmem _ (by simp) rfl
  rw [needed, scan, hspans, neededAt_scanSpans hnot, Scan.neededAt, scanSpans,
    neededAfter_scanSpans h hspans]
  simp [Track.live_block]

/-- The ranges that a scan finds are in order and apart. -/
theorem ordered_scan (h : order.Regular) (r : VReg) :
    Ranges.Ordered (order.scan r).track.ranges :=
  (scanSpans_spec h (List.nil_append _).symm).1

/-- A scan covers what the blocks and the loops keep alive. -/
theorem covers_scan (h : order.Regular) (r : VReg) (q : Position) :
    Ranges.covers (order.scan r).track.ranges q = true ↔
      ∃ span ∈ order.spans, order.BlockLive r (order.neededAfter r span.block) span q ∨
        order.LoopLive (order.needed r span.block) span q := by
  rw [scan, (scanSpans_spec h (List.nil_append _).symm).2 q]
  refine exists_congr fun span => and_congr_right fun hspan => ?_
  rw [needed_eq h hspan]

/-- A scan covers positions of blocks only. -/
theorem exists_span_of_covers (h : order.Regular) {q : Position}
    (hcovers : Ranges.covers (order.scan r).track.ranges q = true) :
    ∃ span ∈ order.spans, span.first ≤ q ∧ q < span.stop := by
  obtain ⟨span, hspan, hlive | ⟨-, stop, hstop, hle, hlt⟩⟩ := (covers_scan h r q).1 hcovers
  · exact ⟨span, hspan, first_le_of_blockLive hlive, lt_stop_of_blockLive h hspan hlive⟩
  · obtain ⟨⟨s, hs, -, rfl⟩, -⟩ := (latchEnd?_eq_some h).1 hstop
    have := h.contiguous.le_first span hspan
    exact h.contiguous.exists_at (by lia) ⟨s, hs, hlt⟩

/-! ## Uses -/

/-- An instruction that stands at a position. -/
def Stands (order : LinearOrder) (p : Position) (i : Instruction) : Prop :=
  ∃ span ∈ order.spans, ∃ k : Nat,
    (order.graph.instructions span.block)[k]? = some i ∧ p = span.first + stride * k

/-- The uses that a scan records are those of the instructions. -/
theorem mem_uses_scan (order : LinearOrder) (r : VReg) (u : UsePoint) :
    u ∈ (order.scan r).track.uses ↔ ∃ p i, order.Stands p i ∧ Track.UsedBy r p i u := by
  -- by induction on the blocks that have been passed
  have hspans : ∀ spans : List Span, u ∈ (order.scanSpans r spans).track.uses ↔
      ∃ span ∈ spans, ∃ (k : Nat) (i : Instruction),
        (order.graph.instructions span.block)[k]? = some i ∧
          Track.UsedBy r (span.first + stride * k) i u := by
    intro spans
    induction spans with
    | nil => simp [scanSpans]
    | cons span later ih =>
      obtain ⟨opened, huses, hblock⟩ := Track.uses_block order r span
        ((order.scanSpans r later).neededAfter order span.block) (order.scanSpans r later).track
      simp only [scanSpans, hblock, Track.mem_uses_code, huses, ih, List.mem_cons,
        exists_eq_or_imp]
  rw [scan, hspans]
  simp only [Stands]
  constructor
  · rintro ⟨span, hspan, k, i, hi, hu⟩
    exact ⟨_, i, ⟨span, hspan, k, hi, rfl⟩, hu⟩
  · rintro ⟨_, i, ⟨span, hspan, k, hi, rfl⟩, hu⟩
    exact ⟨span, hspan, k, i, hi, hu⟩

theorem sorted_scan (order : LinearOrder) (r : VReg) :
    (order.scan r).track.uses.Pairwise fun a b => a.position ≤ b.position := by
  have hspans : ∀ spans : List Span, (order.scanSpans r spans).track.uses.Pairwise
      fun a b => a.position ≤ b.position := by
    intro spans
    induction spans with
    | nil => simp [scanSpans]
    | cons span later ih =>
      obtain ⟨opened, huses, hblock⟩ := Track.uses_block order r span
        ((order.scanSpans r later).neededAfter order span.block) (order.scanSpans r later).track
      rw [scanSpans, hblock]
      exact Track.sorted_code _ (huses ▸ ih)
  exact hspans order.spans

/-- A register is alive where it is used. -/
theorem covers_of_usedBy (h : order.Regular) {p : Position} {i : Instruction}
    (hi : order.Stands p i) {u : UsePoint} (hu : Track.UsedBy r p i u) :
    Ranges.covers (order.scan r).track.ranges u.position = true := by
  obtain ⟨span, hspan, k, hk, rfl⟩ := hi
  rw [covers_scan h]
  refine ⟨span, hspan, .inl (.inl (codeLive_iff.2 ⟨k, i, hk, ?_⟩))⟩
  rcases hu with ⟨d, hd, rfl, rfl⟩ | ⟨use, huse, rfl, rfl⟩
  · have hwrites : i.writes d.register = true := by
      simpa [Instruction.writes] using ⟨d, hd, rfl⟩
    exact .inr ⟨rfl, by simp [hwrites]⟩
  · have hreads : i.reads use.register = true := by
      simpa [Instruction.reads] using ⟨use, huse, rfl⟩
    have hdrop : (order.graph.instructions span.block).drop k =
        i :: (order.graph.instructions span.block).drop (k + 1) := by
      obtain ⟨hlt, hget⟩ := List.getElem?_eq_some_iff.1 hk
      rw [List.drop_eq_getElem_cons hlt, hget]
    exact .inl ⟨rfl, by rw [hdrop, liveBefore, hreads, Bool.true_or]⟩

end LinearOrder

end RegAlloc
