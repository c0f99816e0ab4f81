import RegAlloc.Proofs.Liveness.Paths

/-!
# Liveness without loops is exact

In an order without loop edges nothing is kept alive for the sake of a loop. A register is
live into a block exactly if some path from there reads it before any write, and its life
covers an instruction, or the gap behind it, exactly if it is needed there or written.

- `Graph.NeededAlong`, `Graph.NeededAt` — a path that starts within a block;
- `Liveness.Covers` — the life of a register covers a position;
- `Analysed.mem_liveOutOf` — the registers live out of a block, with loops or without;
- `LinearOrder.covers_iff_blockLive` — without loops, a block decides for itself what it covers;
- `LinearOrder.liveBefore_drop_iff` — what the scan of a block finds is what paths need;
- `liveness_exact` — all of it about the result of the analysis.
-/

namespace RegAlloc

variable {r : VReg}

/-! ## Paths from within a block -/

namespace Graph

variable {g : Graph} {b : BlockId} {k : Nat}

/-- Some path along given edges, from the instruction numbered `k` of a block on, reaches a
read of a register before any write. -/
def NeededAlong (g : Graph) (edge : BlockId → BlockId → Prop) (r : VReg) (b : BlockId) (k : Nat) :
    Prop :=
  ∃ path, (b :: path).IsChain edge ∧
    CodeReads r ((g.instructions b).drop k ++ path.flatMap g.instructions)

/-- Some path from the instruction numbered `k` of a block on reaches a read of a register
before any write. -/
def NeededAt (g : Graph) (r : VReg) (b : BlockId) (k : Nat) : Prop :=
  g.NeededAlong g.HasEdge r b k

/-- The rest of a block reads first, or it passes without a write and a successor needs the
value. -/
theorem neededAlong_iff {edge : BlockId → BlockId → Prop} : g.NeededAlong edge r b k ↔
    CodeReads r ((g.instructions b).drop k) ∨
      ((∀ j ∈ (g.instructions b).drop k, j.writes r = false) ∧
        ∃ s, edge b s ∧ g.NeededFrom edge r s) := by
  constructor
  · rintro ⟨path, hchain, hreads⟩
    refine (codeReads_append.1 hreads).imp id fun ⟨hnone, hrest⟩ => ⟨hnone, ?_⟩
    cases path with
    | nil => exact absurd hrest codeReads_nil
    | cons s path =>
      obtain ⟨hedge, hchain⟩ := List.isChain_cons_cons.1 hchain
      exact ⟨s, hedge, s :: path, rfl, hchain, hrest⟩
  · rintro (hhere | ⟨hnone, s, hedge, path, hhead, hchain, hreads⟩)
    · exact ⟨[], List.isChain_singleton b, codeReads_append.2 (.inl hhere)⟩
    · obtain ⟨rest, rfl⟩ := List.head?_eq_some_iff.1 hhead
      exact ⟨s :: rest, List.isChain_cons_cons.2 ⟨hedge, hchain⟩,
        codeReads_append.2 (.inr ⟨hnone, hreads⟩)⟩

/-- A register that is needed is mentioned. -/
theorem mentions_of_neededAt (h : g.NeededAt r b k) : g.mentions r = true := by
  obtain ⟨path, -, before, i, behind, hcode, hreads, -⟩ := h
  have hi : i ∈ (g.instructions b).drop k ++ path.flatMap g.instructions := by simp [hcode]
  have hmem : ∃ c, i ∈ g.instructions c := by
    rcases List.mem_append.1 hi with hi | hi
    · exact ⟨b, List.mem_of_mem_drop hi⟩
    · obtain ⟨c, -, hi⟩ := List.mem_flatMap.1 hi
      exact ⟨c, hi⟩
  obtain ⟨c, hi⟩ := hmem
  exact mentions_iff.2 ⟨c, i, hi, by simp [Instruction.mentions, hreads]⟩

end Graph

/-! ## Orders without loop edges -/

namespace LinearOrder

variable {order : LinearOrder} {span : Span} {q : Position}

theorem forward_eq (hloops : order.loopEdges = []) : order.Forward = order.graph.HasEdge := by
  funext u v
  simp [Forward, isLoopEdge, hloops]

/-- Without loops, only paths keep a register alive. -/
theorem aliveAt_iff (hloops : order.loopEdges = []) :
    order.AliveAt r span ↔ order.graph.NeededFrom order.graph.HasEdge r span.block := by
  have hheaders : order.headers = [] := by simp [headers, hloops]
  rw [AliveAt, hheaders, forward_eq hloops]
  simp

/-- A value is needed after a block, loop edges aside, if a forward path from a successor
needs it. -/
theorem neededAfter_iff_forward (h : order.Regular) {b : BlockId} :
    order.neededAfter r b = true ↔
      ∃ s, order.Forward b s ∧ order.graph.NeededFrom order.Forward r s := by
  unfold neededAfter Scan.neededAfter
  rw [List.any_eq_true]
  refine exists_congr fun s => ?_
  rw [Forward, and_assoc]
  refine and_congr_right fun hs => ?_
  obtain ⟨t, ht, rfl⟩ := h.exists_span_target hs
  rw [← needed_iff h t ht, Bool.and_eq_true, Bool.not_eq_true']
  exact Iff.rfl

/-- The rest of a block needs a value, loop edges aside, if some forward path through it does. -/
theorem liveBefore_drop_iff_forward (h : order.Regular) {b : BlockId} {k : Nat} :
    liveBefore r (order.neededAfter r b) ((order.graph.instructions b).drop k) = true ↔
      order.graph.NeededAlong order.Forward r b k := by
  rw [liveBefore_iff, Graph.neededAlong_iff, neededAfter_iff_forward h]

/-- A value is needed after a block if a successor needs it. -/
theorem neededAfter_iff (h : order.Regular) (hloops : order.loopEdges = []) {b : BlockId} :
    order.neededAfter r b = true ↔
      ∃ s, order.graph.HasEdge b s ∧ order.graph.NeededFrom order.graph.HasEdge r s := by
  rw [neededAfter_iff_forward h, forward_eq hloops]

/-- The rest of a block needs a value if some path through it does. -/
theorem liveBefore_drop_iff (h : order.Regular) (hloops : order.loopEdges = []) {b : BlockId}
    {k : Nat} : liveBefore r (order.neededAfter r b) ((order.graph.instructions b).drop k) = true ↔
      order.graph.NeededAt r b k := by
  rw [liveBefore_drop_iff_forward h, forward_eq hloops]
  exact Iff.rfl

/-- Without loops, a scan covers what the blocks keep alive, each for itself. -/
theorem exists_blockLive_of_covers (h : order.Regular) (hloops : order.loopEdges = [])
    (hcovers : Ranges.covers (order.scan r).track.ranges q = true) :
    ∃ span ∈ order.spans, order.BlockLive r (order.neededAfter r span.block) span q := by
  obtain ⟨span, hspan, hblock | ⟨-, stop, hstop, -⟩⟩ := (covers_scan h r q).1 hcovers
  · exact ⟨span, hspan, hblock⟩
  · simp [latchEnd?, hloops] at hstop

theorem covers_iff_blockLive (h : order.Regular) (hloops : order.loopEdges = [])
    (hspan : span ∈ order.spans) (hq : span.first ≤ q ∧ q < span.stop) :
    Ranges.covers (order.scan r).track.ranges q = true ↔
      order.BlockLive r (order.neededAfter r span.block) span q := by
  constructor
  · intro hcovers
    obtain ⟨s, hs, hblock⟩ := exists_blockLive_of_covers h hloops hcovers
    have hwithin : s.first ≤ q ∧ q < s.stop :=
      ⟨first_le_of_blockLive hblock, lt_stop_of_blockLive h hs hblock⟩
    cases h.span_at_unique hs hspan hwithin hq
    exact hblock
  · intro hblock
    exact (covers_scan h r q).2 ⟨span, hspan, .inl hblock⟩

section Positions

variable {k : Nat} {i : Instruction}

/-- A life covers an instruction if the value is needed before it. -/
theorem covers_instruction_iff (h : order.Regular) (hloops : order.loopEdges = [])
    (hspan : span ∈ order.spans) (hk : (order.graph.instructions span.block)[k]? = some i) :
    Ranges.covers (order.scan r).track.ranges (span.first + stride * k) = true ↔
      order.graph.NeededAt r span.block k := by
  obtain ⟨hlt, -⟩ := List.getElem?_eq_some_iff.1 hk
  have hstop := h.stop span hspan
  rw [covers_iff_blockLive h hloops hspan ⟨by lia, by lia⟩, ← liveBefore_drop_iff h hloops]
  constructor
  · rintro (hcode | ⟨hempty, -⟩)
    · obtain ⟨l, j, -, ⟨heq, hlive⟩ | ⟨heq, -⟩⟩ := codeLive_iff.1 hcode
      · have hl : l = k := by lia
        exact hl ▸ hlive
      · lia
    · simp [hempty] at hlt
  · intro hlive
    exact .inl (codeLive_iff.2 ⟨k, i, hk, .inl ⟨rfl, hlive⟩⟩)

/-- A life covers the gap behind an instruction if the value is needed there or written. -/
theorem covers_gap_iff (h : order.Regular) (hloops : order.loopEdges = [])
    (hspan : span ∈ order.spans) (hk : (order.graph.instructions span.block)[k]? = some i) :
    Ranges.covers (order.scan r).track.ranges (span.first + stride * k + 1) = true ↔
      order.graph.NeededAt r span.block (k + 1) ∨ i.writes r = true := by
  obtain ⟨hlt, -⟩ := List.getElem?_eq_some_iff.1 hk
  have hstop := h.stop span hspan
  rw [covers_iff_blockLive h hloops hspan ⟨by lia, by lia⟩, ← liveBefore_drop_iff h hloops,
    or_comm, ← Bool.or_eq_true]
  constructor
  -- only the gap behind its own instruction is at this position
  · rintro (hcode | ⟨hempty, -⟩)
    · obtain ⟨l, j, hl, ⟨heq, -⟩ | ⟨heq, hlive⟩⟩ := codeLive_iff.1 hcode
      · lia
      · have hlk : l = k := by lia
        subst hlk
        cases Option.some.inj (hl.symm.trans hk)
        exact hlive
    · simp [hempty] at hlt
  · intro hlive
    exact .inl (codeLive_iff.2 ⟨k, i, hk, .inr ⟨rfl, hlive⟩⟩)

/-- A life covers an empty block if the value is needed after it. -/
theorem covers_empty_iff (h : order.Regular) (hloops : order.loopEdges = [])
    (hspan : span ∈ order.spans) (hempty : order.graph.instructions span.block = [])
    (hq : span.first ≤ q ∧ q < span.stop) :
    Ranges.covers (order.scan r).track.ranges q = true ↔
      order.neededAfter r span.block = true := by
  rw [covers_iff_blockLive h hloops hspan hq]
  unfold BlockLive
  rw [hempty]
  simp [CodeLive, hq]

/-- A life covers instructions, the gaps behind them and empty blocks, and nothing else. -/
theorem exists_of_covers (h : order.Regular) (hloops : order.loopEdges = [])
    (hcovers : Ranges.covers (order.scan r).track.ranges q = true) :
    ∃ span ∈ order.spans,
      (∃ k i, (order.graph.instructions span.block)[k]? = some i ∧
        (q = span.first + stride * (k : Nat) ∨ q = span.first + stride * (k : Nat) + 1)) ∨
      (order.graph.instructions span.block = [] ∧ (q = span.first ∨ q = span.first + 1)) := by
  obtain ⟨span, hspan, hcode | ⟨hempty, -, hfirst, hlt⟩⟩ :=
    exists_blockLive_of_covers h hloops hcovers
  · obtain ⟨k, i, hk, ⟨heq, -⟩ | ⟨heq, -⟩⟩ := codeLive_iff.1 hcode
    · exact ⟨span, hspan, .inl ⟨k, i, hk, .inl heq⟩⟩
    · exact ⟨span, hspan, .inl ⟨k, i, hk, .inr heq⟩⟩
  · have hstop := h.stop span hspan
    rw [hempty] at hstop
    exact ⟨span, hspan, .inr ⟨hempty, by simp only [List.length_nil] at hstop; lia⟩⟩

/-- A register whose life covers a position is mentioned. -/
theorem mentions_of_covers (h : order.Regular) (hloops : order.loopEdges = [])
    (hcovers : Ranges.covers (order.scan r).track.ranges q = true) :
    order.graph.mentions r = true := by
  obtain ⟨span, hspan, hcode | ⟨hempty, hafter, -⟩⟩ :=
    exists_blockLive_of_covers h hloops hcovers
  · obtain ⟨k, i, hk, ⟨-, hlive⟩ | ⟨-, hlive⟩⟩ := codeLive_iff.1 hcode
    · exact Graph.mentions_of_neededAt ((liveBefore_drop_iff h hloops).1 hlive)
    · rcases Bool.or_eq_true _ _ ▸ hlive with hwrites | hlive
      · exact Graph.mentions_iff.2
          ⟨span.block, i, List.mem_of_getElem? hk, by simp [Instruction.mentions, hwrites]⟩
      · exact Graph.mentions_of_neededAt ((liveBefore_drop_iff h hloops).1 hlive)
  · have hneeded : order.graph.NeededAt r span.block 0 := by
      rw [Graph.NeededAt, Graph.neededAlong_iff, hempty]
      exact .inr ⟨by simp, (neededAfter_iff h hloops).1 hafter⟩
    exact Graph.mentions_of_neededAt hneeded

end Positions

end LinearOrder

/-! ## The result of the analysis -/

/-- The life of a register covers a position. -/
def Liveness.Covers (liveness : Liveness) (r : VReg) (q : Position) : Prop :=
  ∃ life, liveness.life? r = some life ∧ life.root.covers q = true

instance (liveness : Liveness) (r : VReg) (q : Position) : Decidable (liveness.Covers r q) :=
  decidable_of_iff ((liveness.life? r).any (·.root.covers q) = true) (Option.any_eq_true ..)

namespace Analysed

variable {g : Graph} {regClass : Option String} {order : LinearOrder} {liveness : Liveness}
  {span : Span} {q : Position}

/-- The lives of the registers that occur are what their scans find; no other has one. -/
theorem covers_iff (h : Analysed g regClass order liveness) : liveness.Covers r q ↔
    r ∈ order.occurring regClass ∧ Ranges.covers (order.scan r).track.ranges q = true := by
  constructor
  · rintro ⟨life, hlife, hcovers⟩
    have hmem : life ∈ liveness.lives := List.mem_of_find?_eq_some hlife
    have hregister : life.register = r := by simpa using List.find?_some hlife
    obtain ⟨hoccurs, -, id, hroot⟩ := LinearOrder.mem_livesOf (h.lives_eq ▸ hmem)
    rw [Interval.covers, hroot, hregister] at hcovers
    exact ⟨hregister ▸ hoccurs, hcovers⟩
  · rintro ⟨hoccurs, hcovers⟩
    obtain ⟨life, hlife, hranges⟩ := h.life?_eq_some hoccurs
    exact ⟨life, hlife, by rw [Interval.covers, hranges]; exact hcovers⟩

/-- The registers live out of a block are those live into its successors. -/
theorem mem_liveOutOf (h : Analysed g regClass order liveness) (hspan : span ∈ order.spans) :
    r ∈ liveness.liveOutOf span.block ↔
      ∃ s, order.graph.HasEdge span.block s ∧ r ∈ liveness.liveInto s := by
  obtain rfl := h.liveness_eq
  unfold Liveness.liveOutOf LinearOrder.livenessOf LinearOrder.liveOutSets LinearOrder.blocks
  dsimp only
  rw [List.map_map, Function.comp_def, Table.lookup_map h.regular.nodup span hspan,
    Option.getD_some, mem_ascending, ← List.flatMap_def, List.mem_flatMap]
  exact Iff.rfl

section LoopFree

variable (h : Analysed g regClass order liveness) (hloops : order.loopEdges = [])
  (hclass : order.graph.inClass regClass r = true)

include h hloops hclass

theorem covers_iff_scan :
    liveness.Covers r q ↔ Ranges.covers (order.scan r).track.ranges q = true := by
  rw [h.covers_iff]
  exact ⟨And.right, fun hcovers => ⟨LinearOrder.mem_occurring.2 ⟨hclass,
    LinearOrder.mentions_of_covers h.regular hloops hcovers⟩, hcovers⟩⟩

/-- The registers live into a block are those that some path needs. -/
theorem mem_liveInto_iff (hspan : span ∈ order.spans) : r ∈ liveness.liveInto span.block ↔
    order.graph.NeededFrom order.graph.HasEdge r span.block := by
  rw [h.mem_liveInto hspan, LinearOrder.aliveAt_iff hloops]
  refine ⟨And.right, fun hneeded => ⟨LinearOrder.mem_occurring.2 ⟨hclass, ?_⟩, hneeded⟩⟩
  obtain ⟨b, i, hi, hr⟩ :=
    LinearOrder.mentions_of_aliveAt ((LinearOrder.aliveAt_iff hloops).2 hneeded)
  exact Graph.mentions_iff.2 ⟨b, i, hi, hr⟩

/-- What a block needs afterwards is live out of it. -/
theorem neededAfter_iff_mem_liveOutOf (hspan : span ∈ order.spans) :
    order.neededAfter r span.block = true ↔ r ∈ liveness.liveOutOf span.block := by
  rw [h.mem_liveOutOf hspan, LinearOrder.neededAfter_iff h.regular hloops]
  refine exists_congr fun s => and_congr_right fun hs => ?_
  obtain ⟨t, ht, rfl⟩ := h.regular.exists_span_target hs
  exact (h.mem_liveInto_iff hloops hclass ht).symm

end LoopFree

end Analysed

/-- Liveness without loops is exact, for every register of the analysed class: into the
blocks, out of them, and at every position. -/
theorem liveness_exact {g : Graph} {regClass : Option String} {order : LinearOrder}
    {liveness : Liveness} (h : Analysed g regClass order liveness)
    (hloops : order.loopEdges = []) (hclass : order.graph.inClass regClass r = true) :
    (∀ span ∈ order.spans,
      (r ∈ liveness.liveInto span.block ↔
        order.graph.NeededFrom order.graph.HasEdge r span.block) ∧
      (r ∈ liveness.liveOutOf span.block ↔
        ∃ s, order.graph.HasEdge span.block s ∧ r ∈ liveness.liveInto s) ∧
      (∀ (k : Nat) (i : Instruction), (order.graph.instructions span.block)[k]? = some i →
        (liveness.Covers r (span.first + stride * k) ↔
          order.graph.NeededAt r span.block k) ∧
        (liveness.Covers r (span.first + stride * k + 1) ↔
          order.graph.NeededAt r span.block (k + 1) ∨ i.writes r = true)) ∧
      (order.graph.instructions span.block = [] →
        (liveness.Covers r span.first ↔ r ∈ liveness.liveOutOf span.block) ∧
        (liveness.Covers r (span.first + 1) ↔ r ∈ liveness.liveOutOf span.block))) ∧
    ∀ q, liveness.Covers r q → ∃ span ∈ order.spans,
      (∃ k i, (order.graph.instructions span.block)[k]? = some i ∧
        (q = span.first + stride * (k : Nat) ∨ q = span.first + stride * (k : Nat) + 1)) ∨
      (order.graph.instructions span.block = [] ∧ (q = span.first ∨ q = span.first + 1)) := by
  have hregular := h.regular
  have hcovers : ∀ q, liveness.Covers r q ↔
      Ranges.covers (order.scan r).track.ranges q = true := fun _ =>
    h.covers_iff_scan hloops hclass
  simp only [hcovers]
  refine ⟨fun span hspan => ⟨h.mem_liveInto_iff hloops hclass hspan, h.mem_liveOutOf hspan,
    fun k i hk => ⟨LinearOrder.covers_instruction_iff hregular hloops hspan hk,
      LinearOrder.covers_gap_iff hregular hloops hspan hk⟩, fun hempty => ?_⟩,
    fun q => LinearOrder.exists_of_covers hregular hloops⟩
  have hstop := hregular.stop span hspan
  simp only [hempty, List.length_nil] at hstop
  rw [← h.neededAfter_iff_mem_liveOutOf hloops hclass hspan]
  exact ⟨LinearOrder.covers_empty_iff hregular hloops hspan hempty ⟨by lia, by lia⟩,
    LinearOrder.covers_empty_iff hregular hloops hspan hempty ⟨by lia, by lia⟩⟩

/-- A value that is written again on one of two ways, and passes an empty block on the
other. -/
def rewrittenOnce : Graph := Graph.run {} [
  .createRegister {}, .addBlock, .addBlock, .addBlock, .addBlock,
  .addInstruction (0 : Nat) { opcode := "a", defs := [{ register := (0 : Nat) }] },
  .addInstruction (1 : Nat) { opcode := "b", defs := [{ register := (0 : Nat) }] },
  .addInstruction (3 : Nat) { opcode := "c", uses := [{ register := (0 : Nat) }] },
  .addEdge (0 : Nat) (1 : Nat), .addEdge (0 : Nat) (2 : Nat), .addEdge (1 : Nat) (3 : Nat),
  .addEdge (2 : Nat) (3 : Nat)]

/-- Where the value is written again its life has a hole, and the empty block is covered. -/
theorem liveness_exact_rewrittenOnce : ∃ order liveness,
    Analysed rewrittenOnce none order liveness ∧ order.loopEdges = [] ∧
      order.graph.inClass none 0 = true ∧ ⟨1, 2, 2⟩ ∈ order.spans ∧ ⟨2, 4, 4⟩ ∈ order.spans ∧
      ¬ order.graph.NeededAt 0 1 0 ∧ ¬ liveness.Covers 0 2 ∧ liveness.Covers 0 3 ∧
      0 ∈ liveness.liveOutOf 2 ∧ liveness.Covers 0 4 ∧ liveness.Covers 0 5 := by
  have h : Analysed rewrittenOnce none _ _ := ⟨⟨_, rfl⟩, ⟨_, rfl⟩, ⟨_, rfl⟩⟩
  obtain ⟨hspans, -⟩ := liveness_exact (r := 0) h rfl rfl
  obtain ⟨-, -, hcode, -⟩ := hspans ⟨1, 2, 2⟩ (by decide)
  obtain ⟨-, -, -, hempty⟩ := hspans ⟨2, 4, 4⟩ (by decide)
  obtain ⟨hfirst, hgap⟩ := hcode 0 _ rfl
  refine ⟨_, _, h, rfl, rfl, by decide, by decide, fun hneeded => ?_, by decide,
    hgap.2 (.inr rfl), by decide, (hempty rfl).1.2 (by decide), (hempty rfl).2.2 (by decide)⟩
  exact absurd (hfirst.2 hneeded) (by decide)

end RegAlloc
