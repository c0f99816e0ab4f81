import RegAlloc.Proofs.Liveness.Lifetimes

/-!
# Liveness and paths

A value is needed at the start of a block if some path from there reaches a read of it
before any write. The scan finds exactly the paths along edges that close no loop. For
the other paths it relies on loops: what the header of a loop needs, it keeps alive over
the whole stretch of the loop. That catches every path as long as no edge leads into the
middle of a stretch from outside.

- `Graph.NeededFrom` — a path that reaches a read;
- `LinearOrder.needed_iff` — the scan finds the paths along forward edges;
- `LinearOrder.AliveAt` — forward paths, or a loop whose header has one;
- `Liveness.Accounts` — the analysis says that a register is live at a block;
- `accounts_iff` — it says so exactly where `AliveAt` holds, and where paths exist if
  all loops are closed.
-/

namespace RegAlloc

/-- Straight-line code that reads a register before it writes it. -/
def CodeReads (r : VReg) (code : List Instruction) : Prop :=
  ∃ before i behind, code = before ++ i :: behind ∧ i.reads r = true ∧
    ∀ j ∈ before, j.writes r = false

theorem codeReads_nil {r : VReg} : ¬ CodeReads r [] := by
  rintro ⟨before, i, behind, hcode, -⟩
  simp at hcode

/-- Code reads first with its first instruction, or passes that without a write. -/
theorem codeReads_cons {r : VReg} {i : Instruction} {rest : List Instruction} :
    CodeReads r (i :: rest) ↔ i.reads r = true ∨ (i.writes r = false ∧ CodeReads r rest) := by
  constructor
  · rintro ⟨before, j, behind, heq, hj, hbefore⟩
    cases before with
    | nil =>
      cases heq
      exact .inl hj
    | cons first before =>
      cases heq
      obtain ⟨hwrite, hbefore⟩ := List.forall_mem_cons.1 hbefore
      exact .inr ⟨hwrite, before, j, behind, rfl, hj, hbefore⟩
  · rintro (hread | ⟨hwrite, before, j, behind, rfl, hj, hbefore⟩)
    · exact ⟨[], i, rest, rfl, hread, by simp⟩
    · exact ⟨i :: before, j, behind, rfl, hj, List.forall_mem_cons.2 ⟨hwrite, hbefore⟩⟩

/-- Code reads first in its first part, or passes that without a write. -/
theorem codeReads_append {r : VReg} {code rest : List Instruction} :
    CodeReads r (code ++ rest) ↔
      CodeReads r code ∨ ((∀ j ∈ code, j.writes r = false) ∧ CodeReads r rest) := by
  induction code with
  | nil => simp [codeReads_nil]
  | cons i code ih =>
    rw [List.cons_append, codeReads_cons, codeReads_cons, ih, List.forall_mem_cons]
    grind

/-- Code needs a value if it reads it first, or does not write it and it is needed behind. -/
theorem liveBefore_iff {r : VReg} {out : Bool} {code : List Instruction} :
    liveBefore r out code = true ↔
      CodeReads r code ∨ ((∀ j ∈ code, j.writes r = false) ∧ out = true) := by
  induction code with
  | nil => simp [liveBefore, codeReads_nil]
  | cons i code ih =>
    rw [liveBefore, Bool.or_eq_true, Bool.and_eq_true, Bool.not_eq_true', ih, codeReads_cons,
      List.forall_mem_cons]
    grind

namespace Graph

variable {g : Graph} {edge : BlockId → BlockId → Prop} {r : VReg}

/-- The code along a path reads a register before it writes it. -/
def ReadFirst (g : Graph) (r : VReg) (path : List BlockId) : Prop :=
  CodeReads r (path.flatMap g.instructions)

/-- Some path from the start of a block reaches a read of a register before any write. -/
def NeededFrom (g : Graph) (edge : BlockId → BlockId → Prop) (r : VReg) (b : BlockId) : Prop :=
  ∃ path : List BlockId, path.head? = some b ∧ path.IsChain edge ∧ g.ReadFirst r path

theorem readFirst_nil : ¬ g.ReadFirst r [] := codeReads_nil

/-- A path reads first in its first block, or passes it without a write. -/
theorem readFirst_cons {b : BlockId} {path : List BlockId} : g.ReadFirst r (b :: path) ↔
    CodeReads r (g.instructions b) ∨
      ((∀ j ∈ g.instructions b, j.writes r = false) ∧ g.ReadFirst r path) := by
  simp only [ReadFirst, List.flatMap_cons]
  exact codeReads_append

/-- A path from a block reads first in it, or passes it and goes on. -/
theorem neededFrom_iff {b : BlockId} : g.NeededFrom edge r b ↔
    CodeReads r (g.instructions b) ∨
      ((∀ j ∈ g.instructions b, j.writes r = false) ∧ ∃ s, edge b s ∧ g.NeededFrom edge r s) := by
  constructor
  · rintro ⟨path, hhead, hchain, hread⟩
    obtain ⟨rest, rfl⟩ := List.head?_eq_some_iff.1 hhead
    refine (readFirst_cons.1 hread).imp id fun ⟨hnone, hread⟩ => ⟨hnone, ?_⟩
    cases rest with
    | nil => exact absurd hread readFirst_nil
    | cons s rest =>
      obtain ⟨hedge, hchain⟩ := List.isChain_cons_cons.1 hchain
      exact ⟨s, hedge, s :: rest, rfl, hchain, hread⟩
  · rintro (hhere | ⟨hnone, s, hedge, path, hhead, hchain, hread⟩)
    · exact ⟨[b], rfl, List.isChain_singleton b, readFirst_cons.2 (.inl hhere)⟩
    · obtain ⟨rest, rfl⟩ := List.head?_eq_some_iff.1 hhead
      exact ⟨b :: s :: rest, rfl, List.isChain_cons_cons.2 ⟨hedge, hchain⟩,
        readFirst_cons.2 (.inr ⟨hnone, hread⟩)⟩

end Graph

namespace LinearOrder

variable {order : LinearOrder} {r : VReg}

/-- Control flow along an edge that closes no loop. -/
def Forward (order : LinearOrder) (u v : BlockId) : Prop :=
  order.graph.HasEdge u v ∧ order.isLoopEdge u v = false

/-- The scan finds the paths along edges that close no loop. -/
theorem needed_iff (h : order.Regular) : ∀ span ∈ order.spans,
    (order.needed r span.block = true ↔ order.graph.NeededFrom order.Forward r span.block) := by
  refine h.backward_induction fun span hspan ih => ?_
  rw [needed_eq h hspan, liveBefore_iff, Graph.neededFrom_iff]
  refine or_congr Iff.rfl (and_congr_right fun _ => ?_)
  simp only [neededAfter, Scan.neededAfter, List.any_eq_true, Bool.and_eq_true, Bool.not_eq_true']
  constructor
  · rintro ⟨s, hs, hforward, hneeded⟩
    obtain ⟨t, ht, rfl⟩ := h.exists_span_target hs
    exact ⟨t.block, ⟨hs, hforward⟩, (ih t ht (h.forward span hspan t ht hs hforward)).1 hneeded⟩
  · rintro ⟨s, ⟨hs, hforward⟩, hneeded⟩
    obtain ⟨t, ht, rfl⟩ := h.exists_span_target hs
    exact ⟨t.block, hs, hforward, (ih t ht (h.forward span hspan t ht hs hforward)).2 hneeded⟩

/-! ## Where the scan keeps a register alive -/

/-- A block from which a forward path leads to a read, or that lies in the stretch of a
loop from whose header one does. -/
def AliveAt (order : LinearOrder) (r : VReg) (span : Span) : Prop :=
  order.graph.NeededFrom order.Forward r span.block ∨ ∃ h ∈ order.headers,
    order.loopContains h span.first = true ∧ order.graph.NeededFrom order.Forward r h

theorem loopContains_iff (h : order.Regular) {b : BlockId} {p : Position} :
    order.loopContains b p = true ↔ ∃ span ∈ order.spans, span.block = b ∧
      ∃ stop, order.latchEnd? b = some stop ∧ span.first ≤ p ∧ p < stop := by
  rw [loopContains]
  constructor
  · intro hcontains
    split at hcontains
    · next span stop hspan hstop =>
      obtain ⟨hmem, rfl⟩ := h.span?_eq_some.1 hspan
      simp only [Bool.and_eq_true, decide_eq_true_eq] at hcontains
      exact ⟨span, hmem, rfl, stop, hstop, hcontains⟩
    · cases hcontains
  · rintro ⟨span, hspan, rfl, stop, hstop, hfirst, hlt⟩
    simp [h.span?_eq_some.2 ⟨hspan, rfl⟩, hstop, hfirst, hlt]

/-- A block whose loop has an end is a header. -/
theorem mem_headers (h : order.Regular) {b : BlockId} {stop : Position}
    (hstop : order.latchEnd? b = some stop) : b ∈ order.headers := by
  obtain ⟨⟨s, -, hloop, -⟩, -⟩ := (latchEnd?_eq_some h).1 hstop
  rw [headers, List.mem_eraseDups, List.mem_map]
  exact ⟨⟨s.block, b⟩, by simpa [isLoopEdge] using hloop, rfl⟩

/-- Where the scan finds a register live into a block. -/
theorem liveInto_iff (h : order.Regular) {span : Span} (hspan : span ∈ order.spans) :
    order.liveInto (order.scan r) span = true ↔ order.AliveAt r span := by
  rw [liveInto, Bool.or_eq_true, List.any_eq_true, AliveAt]
  refine or_congr (needed_iff h span hspan) (exists_congr fun b => and_congr_right fun _ => ?_)
  rw [Bool.and_eq_true]
  refine and_congr_right fun hcontains => ?_
  obtain ⟨s, hs, rfl, -⟩ := (loopContains_iff h).1 hcontains
  exact needed_iff h s hs

/-- A loop keeps a value alive at the positions in its stretch, if its header needs it. -/
theorem loopLive_iff (h : order.Regular) {q : Position} :
    (∃ s ∈ order.spans, order.LoopLive (order.needed r s.block) s q) ↔
      ∃ b ∈ order.headers, order.loopContains b q = true ∧
        order.graph.NeededFrom order.Forward r b := by
  simp only [loopContains_iff h]
  constructor
  · rintro ⟨s, hs, hneeded, stop, hstop, hq⟩
    exact ⟨s.block, mem_headers h hstop, ⟨s, hs, rfl, stop, hstop, hq⟩,
      (needed_iff h s hs).1 hneeded⟩
  · rintro ⟨_, -, ⟨s, hs, rfl, stop, hstop, hq⟩, hneeded⟩
    exact ⟨s, hs, (needed_iff h s hs).2 hneeded, stop, hstop, hq⟩

/-- The life of a register covers the start of a block exactly where it is kept alive. -/
theorem covers_first_iff (h : order.Regular) {span : Span} (hspan : span ∈ order.spans) :
    Ranges.covers (order.scan r).track.ranges span.first = true ↔ order.AliveAt r span := by
  have hlt := h.contiguous.first_lt_stop span hspan
  simp only [covers_scan h, and_or_left, exists_or]
  refine or_congr ⟨?_, fun hneeded => ?_⟩ (loopLive_iff h)
  · rintro ⟨s, hs, hlive⟩
    have hsame := h.span_at_unique hs hspan
      ⟨first_le_of_blockLive hlive, lt_stop_of_blockLive h hs hlive⟩ ⟨Int.le_refl _, hlt⟩
    subst hsame
    rw [blockLive_first h hs, ← needed_eq h hs] at hlive
    exact (needed_iff h s hs).1 hlive
  · refine ⟨span, hspan, (blockLive_first h hspan).2 ?_⟩
    rw [← needed_eq h hspan]
    exact (needed_iff h span hspan).2 hneeded

/-- Where it is kept alive, it covers the whole of a block that does not mention it. -/
theorem covers_block (h : order.Regular) {span : Span} (hspan : span ∈ order.spans)
    (halive : order.AliveAt r span)
    (hpasses : ∀ i ∈ order.graph.instructions span.block, i.mentions r = false) {q : Position}
    (hq : span.first ≤ q ∧ q < span.stop) :
    Ranges.covers (order.scan r).track.ranges q = true := by
  simp only [Instruction.mentions, Bool.or_eq_false_iff] at hpasses
  rw [covers_scan h]
  rcases halive with hneeded | hloop
  · -- the block reads nothing, so what it needs is needed behind it
    rw [← needed_iff h span hspan, needed_eq h hspan, liveBefore_iff] at hneeded
    rcases hneeded with ⟨before, i, behind, hcode, hread, -⟩ | ⟨-, hout⟩
    · simp [(hpasses i (by simp [hcode])).1] at hread
    · refine ⟨span, hspan, .inl ?_⟩
      rw [hout]
      exact blockLive_of_passes h hspan (fun i hi => (hpasses i hi).2) hq
  · obtain ⟨s, hs, hneeded, stop, hstop, hfirst, hlt⟩ := (loopLive_iff h).2 hloop
    refine ⟨s, hs, .inr ⟨hneeded, stop, hstop, by lia, ?_⟩⟩
    -- the loop ends with a block, so it contains the whole of this one
    obtain ⟨⟨latch, hlatch, -, rfl⟩, -⟩ := (latchEnd?_eq_some h).1 hstop
    have := h.stop_le_stop hspan hlatch hlt
    lia

/-! ## All paths -/

/-- Every loop is entered at its header only: an edge that leads into its stretch
elsewhere starts within. -/
def LoopsClosed (order : LinearOrder) : Prop :=
  ∀ s ∈ order.spans, ∀ t ∈ order.spans, order.graph.HasEdge s.block t.block →
    ∀ h ∈ order.headers, order.loopContains h t.first = true → t.block ≠ h →
      order.loopContains h s.first = true

instance (order : LinearOrder) : Decidable order.LoopsClosed :=
  inferInstanceAs (Decidable (∀ s ∈ order.spans, ∀ t ∈ order.spans, _ → ∀ h ∈ order.headers, _))

/-- A latch lies in the stretch of its loop. -/
theorem loopContains_latch (h : order.Regular) {s t : Span} (hs : s ∈ order.spans)
    (ht : t ∈ order.spans) (hloop : order.isLoopEdge s.block t.block = true) :
    t.block ∈ order.headers ∧ order.loopContains t.block s.first = true := by
  have hheader : t.block ∈ order.headers := by
    rw [headers, List.mem_eraseDups, List.mem_map]
    exact ⟨⟨s.block, t.block⟩, by simpa [isLoopEdge] using hloop, rfl⟩
  refine ⟨hheader, (loopContains_iff h).2 ⟨t, ht, rfl, ?_⟩⟩
  cases hlatch : order.latchEnd? t.block with
  | none =>
    rw [latchEnd?, List.max?_eq_none_iff, List.filterMap_eq_nil_iff] at hlatch
    have := hlatch ⟨s.block, t.block⟩
      (List.mem_filter.2 ⟨by simpa [isLoopEdge] using hloop, by simp⟩)
    simp [h.span?_eq_some.2 ⟨hs, rfl⟩] at this
  | some stop =>
    have hle := ((latchEnd?_eq_some h).1 hlatch).2 s hs hloop
    have := h.contiguous.first_lt_stop s hs
    exact ⟨stop, rfl, h.back s hs t ht hloop, by lia⟩

/-- A block that passes on a value that the next one needs is kept alive: the edge
leads forward, or the block is in the loop that it closes. -/
theorem aliveAt_of_edge (h : order.Regular) {s t : Span} (hs : s ∈ order.spans)
    (ht : t ∈ order.spans) (hedge : order.graph.HasEdge s.block t.block)
    (hnone : ∀ j ∈ order.graph.instructions s.block, j.writes r = false)
    (hneeded : order.graph.NeededFrom order.Forward r t.block) : order.AliveAt r s := by
  cases hloop : order.isLoopEdge s.block t.block with
  | false => exact .inl (Graph.neededFrom_iff.2 (.inr ⟨hnone, _, ⟨hedge, hloop⟩, hneeded⟩))
  | true =>
    obtain ⟨hheader, hcontains⟩ := loopContains_latch h hs ht hloop
    exact .inr ⟨t.block, hheader, hcontains, hneeded⟩

/-- If all loops are closed, the scan keeps a register alive wherever a path needs it. -/
theorem aliveAt_of_neededFrom (h : order.Regular) (hclosed : order.LoopsClosed) {span : Span}
    (hspan : span ∈ order.spans)
    (hneeded : order.graph.NeededFrom order.graph.HasEdge r span.block) :
    order.AliveAt r span := by
  obtain ⟨path, hhead, hchain, hread⟩ := hneeded
  induction path generalizing span with
  | nil => cases hhead
  | cons b path ih =>
    cases hhead
    -- the read is in the first block, or further on along the path
    rcases Graph.readFirst_cons.1 hread with hhere | ⟨hnone, hrest⟩
    · exact .inl (Graph.neededFrom_iff.2 (.inl hhere))
    cases path with
    | nil => exact absurd hrest Graph.readFirst_nil
    | cons s path =>
      obtain ⟨hedge, hchain⟩ := List.isChain_cons_cons.1 hchain
      obtain ⟨t, ht, rfl⟩ := h.exists_span_target hedge
      -- the next block is kept alive, by itself or by a loop around it
      rcases ih ht rfl hchain hrest with hforward | ⟨b, hb, hcontains, hforward⟩
      · exact aliveAt_of_edge h hspan ht hedge hnone hforward
      by_cases heq : t.block = b
      · exact aliveAt_of_edge h hspan ht hedge hnone (heq ▸ hforward)
      · exact .inr ⟨b, hb, hclosed span hspan t ht hedge b hb hcontains heq, hforward⟩

/-- A register that is kept alive anywhere is mentioned. -/
theorem mentions_of_aliveAt {span : Span} (halive : order.AliveAt r span) :
    ∃ b, ∃ i ∈ order.graph.instructions b, i.mentions r = true := by
  have hread : ∀ b, order.graph.NeededFrom order.Forward r b →
      ∃ b, ∃ i ∈ order.graph.instructions b, i.mentions r = true := by
    rintro _ ⟨path, -, -, before, i, behind, hcode, hi, -⟩
    have hmem : i ∈ path.flatMap order.graph.instructions := by simp [hcode]
    obtain ⟨b, -, hi'⟩ := List.mem_flatMap.1 hmem
    exact ⟨b, i, hi', by simp [Instruction.mentions, hi]⟩
  rcases halive with hneeded | ⟨b, -, -, hneeded⟩
  · exact hread _ hneeded
  · exact hread _ hneeded

end LinearOrder

/-! ## The result of the analysis -/

/-- The analysis says that a register is live at a block: it is live into the block, its
life covers the start, and all of the block up to its end if the block does not mention it. -/
def Liveness.Accounts (liveness : Liveness) (g : Graph) (r : VReg) (span : Span) : Prop :=
  r ∈ liveness.liveInto span.block ∧ ∃ life, liveness.life? r = some life ∧
    life.root.covers span.first = true ∧
    ((∀ i ∈ g.instructions span.block, i.mentions r = false) →
      ∀ q, span.first ≤ q → q ≤ span.last + 1 → life.root.covers q = true)

namespace Analysed

variable {g : Graph} {regClass : Option String} {order : LinearOrder} {liveness : Liveness}
  {r : VReg}

theorem liveInto_eq (h : Analysed g regClass order liveness) {span : Span}
    (hspan : span ∈ order.spans) : liveness.liveInto span.block =
      (order.occurring regClass).filter fun r => order.liveInto (order.scan r) span := by
  rw [h.liveness_eq, Liveness.liveInto, LinearOrder.livenessOf, LinearOrder.liveInSets,
    Table.lookup_map h.regular.nodup span hspan, Option.getD_some,
    LinearOrder.selectScanned_scans]

/-- The registers live into a block are the ones that occur and are kept alive there. -/
theorem mem_liveInto (h : Analysed g regClass order liveness) {span : Span}
    (hspan : span ∈ order.spans) : r ∈ liveness.liveInto span.block ↔
      r ∈ order.occurring regClass ∧ order.AliveAt r span := by
  rw [h.liveInto_eq hspan, List.mem_filter, LinearOrder.liveInto_iff h.regular hspan]

theorem nodup_liveInto (h : Analysed g regClass order liveness) {span : Span}
    (hspan : span ∈ order.spans) : (liveness.liveInto span.block).Nodup :=
  h.liveInto_eq hspan ▸ (LinearOrder.nodup_occurring order regClass).filter _

/-- A register that occurs has the lifetime that its scan finds. -/
theorem life?_eq_some (h : Analysed g regClass order liveness)
    (hr : r ∈ order.occurring regClass) : ∃ life, liveness.life? r = some life ∧
      life.root.ranges = (order.scan r).track.ranges := by
  rw [Liveness.life?, h.lives_eq]
  have hsingle := LinearOrder.nodup_occurring order regClass
  rw [← LinearOrder.registers_livesOf] at hr hsingle
  obtain ⟨life, hlife, rfl⟩ := List.mem_map.1 hr
  obtain ⟨-, -, id, hroot⟩ := LinearOrder.mem_livesOf hlife
  exact ⟨life, Lifetime.find?_register hsingle hlife, by rw [hroot]⟩

end Analysed

/-- The analysis accounts for a register at a block exactly where a path along forward
edges needs it, from the block or from the header of a loop whose stretch contains the
block. That is wherever a path needs it, if no loop is entered but at its header. -/
theorem accounts_iff {g : Graph} {regClass : Option String} {order : LinearOrder}
    {liveness : Liveness} (h : Analysed g regClass order liveness) {span : Span}
    (hspan : span ∈ order.spans) {r : VReg} (hclass : order.graph.inClass regClass r = true) :
    (liveness.Accounts order.graph r span ↔ order.AliveAt r span) ∧
    (order.LoopsClosed → order.graph.NeededFrom order.graph.HasEdge r span.block →
      liveness.Accounts order.graph r span) := by
  have haccounts : liveness.Accounts order.graph r span ↔ order.AliveAt r span := by
    constructor
    · rintro ⟨hlive, -⟩
      exact ((h.mem_liveInto hspan).1 hlive).2
    · intro halive
      -- a register that is kept alive is read somewhere, so it has a life
      obtain ⟨b, i, hi, hmentions⟩ := LinearOrder.mentions_of_aliveAt halive
      have hoccurs : r ∈ order.occurring regClass :=
        LinearOrder.mem_occurring.2 ⟨hclass, Graph.mentions_iff.2 ⟨b, i, hi, hmentions⟩⟩
      obtain ⟨life, hlife, hranges⟩ := h.life?_eq_some hoccurs
      refine ⟨(h.mem_liveInto hspan).2 ⟨hoccurs, halive⟩, life, hlife, ?_,
        fun hpasses q hq hlast => ?_⟩
      · rw [Interval.covers, hranges]
        exact (LinearOrder.covers_first_iff h.regular hspan).2 halive
      · rw [Interval.covers, hranges]
        exact LinearOrder.covers_block h.regular hspan halive hpasses ⟨hq, by rw [Span.stop]; lia⟩
  refine ⟨haccounts, fun hclosed hneeded => haccounts.2 ?_⟩
  exact LinearOrder.aliveAt_of_neededFrom h.regular hclosed hspan hneeded

/-- A loop that reads, in its header, a value from before it. -/
def headerRead : Graph := Graph.run {} [
  .createRegister {}, .addBlock, .addBlock, .addBlock, .addBlock,
  .addInstruction (0 : Nat) { opcode := "d", defs := [{ register := (0 : Nat) }] },
  .addInstruction (1 : Nat) { opcode := "u", uses := [{ register := (0 : Nat) }] },
  .addEdge (0 : Nat) (1 : Nat), .addEdge (1 : Nat) (2 : Nat), .addEdge (2 : Nat) (1 : Nat),
  .addEdge (1 : Nat) (3 : Nat)]

/-- In the body of the loop, only the way back to the header needs the value. -/
theorem accounts_iff_headerRead : ∃ order liveness, ∃ span ∈ order.spans,
    Analysed headerRead none order liveness ∧ span.block = 2 ∧ order.LoopsClosed ∧
      order.graph.NeededFrom order.graph.HasEdge 0 span.block ∧
      liveness.Accounts order.graph 0 span := by
  have h : Analysed headerRead none _ _ := ⟨⟨_, rfl⟩, ⟨_, rfl⟩, ⟨_, rfl⟩⟩
  have hneeded : headerRead.freeze.NeededFrom headerRead.freeze.HasEdge 0 2 :=
    ⟨[2, 1], rfl, by decide, [], _, [], rfl, rfl, by simp⟩
  exact ⟨_, _, ⟨2, 4, 4⟩, by decide, h, rfl, by decide, hneeded,
    (accounts_iff h (by decide) rfl).2 (by decide) hneeded⟩

/-- Two loops that cross: the latch of the outer one stands in the inner one, before the
latch of the inner one. -/
def crossingLoops : Graph := Graph.run {} [
  .createRegister {}, .addBlock, .addBlock, .addBlock, .addBlock, .addBlock,
  .addInstruction (0 : Nat) { opcode := "d", defs := [{ register := (0 : Nat) }] },
  .addInstruction (1 : Nat) { opcode := "u", uses := [{ register := (0 : Nat) }] },
  .addEdge (0 : Nat) (1 : Nat), .addEdge (1 : Nat) (2 : Nat), .addEdge (2 : Nat) (3 : Nat),
  .addEdge (3 : Nat) (1 : Nat), .addEdge (3 : Nat) (4 : Nat), .addEdge (4 : Nat) (2 : Nat)]

/-- From the latch of the inner loop the value is needed, and the analysis misses it. -/
theorem not_accounts_crossingLoops : ∃ order liveness, ∃ span ∈ order.spans,
    Analysed crossingLoops none order liveness ∧ span.block = 4 ∧
      order.graph.NeededFrom order.graph.HasEdge 0 span.block ∧
      0 ∉ liveness.liveInto span.block ∧ ¬ liveness.Accounts order.graph 0 span := by
  have h : Analysed crossingLoops none _ _ := ⟨⟨_, rfl⟩, ⟨_, rfl⟩, ⟨_, rfl⟩⟩
  exact ⟨_, _, ⟨4, 8, 8⟩, by decide, h, rfl,
    ⟨[4, 2, 3, 1], rfl, by decide, [], _, [], rfl, rfl, by simp⟩,
    by decide, fun haccounts => absurd haccounts.1 (by decide)⟩

end RegAlloc
