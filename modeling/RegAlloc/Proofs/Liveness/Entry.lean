import RegAlloc.Proofs.Liveness.Paths
import RegAlloc.Proofs.Order.Numbering

/-!
# Values needed at the entry

A value that some path from the entry reads before it is written is used before it is
defined. The analysis reports the paths along edges that close no loop. These are all the
paths there are in a reducible order, in which no path gets into a loop but through its
header: whatever a path reads first after a loop edge, it can read without going around.

- `LinearOrder.Reducible` — every loop is entered through its header;
- `LinearOrder.LoopsClosed.reducible` — a condition on single edges that suffices;
- `LinearOrder.Reducible.neededFrom_entry` — forward paths are enough;
- `LinearOrder.exists_analyze` — the analysis of a linear order returns;
- `entry_reports_exact` — what it reports.
-/

namespace RegAlloc

namespace Graph

variable {g : Graph} {r : VReg}

/-- A path reads first in its first part, or passes that without a write. -/
theorem readFirst_append {path rest : List BlockId} : g.ReadFirst r (path ++ rest) ↔
    g.ReadFirst r path ∨
      ((∀ j ∈ path.flatMap g.instructions, j.writes r = false) ∧ g.ReadFirst r rest) := by
  unfold ReadFirst
  rw [List.flatMap_append]
  exact codeReads_append

/-- A path that reads first still does so when it does not go around a cycle. -/
theorem readFirst_shortcut {before cycle rest : List BlockId} {h : BlockId}
    (hread : g.ReadFirst r (before ++ h :: cycle ++ h :: rest)) :
    g.ReadFirst r (before ++ h :: cycle) ∨ g.ReadFirst r (before ++ h :: rest) := by
  rcases readFirst_append.1 hread with hread | ⟨hnone, hrest⟩
  · exact .inl hread
  · refine .inr (readFirst_append.2 (.inr ⟨fun j hj => hnone j ?_, hrest⟩))
    rw [List.flatMap_append]
    exact List.mem_append_left _ hj

end Graph

namespace LinearOrder

variable {order : LinearOrder} {r : VReg}

/-! ## Reducible orders -/

/-- No path from the entry comes to a block that closes a loop but through the header. -/
def Reducible (order : LinearOrder) : Prop :=
  ∀ u h, order.isLoopEdge u h = true → ∀ path : List BlockId, path.head? = order.graph.entry →
    path.IsChain order.graph.HasEdge → path.getLast? = some u → h ∈ path

/-- A path whose edges close no loop is a forward path; else it can be cut at a loop edge. -/
theorem forward_or_loopEdge : ∀ {path : List BlockId}, path.IsChain order.graph.HasEdge →
    path.IsChain order.Forward ∨ ∃ front u h rest,
      path = front ++ u :: h :: rest ∧ order.isLoopEdge u h = true
  | [], _ => .inl .nil
  | [b], _ => .inl (.singleton b)
  | b :: c :: rest, hchain => by
    obtain ⟨hedge, hchain⟩ := List.isChain_cons_cons.1 hchain
    cases hloop : order.isLoopEdge b c with
    | true => exact .inr ⟨[], b, c, rest, rfl, hloop⟩
    | false =>
      rcases forward_or_loopEdge hchain with hforward | ⟨front, u, h, rest', heq, hloop'⟩
      · exact .inl (List.isChain_cons_cons.2 ⟨⟨hedge, hloop⟩, hforward⟩)
      · exact .inr ⟨b :: front, u, h, rest', by rw [heq]; rfl, hloop'⟩

/-- In a reducible order, what a path from the entry needs a forward path needs. -/
theorem Reducible.neededFrom_entry (hreducible : order.Reducible) {entry : BlockId}
    (hentry : order.graph.entry = some entry)
    (hneeded : order.graph.NeededFrom order.graph.HasEdge r entry) :
    order.graph.NeededFrom order.Forward r entry := by
  obtain ⟨path, hhead, hchain, hread⟩ := hneeded
  -- by induction on its length: a path with a loop edge has been at the header before, so
  -- it reads first before the loop edge or without the way around
  induction hlength : path.length using Nat.strong_induction_on generalizing path with
  | _ n ih =>
    rcases forward_or_loopEdge hchain with hforward | ⟨front, u, h, rest, rfl, hloop⟩
    · exact ⟨path, hhead, hforward, hread⟩
    have hsplit : front ++ u :: h :: rest = (front ++ [u]) ++ h :: rest := by simp
    rw [hsplit] at hhead hchain hread hlength
    obtain ⟨hfront, hrest, -⟩ := List.isChain_append.1 hchain
    have hfirst : (front ++ [u]).head? = some entry := by
      rw [List.head?_append_of_ne_nil _ (by simp)] at hhead
      exact hhead
    have hmem := hreducible u h hloop _ (hfirst.trans hentry.symm) hfront (by simp)
    obtain ⟨before, cycle, hcycle⟩ := List.append_of_mem hmem
    rw [hcycle] at hfirst hchain hread hlength hfront
    simp only [List.length_append, List.length_cons] at hlength
    rcases Graph.readFirst_shortcut hread with hread | hread
    · exact ih _ (by simp; omega) _ hfirst hfront hread rfl
    · refine ih _ (by simp; omega) _ ?_ ?_ hread rfl
      · cases before with
        | nil => exact hfirst
        | cons => exact hfirst
      · exact List.isChain_split.2 ⟨(List.isChain_split.1 hfront).1, hrest⟩

/-- Only the entry is the header of a loop around the entry. -/
theorem eq_of_loopContains_zero (h : order.Regular) {b entry : BlockId}
    (hentry : order.graph.entry = some entry) (hcontains : order.loopContains b 0 = true) :
    b = entry := by
  obtain ⟨s, hhead, hzero, rfl⟩ := h.exists_head hentry
  have hs := List.mem_of_head? hhead
  have hlt := h.contiguous.first_lt_stop s hs
  obtain ⟨t, ht, rfl, -, -, hfirst, -⟩ := (loopContains_iff h).1 hcontains
  have hlt' := h.contiguous.first_lt_stop t ht
  have hnonneg := h.contiguous.le_first t ht
  cases h.span_at_unique ht hs (p := 0) ⟨hfirst, by lia⟩ ⟨by lia, by lia⟩
  rfl

/-- If all loops are closed, a path that ends in a loop and does not start in it, except at
the header, passes the header. -/
theorem LoopsClosed.header_mem (h : order.Regular) (hclosed : order.LoopsClosed) {b : BlockId}
    (hb : b ∈ order.headers) {t : Span} (ht : t ∈ order.spans)
    (hcontains : order.loopContains b t.first = true) {path : List BlockId} {s : Span}
    (hs : s ∈ order.spans) (hhead : path.head? = some s.block)
    (houtside : order.loopContains b s.first = true → s.block = b)
    (hchain : path.IsChain order.graph.HasEdge) (hlast : path.getLast? = some t.block) :
    b ∈ path := by
  induction path generalizing s with
  | nil => cases hhead
  | cons first rest ih =>
    cases hhead
    -- the first block of the loop that the path meets is its header
    by_cases hheader : s.block = b
    · rw [hheader]
      exact List.mem_cons_self
    cases rest with
    | nil =>
      cases h.span_unique hs ht (Option.some.inj hlast)
      exact absurd (houtside hcontains) hheader
    | cons next rest =>
      obtain ⟨hedge, hchain⟩ := List.isChain_cons_cons.1 hchain
      obtain ⟨v, hv, rfl⟩ := h.exists_span_target hedge
      refine List.mem_cons_of_mem _ (ih hv rfl (fun hin => ?_) hchain hlast)
      -- an edge into the loop from outside leads to the header
      by_contra hne
      exact hheader (houtside (hclosed s hs v hv hedge b hb hin hne))

/-- An order whose loops are closed is reducible. -/
theorem LoopsClosed.reducible (h : order.Regular) (hclosed : order.LoopsClosed) :
    order.Reducible := by
  intro u b hloop path hhead hchain hlast
  have hedge := h.loopEdge ⟨u, b⟩ (by simpa [isLoopEdge] using hloop)
  obtain ⟨s, hs, rfl⟩ := h.exists_span (Graph.source_lt hedge)
  obtain ⟨t, ht, rfl⟩ := h.exists_span_target hedge
  obtain ⟨hheader, hcontains⟩ := loopContains_latch h hs ht hloop
  -- the entry is in no loop but the one that it is the header of
  cases hentry : order.graph.entry with
  | none =>
    rw [hentry, List.head?_eq_none_iff] at hhead
    simp [hhead] at hlast
  | some entry =>
    obtain ⟨first, hfirst, hzero, rfl⟩ := h.exists_head hentry
    refine hclosed.header_mem h hheader hs hcontains (List.mem_of_head? hfirst)
      (hhead.trans hentry) (fun hin => ?_) hchain hlast
    rw [hzero] at hin
    exact (eq_of_loopContains_zero h hentry hin).symm

/-! ## The analysis at the entry -/

/-- The scan finds a register live into the entry where a forward path needs it. -/
theorem liveInto_entry_iff (h : order.Regular) {span : Span} (hspan : span ∈ order.spans)
    (hzero : span.first = 0) (hentry : order.graph.entry = some span.block) :
    order.liveInto (order.scan r) span = true ↔
      order.graph.NeededFrom order.Forward r span.block := by
  rw [liveInto_iff h hspan, AliveAt]
  refine ⟨?_, .inl⟩
  rintro (hneeded | ⟨b, -, hcontains, hneeded⟩)
  · exact hneeded
  · rw [hzero] at hcontains
    exact eq_of_loopContains_zero h hentry hcontains ▸ hneeded

/-- The analysis returns, and its errors are those it looks for. -/
theorem exists_analyze (h : order.Regular) (hindexed : order.graph.Indexed)
    (regClass : Option String) : ∃ outcome, order.analyze regClass = .ok outcome ∧
      outcome.messages.errors.getD [] =
        order.readsAfterKill (order.scans regClass) ++ order.entryIssues (order.scans regClass) ∧
      (outcome.succeeded = true → outcome.messages.errors = none) := by
  refine ⟨_, analyze_eq h hindexed regClass, ?_⟩
  rw [analyzeEach]
  split
  · exact ⟨rfl, fun hsucceeded => by cases hsucceeded⟩
  · next hissues =>
    rw [Bool.not_eq_true', Bool.not_eq_false, List.isEmpty_iff] at hissues
    exact ⟨hissues.symm, fun _ => rfl⟩

end LinearOrder

/-! ## Reports -/

/-- Whether a cause is a register that is live at the entry. -/
def Issue.isLiveAtEntry : Issue → Bool
  | .liveAtEntry .. => true
  | _ => false

namespace LinearOrder

variable {order : LinearOrder}

/-- A read marked as a last use is another cause. -/
theorem isLiveAtEntry_of_mem_killIssues {needed : VReg → Option Bool} {b : BlockId}
    {issue : Issue} {p : Position} {code : List Instruction}
    (hmem : issue ∈ order.killIssues needed b p code) : issue.isLiveAtEntry = false := by
  induction code generalizing p with
  | nil => cases hmem
  | cons i rest ih =>
    obtain hmem | hmem := List.mem_append.1 hmem
    · exact ih hmem
    · obtain ⟨use, -, hissue⟩ := List.mem_filterMap.1 hmem
      obtain ⟨_, -, hissue⟩ := Option.bind_eq_some_iff.1 hissue
      rw [eq_of_killIssue? hissue]
      rfl

theorem filter_readsAfterKill (scans : List (VReg × Scan)) :
    (order.readsAfterKill scans).filter Issue.isLiveAtEntry = [] := by
  rw [List.filter_eq_nil_iff]
  intro issue hmem
  obtain ⟨span, -, hmem⟩ := List.mem_flatMap.1 hmem
  rw [isLiveAtEntry_of_mem_killIssues hmem]
  exact Bool.false_ne_true

/-- The registers that are reported at the entry: those that a forward path needs there. -/
theorem entryIssues_eq (h : order.Regular) {entry : BlockId}
    (hentry : order.graph.entry = some entry) (regClass : Option String) : ∃ rs : List VReg,
      order.entryIssues (order.scans regClass) =
        rs.map (fun r => .liveAtEntry r (order.graph.nameOf r) entry) ∧
      rs.Pairwise (· < ·) ∧ ∀ r, r ∈ rs ↔ order.graph.inClass regClass r = true ∧
        order.graph.NeededFrom order.Forward r entry := by
  obtain ⟨span, hhead, hzero, rfl⟩ := h.exists_head hentry
  refine ⟨(order.occurring regClass).filter fun r => order.liveInto (order.scan r) span, ?_,
    (pairwise_occurring order regClass).filter _, fun r => ?_⟩
  · unfold entryIssues
    rw [hhead]
    dsimp only
    rw [selectScanned_scans]
  · rw [List.mem_filter, liveInto_entry_iff h (List.mem_of_head? hhead) hzero hentry]
    constructor
    · rintro ⟨hoccurs, hneeded⟩
      exact ⟨(mem_occurring.1 hoccurs).1, hneeded⟩
    · rintro ⟨hclass, hneeded⟩
      -- a register that a path reads occurs
      obtain ⟨b, i, hi, hmentions⟩ := mentions_of_aliveAt (.inl hneeded)
      exact ⟨mem_occurring.2 ⟨hclass, Graph.mentions_iff.2 ⟨b, i, hi, hmentions⟩⟩, hneeded⟩

end LinearOrder

/-- The analysis of a linear order returns, and reports as live at the entry, each once and
in ascending order, the registers of the class that a forward path from there reads before
any write. If no loop is entered but through its header, those are the registers that any
path reads before a write. -/
theorem entry_reports_exact {g : Graph} (hg : g.Built) {order : LinearOrder}
    {messages : Messages Issue} (h : g.linearize = .ok (.success order messages))
    (regClass : Option String) : ∃ entry outcome rs,
      g.entry = some entry ∧ order.analyze regClass = .ok outcome ∧
      (outcome.messages.errors.getD []).filter Issue.isLiveAtEntry =
        rs.map (fun r => .liveAtEntry r (g.nameOf r) entry) ∧
      rs.Pairwise (· < ·) ∧ (rs ≠ [] → outcome.succeeded = false) ∧
      (∀ r, r ∈ rs ↔ g.inClass regClass r = true ∧ g.NeededFrom order.Forward r entry) ∧
      (order.Reducible →
        ∀ r, r ∈ rs ↔ g.inClass regClass r = true ∧ g.NeededFrom g.HasEdge r entry) := by
  have hregular := LinearOrder.regular_of_linearize hg.wellFormed h
  obtain ⟨entry, hentry, -, -, horder⟩ := LinearOrder.of_linearize h
  have hgraph : order.graph = g.freeze := by rw [horder]
  obtain ⟨outcome, houtcome, herrors, hsucceeded⟩ :=
    LinearOrder.exists_analyze hregular (by rw [hgraph]; exact hg.indexed) regClass
  have hentry' : order.graph.entry = some entry := by
    rw [hgraph]
    exact hentry
  obtain ⟨rs, hissues, hsorted, hmem⟩ := LinearOrder.entryIssues_eq hregular hentry' regClass
  -- the other reports are about reads, and come first
  have hreports : (outcome.messages.errors.getD []).filter Issue.isLiveAtEntry =
      rs.map (fun r => .liveAtEntry r (order.graph.nameOf r) entry) := by
    rw [herrors, List.filter_append, LinearOrder.filter_readsAfterKill, List.nil_append, hissues,
      List.filter_eq_self]
    exact List.forall_mem_map.2 fun _ _ => rfl
  have hneeded : ∀ r, order.Reducible → (order.graph.NeededFrom order.Forward r entry ↔
      order.graph.NeededFrom order.graph.HasEdge r entry) := fun r hreducible =>
    ⟨fun ⟨path, hhead, hchain, hread⟩ => ⟨path, hhead, hchain.imp fun _ _ hedge => hedge.1, hread⟩,
      hreducible.neededFrom_entry hentry'⟩
  rw [hgraph] at hreports hmem hneeded
  refine ⟨entry, outcome, rs, hentry, houtcome, hreports, hsorted, fun hrs => ?_, hmem,
    fun hreducible r => (hmem r).trans (and_congr_right fun _ => hneeded r hreducible)⟩
  -- a success has nothing to report
  rw [Bool.eq_false_iff]
  intro hsuccess
  rw [hsucceeded hsuccess] at hreports
  exact hrs (List.map_eq_nil_iff.1 hreports.symm)

/-- A loop that reads, in its header, a value that only its body writes. -/
def lateWrite : Graph := Graph.run {} [
  .createRegister {}, .addBlock, .addBlock, .addBlock, .addBlock,
  .addInstruction (1 : Nat) { opcode := "u", uses := [{ register := (0 : Nat) }] },
  .addInstruction (2 : Nat) { opcode := "d", defs := [{ register := (0 : Nat) }] },
  .addEdge (0 : Nat) (1 : Nat), .addEdge (1 : Nat) (2 : Nat), .addEdge (2 : Nat) (1 : Nat),
  .addEdge (1 : Nat) (3 : Nat)]

theorem entry_reports_exact_lateWrite : lateWrite.Built ∧ ∃ order messages outcome,
    ∃ rs : List VReg, lateWrite.linearize = .ok (.success order messages) ∧ order.Reducible ∧
      order.analyze none = .ok outcome ∧ outcome.succeeded = false ∧
      (outcome.messages.errors.getD []).filter Issue.isLiveAtEntry =
        rs.map (fun r => .liveAtEntry r (lateWrite.nameOf r) 0) ∧ 0 ∈ rs := by
  have hg : lateWrite.Built := ⟨_, rfl⟩
  have h : lateWrite.linearize = .ok (.success _ _) := rfl
  have hregular := LinearOrder.regular_of_linearize hg.wellFormed h
  have hreducible := LinearOrder.LoopsClosed.reducible hregular (by decide)
  obtain ⟨entry, outcome, rs, hentry, houtcome, hreports, -, hfails, -, hmem⟩ :=
    entry_reports_exact hg h none
  cases hentry
  have hneeded : (0 : VReg) ∈ rs := (hmem hreducible 0).2
    ⟨rfl, [0, 1], rfl, by decide, [], _, [], rfl, rfl, by simp⟩
  exact ⟨hg, _, _, outcome, rs, h, hreducible, houtcome, hfails (List.ne_nil_of_mem hneeded),
    hreports, hneeded⟩

/-- A loop that can be entered at its latch, past the block that writes what it reads. -/
def sideEntrance : Graph := Graph.run {} [
  .createRegister {}, .addBlock, .addBlock, .addBlock, .addBlock,
  .addInstruction (1 : Nat) { opcode := "d", defs := [{ register := (0 : Nat) }] },
  .addInstruction (2 : Nat) { opcode := "u", uses := [{ register := (0 : Nat) }] },
  .addEdge (0 : Nat) (1 : Nat), .addEdge (1 : Nat) (2 : Nat), .addEdge (2 : Nat) (3 : Nat),
  .addEdge (3 : Nat) (2 : Nat), .addEdge (0 : Nat) (3 : Nat)]

/-- A path reads the value before any write, and the analysis reports nothing. -/
theorem entry_unreported_sideEntrance : sideEntrance.Built ∧ ∃ order liveness,
    sideEntrance.linearize = .ok (.success order {}) ∧
      order.analyze none = .ok (.success liveness {}) ∧ sideEntrance.entry = some 0 ∧
      sideEntrance.NeededFrom sideEntrance.HasEdge 0 0 :=
  ⟨⟨_, rfl⟩, _, _, rfl, rfl, rfl, [0, 3, 2], rfl, by decide, [], _, [], rfl, rfl, by simp⟩

end RegAlloc
