import RegAlloc.Proofs.Order.Finishing
import RegAlloc.Proofs.Sorted

/-!
# Emitting blocks by counting

An emission keeps a count for every block and a list of the blocks that are ready. As long as
each count is the number of forward predecessors that are still to be emitted, and the list has
the waiting blocks whose count is zero, every turn places the block that a schedule places next.
At the start that is so if the entry is the only block without forward predecessors, which holds
when the walk from the entry meets every block.

- `Graph.unmet` — the forward predecessors of a block that are still to be placed;
- `Emission.foldl_release` — what the end of a block does to the counts and the ready blocks;
- `Emission.Counting`, `Emission.Counting.step` — the invariant of an emission;
- `Emission.Counting.emitted_steps` — a run of it places what a schedule places;
- `Graph.orderBlocks_eq_schedule` — so the two orders are the same;
- `Graph.ready_nil` — no block is left when the turns are over.
-/

namespace RegAlloc

namespace Graph

variable {g : Graph} {entry : BlockId} {backEdges : List Edge}

/-! ## Blocks that are waited for -/

/-- The forward predecessors of a block that are still to be placed. -/
def unmet (g : Graph) (backEdges : List Edge) (placed : List BlockId) (b : BlockId) :
    List BlockId :=
  (g.forwardPredecessors backEdges b).filter (· ∉ placed)

theorem isReady_iff {placed : List BlockId} {b : BlockId} :
    g.isReady backEdges placed b = true ↔ g.unmet backEdges placed b = [] := by
  simp [isReady, unmet]

theorem mem_forwardPredecessors (hg : g.WellFormed) {b s : BlockId} :
    b ∈ g.forwardPredecessors backEdges s ↔ g.HasEdge b s ∧ ⟨b, s⟩ ∉ backEdges := by
  rw [forwardPredecessors, List.mem_filter, decide_eq_true_eq, ← hg.mirrored]
  exact Iff.rfl

/-- Placing a block leaves the others that are waited for. -/
theorem unmet_concat (hg : g.WellFormed) (placed : List BlockId) (b s : BlockId) :
    g.unmet backEdges (placed ++ [b]) s = (g.unmet backEdges placed s).erase b := by
  have hnodup : (g.unmet backEdges placed s).Nodup :=
    ((hg.distinctSources s).filter _).filter _
  rw [hnodup.erase_eq_filter, unmet, unmet, List.filter_filter]
  refine List.filter_congr fun p _ => ?_
  by_cases hpb : p = b <;> simp [hpb]

/-- A block that is not placed is waited for along its edges that are no back edges. -/
theorem mem_unmet (hg : g.WellFormed) {placed : List BlockId} {b s : BlockId} (hb : b ∉ placed) :
    b ∈ g.unmet backEdges placed s ↔ s ∈ g.successors b ∧ ⟨b, s⟩ ∉ backEdges := by
  rw [unmet, List.mem_filter, mem_forwardPredecessors hg]
  simp [hb, HasEdge]

end Graph

namespace Emission

variable {g : Graph} {entry : BlockId} {backEdges : List Edge} {e : Emission}

/-! ## One turn -/

/-- The count of a block, as it is read. -/
def count (e : Emission) (b : BlockId) : Int := (e.pending.lookup b).getD 0

/-- The end of a block lowers the counts of its successors along edges that are no back edges, and
those whose count was one become ready, in the order of the successors. -/
theorem foldl_release (backEdges : List Edge) (b : BlockId) :
    ∀ (successors : List BlockId) (e : Emission), successors.Nodup →
      (successors.foldl (release backEdges b) e).emitted = e.emitted ∧
      (∀ s, (successors.foldl (release backEdges b) e).pending.lookup s =
        if s ∈ successors ∧ ⟨b, s⟩ ∉ backEdges then some (e.count s - 1)
        else e.pending.lookup s) ∧
      (successors.foldl (release backEdges b) e).ready = e.ready ++
        successors.filter fun s => ⟨b, s⟩ ∉ backEdges ∧ e.count s = 1
  | [], e, _ => by simp
  | t :: successors, e, hnodup => by
    obtain ⟨ht, hrest⟩ := List.nodup_cons.1 hnodup
    obtain ⟨hemitted, hpending, hready⟩ :=
      foldl_release backEdges b successors (release backEdges b e t) hrest
    rw [List.foldl_cons]
    by_cases hback : ⟨b, t⟩ ∈ backEdges
    · -- along a back edge nothing is released
      have hsame : release backEdges b e t = e := by rw [release, if_pos hback]
      rw [hsame] at hemitted hpending hready ⊢
      refine ⟨hemitted, fun s => ?_, ?_⟩
      · rw [hpending s]
        grind
      · rw [hready, List.filter_cons_of_neg (by simp [hback])]
    -- one block fewer to wait for
    · have hlookup : ∀ s, (release backEdges b e t).pending.lookup s =
          if s = t then some (e.count t - 1) else e.pending.lookup s := by
        intro s
        rw [release, if_neg hback]
        simpa [count] using Table.lookup_put e.pending t s (e.count t - 1)
      have hcount : ∀ s, s ≠ t → (release backEdges b e t).count s = e.count s := by
        intro s hs
        rw [count, hlookup s, if_neg hs, count]
      refine ⟨?_, fun s => ?_, ?_⟩
      · rw [hemitted, release, if_neg hback]
      · rw [hpending s, hlookup s]
        by_cases hs : s = t
        · subst hs
          simp [ht, hback]
        · simp [hs, hcount s hs]
      · have hfilter : (successors.filter fun s => ⟨b, s⟩ ∉ backEdges ∧
            (release backEdges b e t).count s = 1) =
            successors.filter fun s => ⟨b, s⟩ ∉ backEdges ∧ e.count s = 1 := by
          refine List.filter_congr fun s hs => ?_
          rw [hcount s fun hst => ht (hst ▸ hs)]
        -- it becomes ready when it waited for this one only
        have hadded : (release backEdges b e t).ready =
            if e.count t = 1 then e.ready ++ [t] else e.ready := by
          rw [release, if_neg hback]
          refine if_congr ?_ rfl rfl
          rw [count]
          omega
        rw [hready, hfilter, hadded]
        by_cases hone : e.count t = 1
        · rw [if_pos hone, List.filter_cons_of_pos (by simp [hback, hone]), List.append_assoc]
          rfl
        · rw [if_neg hone, List.filter_cons_of_neg (by simp [hone])]

/-- The counts of an emission are right, and those blocks are ready that nothing keeps waiting. -/
structure Counting (g : Graph) (backEdges : List Edge) (waiting : List BlockId) (e : Emission) :
    Prop where
  placing : g.Placing backEdges waiting e.emitted
  ascending : waiting.Pairwise (· < ·)
  counts : ∀ b < g.blocks.length,
    e.pending.lookup b = some ((g.unmet backEdges e.emitted b).length : Int)
  distinct : e.ready.Nodup
  ready : ∀ b, b ∈ e.ready ↔ b ∈ waiting ∧ g.isReady backEdges e.emitted b = true

namespace Counting

variable {waiting : List BlockId}

theorem lt (h : Counting g backEdges waiting e) {b : BlockId} (hb : b ∈ waiting) :
    b < g.blocks.length :=
  List.mem_range.1 (h.placing.perm.mem_iff.1 (List.mem_append_right e.emitted hb))

theorem not_mem_emitted (h : Counting g backEdges waiting e) {b : BlockId} (hb : b ∈ waiting) :
    b ∉ e.emitted := fun hemitted =>
  (List.nodup_append.1 (h.placing.perm.nodup_iff.2 List.nodup_range)).2.2 b hemitted b hb rfl

theorem count_eq (h : Counting g backEdges waiting e) {b : BlockId} (hb : b < g.blocks.length) :
    e.count b = (g.unmet backEdges e.emitted b).length := by
  rw [count, h.counts b hb, Option.getD_some]

/-- A block becomes ready exactly if the one that is emitted is all it waits for. -/
theorem released (hg : g.WellFormed) (h : Counting g backEdges waiting e) {b s : BlockId}
    (hb : b ∈ waiting) : (s ∈ g.successors b ∧ ⟨b, s⟩ ∉ backEdges ∧ e.count s = 1) ↔
      g.unmet backEdges e.emitted s = [b] := by
  have hout := h.not_mem_emitted hb
  constructor
  -- it waits for one block, and `b` is one that it waits for
  · rintro ⟨hedge, hforward, hone⟩
    have hlength : (g.unmet backEdges e.emitted s).length = 1 := by
      have hcount := h.count_eq (hg.target_lt b s hedge)
      omega
    obtain ⟨c, hc⟩ := List.length_eq_one_iff.1 hlength
    have hmem := (Graph.mem_unmet hg hout).2 ⟨hedge, hforward⟩
    rw [hc] at hmem ⊢
    rw [List.mem_singleton.1 hmem]
  · intro hone
    have hmem : b ∈ g.unmet backEdges e.emitted s := hone ▸ List.mem_singleton_self b
    obtain ⟨hedge, hforward⟩ := (Graph.mem_unmet hg hout).1 hmem
    have hcount := h.count_eq (hg.target_lt b s hedge)
    rw [hone] at hcount
    exact ⟨hedge, hforward, hcount⟩

/-- Whoever waits for a block that waits is waiting itself, and for someone else. -/
theorem mem_waiting_erase (hg : g.WellFormed) (h : Counting g backEdges waiting e) {b s : BlockId}
    (hb : b ∈ e.ready) (hs : b ∈ g.unmet backEdges e.emitted s) : s ∈ waiting.erase b := by
  obtain ⟨hwaits, hready⟩ := (h.ready b).1 hb
  have hout := h.not_mem_emitted hwaits
  have hne : s ≠ b := by
    rintro rfl
    rw [Graph.isReady_iff.1 hready] at hs
    cases hs
  refine (List.mem_erase_of_ne hne).2 ?_
  obtain ⟨hedge, hforward⟩ := (Graph.mem_unmet hg hout).1 hs
  have hlt := hg.target_lt b s hedge
  rcases List.mem_append.1 (h.placing.perm.mem_iff.2 (List.mem_range.2 hlt)) with
    hemitted | hwaiting
  · -- had it been emitted, the other one would have been emitted before it
    obtain ⟨front, rest, hsplit⟩ := List.append_of_mem hemitted
    have hfront := h.placing.behind front s rest hsplit b
      ((Graph.mem_forwardPredecessors hg).2 ⟨hedge, hforward⟩)
    exact absurd (hsplit ▸ List.mem_append_left _ hfront) hout
  · exact hwaiting

/-- The first block of the sorted ready list is the first waiting block that is ready. -/
theorem find_ready (h : Counting g backEdges waiting e) :
    (sortBy (fun a b => a < b) e.ready).head? = waiting.find? (g.isReady backEdges e.emitted) := by
  have hsorted : (sortBy (fun a b : BlockId => a < b) e.ready).Pairwise (· < ·) := by
    refine (pairwise_sortBy (fun x y z hxy hyz => ?_) (h.distinct.imp fun hne => ?_)).imp
      of_decide_eq_true
    · exact decide_eq_true (Nat.lt_trans (of_decide_eq_true hxy) (of_decide_eq_true hyz))
    · simpa using Nat.lt_or_gt_of_ne hne
  -- both lists are ascending and have the same blocks
  have hsame : sortBy (fun a b => a < b) e.ready =
      waiting.filter (g.isReady backEdges e.emitted) := by
    refine List.Perm.eq_of_pairwise (fun a b _ _ hab hba => ?_) hsorted
      (h.ascending.filter _) ?_
    · exact absurd hba (Nat.lt_asymm hab)
    · have hnodup : waiting.Nodup := h.ascending.imp Nat.ne_of_lt
      refine (sortBy_perm _ _).trans ((List.perm_ext_iff_of_nodup h.distinct
        (hnodup.filter _)).2 fun b => ?_)
      rw [h.ready, List.mem_filter]
  rw [hsame, List.head?_filter]

/-- Emitting the first ready block keeps the counts right. -/
theorem step (hg : g.WellFormed) (h : Counting g backEdges waiting e) {b : BlockId}
    {rest : List BlockId} (hsorted : sortBy (fun a b => a < b) e.ready = b :: rest) :
    (e.step g backEdges).emitted = e.emitted ++ [b] ∧
      Counting g backEdges (waiting.erase b) (e.step g backEdges) := by
  -- the least of the ready blocks is emitted
  have hperm : (b :: rest).Perm e.ready := hsorted ▸ sortBy_perm _ _
  have hb : b ∈ e.ready := hperm.mem_iff.1 List.mem_cons_self
  have hrestNodup := List.nodup_cons.1 (hperm.nodup_iff.2 h.distinct)
  obtain ⟨hwaits, hready⟩ := (h.ready b).1 hb
  have hout := h.not_mem_emitted hwaits
  obtain ⟨hemitted, hpending, hadded⟩ := foldl_release backEdges b (g.successors b)
    { e with ready := rest, emitted := e.emitted ++ [b] } (hg.distinct b)
  have hstep : e.step g backEdges = (g.successors b).foldl (release backEdges b)
      { e with ready := rest, emitted := e.emitted ++ [b] } := by rw [Emission.step, hsorted]
  rw [← hstep] at hemitted hpending hadded
  have hmem : ∀ s, s ∈ (e.step g backEdges).ready ↔
      s ∈ rest ∨ g.unmet backEdges e.emitted s = [b] := by
    intro s
    rw [hadded, List.mem_append, List.mem_filter, decide_eq_true_eq]
    exact or_congr_right (h.released hg hwaits)
  refine ⟨hemitted, ⟨hemitted ▸ h.placing.place hwaits hready,
    h.ascending.sublist List.erase_sublist, fun s hs => ?_, ?_, fun s => ?_⟩⟩
  · rw [hpending s, hemitted, Graph.unmet_concat hg]
    -- the successors of `b` wait for one fewer, and the others for as many as before
    by_cases hbs : b ∈ g.unmet backEdges e.emitted s
    · have hpos := List.length_pos_of_mem hbs
      rw [if_pos ((Graph.mem_unmet hg hout).1 hbs), List.length_erase_of_mem hbs]
      change some (e.count s - 1) = _
      rw [h.count_eq hs, Option.some.injEq]
      omega
    · rw [if_neg (mt (Graph.mem_unmet hg hout).2 hbs), List.erase_of_not_mem hbs]
      exact h.counts s hs
  · rw [hadded]
    refine List.nodup_append.2 ⟨hrestNodup.2, (hg.distinct b).filter _, fun s hs t ht hst => ?_⟩
    subst hst
    -- a block that was ready waits for nothing
    have hnone := Graph.isReady_iff.1
      ((h.ready s).1 (hperm.mem_iff.1 (List.mem_cons_of_mem b hs))).2
    rw [List.mem_filter, decide_eq_true_eq] at ht
    have hbmem := (Graph.mem_unmet hg hout).2 ⟨ht.1, ht.2.1⟩
    rw [hnone] at hbmem
    cases hbmem
  · rw [hmem s, hemitted, Graph.isReady_iff, Graph.unmet_concat hg]
    constructor
    -- it was ready before, or `b` was all that it waited for
    · rintro (hs | hone)
      · obtain ⟨hswaits, hsready⟩ := (h.ready s).1 (hperm.mem_iff.1 (List.mem_cons_of_mem b hs))
        have hne : s ≠ b := fun heq => hrestNodup.1 (heq ▸ hs)
        exact ⟨(List.mem_erase_of_ne hne).2 hswaits, by rw [Graph.isReady_iff.1 hsready]; rfl⟩
      · exact ⟨h.mem_waiting_erase hg hb (hone ▸ List.mem_singleton_self b), by rw [hone]; simp⟩
    · rintro ⟨hs, hnone⟩
      have hswaits := List.mem_of_mem_erase hs
      have hnodup : waiting.Nodup := h.ascending.imp Nat.ne_of_lt
      have hne : s ≠ b := fun heq => hnodup.not_mem_erase (heq ▸ hs)
      -- whether it waited for `b`
      by_cases hbs : b ∈ g.unmet backEdges e.emitted s
      · have hcons := List.perm_cons_erase hbs
        rw [hnone] at hcons
        exact .inr (List.perm_singleton.1 hcons)
      · rw [List.erase_of_not_mem hbs] at hnone
        have hsready := (h.ready s).2 ⟨hswaits, Graph.isReady_iff.2 hnone⟩
        exact .inl ((List.mem_cons.1 (hperm.mem_iff.2 hsready)).resolve_left hne)

/-! ## Whole emissions -/

/-- A run of an emission places what a schedule places in as many steps. -/
theorem emitted_steps (hg : g.WellFormed) : ∀ (n : Nat) {waiting : List BlockId} {e : Emission},
    Counting g backEdges waiting e →
      (steps g backEdges n e).emitted = g.placeNext backEdges n waiting e.emitted
  | 0, _, _, _ => rfl
  | n + 1, waiting, e, h => by
    have hfind := h.find_ready
    rw [steps, Graph.placeNext]
    cases hsorted : sortBy (fun a b => a < b) e.ready with
    | nil =>
      -- nothing is ready, now or later
      have hidle : e.step g backEdges = e := by rw [Emission.step, hsorted]
      rw [hsorted, List.head?_nil] at hfind
      rw [hidle, emitted_steps hg n h, ← hfind]
      cases n with
      | zero => rfl
      | succ n => rw [Graph.placeNext, ← hfind]
    | cons b rest =>
      obtain ⟨hemitted, hnext⟩ := h.step hg hsorted
      rw [hsorted, List.head?_cons] at hfind
      rw [emitted_steps hg n hnext, hemitted, ← hfind]

theorem steps (hg : g.WellFormed) : ∀ (n : Nat) {waiting : List BlockId} {e : Emission},
    Counting g backEdges waiting e →
      ∃ left, Counting g backEdges left (Emission.steps g backEdges n e)
  | 0, waiting, _, h => ⟨waiting, h⟩
  | n + 1, waiting, e, h => by
    rw [Emission.steps]
    cases hsorted : sortBy (fun a b => a < b) e.ready with
    | nil =>
      have hidle : e.step g backEdges = e := by rw [Emission.step, hsorted]
      rw [hidle]
      exact steps hg n h
    | cons b rest => exact steps hg n (h.step hg hsorted).2

/-- At the start the counts are right if the entry alone has no forward predecessors. -/
theorem start (hentry : ∀ b, b = entry ↔
      b < g.blocks.length ∧ g.forwardPredecessors backEdges b = []) :
    Counting g backEdges (List.range g.blocks.length) (Emission.start g entry backEdges) where
  placing := ⟨List.Perm.refl _, fun front b rest h => by simp [Emission.start] at h⟩
  ascending := List.pairwise_lt_range
  counts b hb := by
    have hnodup : ((List.range g.blocks.length).map id).Nodup := by
      rw [List.map_id]
      exact List.nodup_range
    have hlookup : ((List.range g.blocks.length).map fun c =>
        (id c, ((g.forwardPredecessors backEdges c).length : Int))).lookup b = some _ :=
      Table.lookup_map hnodup b (List.mem_range.2 hb)
    simpa [Emission.start, Graph.unmet] using hlookup
  distinct := List.pairwise_singleton _ entry
  ready b := by
    rw [Graph.isReady_iff, List.mem_range]
    simpa [Emission.start, Graph.unmet] using hentry b

end Counting

end Emission

namespace Graph

variable {g : Graph} {entry : BlockId} {w : Walk}

/-! ## Where an emission starts -/

/-- The first block of a schedule is the one at which the walk started: into any other
there is an edge along which it has to wait. -/
theorem head_schedule (hg : g.WellFormed) (hwalk : Walk.Inv g entry w) {b : BlockId}
    {rest : List BlockId} (hblocks : g.schedule w.backEdges = b :: rest) (hb : b ∈ w.reached) :
    b = entry := by
  refine Decidable.byContradiction fun hne => ?_
  obtain ⟨x, hedge, hforward⟩ := hwalk.forward_parent hb hne
  have hbefore : x ∈ [] := forward_before hg.mirrored hblocks hedge hforward
  cases hbefore

/-- If the walk from the entry meets every block, the entry alone has no forward predecessors. -/
theorem eq_entry_iff (hg : g.WellFormed) (hentry : entry < g.blocks.length)
    (hreached : ∀ b < g.blocks.length, b ∈ (g.walk entry).reached) (b : BlockId) :
    b = entry ↔
      b < g.blocks.length ∧ g.forwardPredecessors (g.walk entry).backEdges b = [] := by
  have hwalk := Walk.Inv.walk g entry
  constructor
  · rintro rfl
    refine ⟨hentry, List.eq_nil_iff_forall_not_mem.2 fun p hp => ?_⟩
    -- a forward edge into the entry would need a block before it
    obtain ⟨hedge, hforward⟩ := (mem_forwardPredecessors hg).1 hp
    have hlength := length_schedule hg hentry hreached
    cases hscheduled : g.schedule (g.walk b).backEdges with
    | nil =>
      rw [hscheduled, List.length_nil] at hlength
      lia
    | cons first rest =>
      -- the entry comes first, so nothing can stand before it
      have hfirst : first ∈ g.schedule (g.walk b).backEdges := by simp [hscheduled]
      have hlt := List.mem_range.1 ((schedule_perm hlength).mem_iff.1 hfirst)
      cases head_schedule hg hwalk hscheduled (hreached first hlt)
      have hbefore : p ∈ [] := forward_before hg.mirrored hscheduled hedge hforward
      cases hbefore
  · rintro ⟨hb, hnone⟩
    refine Decidable.byContradiction fun hne => ?_
    obtain ⟨p, hedge, hforward⟩ := hwalk.forward_parent (hreached b hb) hne
    have hp := (mem_forwardPredecessors hg).2 ⟨hedge, hforward⟩
    rw [hnone] at hp
    cases hp

/-- A schedule takes one step for every block that waits. -/
theorem placeNext_succ {backEdges : List Edge} : ∀ {fuel : Nat} {waiting placed : List BlockId},
    waiting.length ≤ fuel →
      g.placeNext backEdges (fuel + 1) waiting placed = g.placeNext backEdges fuel waiting placed
  | 0, waiting, placed, hlength => by
    rw [List.length_eq_zero_iff.1 (Nat.le_zero.1 hlength)]
    rfl
  | fuel + 1, waiting, placed, hlength => by
    rw [placeNext, placeNext]
    cases hfound : waiting.find? (g.isReady backEdges placed) with
    | none => rfl
    | some b =>
      refine placeNext_succ ?_
      rw [List.length_erase_of_mem (List.mem_of_find?_eq_some hfound)]
      omega

/-! ## The order of emission -/

section Order

variable (hg : g.WellFormed) (hentry : entry < g.blocks.length)
  (hreached : ∀ b < g.blocks.length, b ∈ (g.walk entry).reached)

include hg hentry hreached

/-- Counting gives the blocks in the order of the schedule, if the walk meets every block. -/
theorem orderBlocks_eq_schedule :
    g.orderBlocks entry (g.walk entry).backEdges = g.schedule (g.walk entry).backEdges := by
  have hstart := Emission.Counting.start (eq_entry_iff hg hentry hreached)
  rw [orderBlocks, hstart.emitted_steps hg, schedule]
  exact placeNext_succ (Nat.le_of_eq List.length_range)

/-- No block is left ready when the turns are over, so none is lost for want of a turn. -/
theorem ready_nil : (Emission.steps g (g.walk entry).backEdges (g.blocks.length + 1)
    (Emission.start g entry (g.walk entry).backEdges)).ready = [] := by
  have hstart := Emission.Counting.start (eq_entry_iff hg hentry hreached)
  obtain ⟨left, hcounting⟩ := hstart.steps hg (g.blocks.length + 1)
  have hemitted := orderBlocks_eq_schedule hg hentry hreached
  have hlength := hcounting.placing.perm.length_eq
  rw [orderBlocks] at hemitted
  rw [List.length_append, hemitted, length_schedule hg hentry hreached,
    List.length_range] at hlength
  have hleft : left = [] := List.length_eq_zero_iff.1 (by omega)
  refine List.eq_nil_iff_forall_not_mem.2 fun b hb => ?_
  have hwaits := ((hcounting.ready b).1 hb).1
  rw [hleft] at hwaits
  cases hwaits

end Order

end Graph

end RegAlloc
