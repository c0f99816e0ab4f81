import Mathlib.Data.List.Find
import Mathlib.Data.List.Sort
import RegAlloc.Proofs.Allocation.Listing
import RegAlloc.Proofs.Allocation.Operands
import RegAlloc.Proofs.Allocation.Placement

/-!
# A printed allocation shows everything once

Printing looks groups of moves up: those of a gap by the slot behind it, those of an edge by the
block that the edge leaves. Nothing is lost and nothing shown twice, since every gap with moves
has a slot behind it, no two groups share a gap, and the groups on edges already stand in the
order of their blocks. No look-up fails, since all registers are declared, and every operand of a
class that was allocated is in some piece.

- `Allocation.Finished` — an allocation that went through all stages;
- `Finished.filterMap_gapBefore?` — the gaps before all slots are all gaps with moves;
- `Finished.flatMap_edges` — the edges that leave all blocks are all edges with moves;
- `Finished.lines_eq_ok` — printing returns the lines that there should be;
- `Finished.exists_valueText`, `Finished.exists_moveText` — operands have names and locations, and
  moves have names;
- `printed_once` — what they show of a successful allocation.
-/

namespace RegAlloc

/-! ## Looking up -/

theorem Graph.exists_register? {g : Graph} {r : VReg}
    (h : ∃ k : Nat, r = k ∧ k < g.registers.length) :
    ∃ register, g.register? r = some register := by
  obtain ⟨k, rfl, hk⟩ := h
  exact ⟨g.registers[k], List.getElem?_eq_getElem hk⟩

namespace LinearOrder.Regular

variable {order : LinearOrder} {slot : Slot}

/-- The slots stand at consecutive even positions. -/
theorem position_slot (h : order.Regular) {k : Nat} (hk : order.slots[k]? = some slot) :
    slot.position = stride * k := by
  have hat : order.slotAt? (stride * k) = some slot := by
    rw [slotAt?, if_neg (by lia), ← hk]
    congr 1
    lia
  have := (h.slotAt _ _ hat).1
  lia

/-- The slots stand in the order of their positions. -/
theorem sorted_slots (h : order.Regular) :
    order.slots.Pairwise fun s t => s.position < t.position := by
  refine List.pairwise_iff_getElem.2 fun k l hk hl hlt => ?_
  rw [h.position_slot (List.getElem?_eq_getElem hk), h.position_slot (List.getElem?_eq_getElem hl)]
  lia

/-- A slot is found at its position. -/
theorem slotAt?_position (h : order.Regular) (hslot : slot ∈ order.slots) :
    order.slotAt? slot.position = some slot := by
  obtain ⟨k, hk⟩ := List.getElem?_of_mem hslot
  rw [h.position_slot hk, slotAt?, if_neg (by lia), ← hk]
  congr 1
  lia

end LinearOrder.Regular

/-- The instruction of a slot stands at its position. -/
theorem LinearOrder.stands_of_mem_slots {order : LinearOrder} {slot : Slot} {i : Instruction}
    (hslots : order.slots = order.spans.flatMap order.graph.slotsIn) (hslot : slot ∈ order.slots)
    (hi : slot.instruction = some i) : order.Stands slot.position i := by
  rw [hslots] at hslot
  obtain ⟨span, hspan, hslot⟩ := List.mem_flatMap.1 hslot
  obtain ⟨-, ⟨-, hnone⟩ | ⟨k, j, hj, hposition, hsome⟩⟩ := Graph.mem_slotsIn hslot
  · cases hnone.symm.trans hi
  · cases hsome.symm.trans hi
    exact ⟨span, hspan, k, hj, hposition⟩

namespace Allocation

variable {a : Allocation} {regClass : Option String} {span : Span} {slot : Slot}

/-- An allocation that went through all stages. -/
structure Finished (a : Allocation) (regClass : Option String) : Prop
    extends Arranged a regClass where
  gaps : resolveGaps a.order a.liveness a.scratch = .ok a.resolution.gaps
  edges : resolveEdges a.order a.liveness a.scratch = .ok a.resolution.edges
  slots : a.order.slots = a.order.spans.flatMap a.order.graph.slotsIn

/-- The groups of moves on the edges that leave a block. -/
def edgesFrom (a : Allocation) (span : Span) : List EdgeMoves :=
  (a.order.graph.successors span.block).filterMap fun b =>
    (edgeMoves? a.order a.liveness a.scratch span b).toOption.join

theorem source_of_mem_edgesFrom {group : EdgeMoves} (h : group ∈ a.edgesFrom span) :
    group.source = span.block := by
  obtain ⟨b, -, hfound⟩ := List.mem_filterMap.1 h
  cases hmoves : edgeMoves? a.order a.liveness a.scratch span b with
  | error v =>
    rw [hmoves] at hfound
    cases hfound
  | ok found =>
    rw [hmoves] at hfound
    cases hfound
    exact (Arranged.ends_of_edgeMoves? hmoves).1

/-- The groups of moves on edges, block by block. -/
theorem Arranged.resolveEdges_eq_ok (h : a.Arranged regClass) :
    resolveEdges a.order a.liveness a.scratch = .ok (a.order.spans.flatMap a.edgesFrom) := by
  have hrows : (a.order.spans.mapM fun span => (a.order.graph.successors span.block).mapM
      (edgeMoves? a.order a.liveness a.scratch span)) = .ok _ :=
    mapM_eq_ok_map fun span _ => mapM_eq_ok_map
      (g := fun b => (edgeMoves? a.order a.liveness a.scratch span b).toOption.join) fun b hb => by
        obtain ⟨target, htarget, rfl⟩ := h.regular.exists_span_target hb
        obtain ⟨found, hfound, -⟩ := h.exists_edgeMoves? span htarget
        rw [hfound]
        rfl
  rw [resolveEdges, hrows]
  simp only [bind, Except.bind, pure, Except.pure, List.filterMap_flatten, List.map_map,
    List.flatMap_def]
  congr 2
  exact List.map_congr_left fun span _ => by simp [edgesFrom, List.filterMap_map]

namespace Finished

/-- The edges that leave all blocks, one block after the other, are all edges. -/
theorem flatMap_edges (h : a.Finished regClass) :
    (a.order.spans.flatMap fun span => a.resolution.edges.filter (·.source == (span.block : Ref))) =
      a.resolution.edges := by
  have heq : a.resolution.edges = a.order.spans.flatMap a.edgesFrom :=
    Except.ok.inj (h.edges.symm.trans h.resolveEdges_eq_ok)
  have hnodup : (a.order.spans.map fun span => (span.block : Ref)).Nodup := by
    refine List.pairwise_map.2 ((List.pairwise_map.1 h.regular.nodup).imp fun {s t} hne hsame => ?_)
    exact hne (Option.some.inj (congrArg Ref.index? hsame : (s.block : Ref).index? = _))
  rw [heq]
  exact List.flatMap_congr fun span hspan =>
    filter_flatMap_key hnodup (fun _ _ hgroup => source_of_mem_edgesFrom hgroup) hspan

/-- A group of moves in a gap has a slot of its block right behind it. -/
theorem exists_slot_of_mem_gaps (h : a.Finished regClass) {group : GapMoves}
    (hgroup : group ∈ a.resolution.gaps) :
    ∃ slot ∈ a.order.slots, slot.position = group.position + 1 ∧ slot.block = group.block := by
  obtain ⟨gaps, hgaps', hmoves, -⟩ := h.exists_resolveGaps
  cases h.gaps.symm.trans hgaps'
  -- the group has a move, so some value crosses there, and an instruction follows
  obtain ⟨m, hm⟩ := List.exists_mem_of_ne_nil _ (hmoves group hgroup).1
  obtain ⟨life, i, j, hcross, -⟩ := mem_gapTransfers.1 (Move.mem_moving.1 hm).1
  have hodd := hcross.odd
  have hgaps := h.gaps
  rw [resolveGaps_eq, bind_eq_ok] at hgaps
  obtain ⟨groups, -, hgaps⟩ := hgaps
  obtain ⟨found, -, hfound⟩ := (mem_of_mapM_eq_ok hgaps).1 hgroup
  obtain ⟨hposition, hblock⟩ := of_orderGap hfound
  rw [← hposition] at hblock
  obtain ⟨slot, hslot, hsame⟩ := Option.map_eq_some_iff.1 hblock
  have hat := (h.regular.slotAt _ _ hslot).1
  rw [LinearOrder.slotAt?] at hslot
  split at hslot
  · cases hslot
  · exact ⟨slot, List.mem_of_getElem? hslot, by lia, hsame⟩

/-- A group of moves in the gap before a slot is of the same block. -/
theorem block_of_mem_gaps (h : a.Finished regClass) {group : GapMoves}
    (hgroup : group ∈ a.resolution.gaps) (hslot : slot ∈ a.order.slots)
    (hposition : group.position = slot.position - 1) : group.block = slot.block := by
  obtain ⟨other, hother, hbehind, hblock⟩ := h.exists_slot_of_mem_gaps hgroup
  have hat := h.regular.slotAt?_position hother
  rw [hbehind, hposition, Int.sub_add_cancel, h.regular.slotAt?_position hslot] at hat
  rw [← hblock, ← Option.some.inj hat]

/-- The gaps before all slots, one after the other, are all gaps with moves. -/
theorem filterMap_gapBefore? (h : a.Finished regClass) :
    a.order.slots.filterMap a.gapBefore? = a.resolution.gaps := by
  have hat : ∀ {slot group}, a.gapBefore? slot = some group →
      group ∈ a.resolution.gaps ∧ group.position = slot.position - 1 := fun hgroup =>
    ⟨List.mem_of_find?_eq_some hgroup, by simpa using List.find?_some hgroup⟩
  -- both lists are in the order of their positions, so it is enough to compare their members
  have hirrefl : Std.Irrefl fun x y : GapMoves => x.position < y.position :=
    ⟨fun x => Int.lt_irrefl x.position⟩
  refine List.Pairwise.eq_of_mem_iff (r := fun x y => x.position < y.position) ?_
    (sorted_gaps h.gaps) fun group => ?_
  · refine List.pairwise_filterMap.2 (h.regular.sorted_slots.imp fun hlt x hx y hy => ?_)
    rw [(hat hx).2, (hat hy).2]
    lia
  · rw [List.mem_filterMap]
    refine ⟨fun ⟨slot, _, hfound⟩ => (hat hfound).1, fun hgroup => ?_⟩
    obtain ⟨slot, hslot, hposition, -⟩ := h.exists_slot_of_mem_gaps hgroup
    refine ⟨slot, hslot, ?_⟩
    -- only one group is at the position
    cases hfound : a.gapBefore? slot with
    | none =>
      have hnot := List.find?_eq_none.1 hfound group hgroup
      simp [hposition] at hnot
    | some other =>
      obtain ⟨hother, hsame⟩ := hat hfound
      exact congrArg some (List.inj_on_of_nodup_map (List.pairwise_map.2 (pairwise_gaps h.gaps))
        hother hgroup (by lia))

/-! ## Names -/

/-- A register that occurs is declared. -/
theorem declared_of_life (h : a.Finished regClass) {life : Lifetime}
    (hlife : life ∈ a.liveness.lives) :
    ∃ k : Nat, life.register = k ∧ k < a.order.graph.registers.length :=
  LinearOrder.declared_of_occurring h.regular ((h.occurs life.register).2 ⟨life, hlife, rfl⟩)

theorem declared_of_liveInto (h : a.Finished regClass) (hspan : span ∈ a.order.spans) {r : VReg}
    (hr : r ∈ a.liveness.liveInto span.block) :
    ∃ k : Nat, r = k ∧ k < a.order.graph.registers.length :=
  LinearOrder.declared_of_occurring h.regular ((h.liveInto span hspan r).1 hr).1

theorem declared_of_used (h : a.Finished regClass) {p : Position} {i : Instruction}
    (hstands : a.order.Stands p i) {r : VReg} {u : UsePoint} (hused : Track.UsedBy r p i u) :
    ∃ k : Nat, r = k ∧ k < a.order.graph.registers.length := by
  obtain ⟨span, -, k, hi, -⟩ := hstands
  exact h.regular.wellFormed.declared span.block i (List.mem_of_getElem? hi) r hused.mentions

/-- The moves of a gap are of declared registers. -/
theorem declared_of_gapMove (h : a.Finished regClass) {group : GapMoves}
    (hgroup : group ∈ a.resolution.gaps) : ∀ m ∈ group.moves,
      ∃ k : Nat, m.register = k ∧ k < a.order.graph.registers.length := by
  intro m hm
  obtain ⟨gaps, hgaps', hmoves, -⟩ := h.exists_resolveGaps
  cases h.gaps.symm.trans hgaps'
  obtain ⟨x, hx, hregister⟩ :=
    Move.exists_register_of_sequence (hmoves group hgroup).2 h.target_ne_scratch hm
  obtain ⟨life, i, j, hcross, hlife, -⟩ := mem_gapTransfers.1 hx
  rw [← hregister, hlife]
  exact h.declared_of_life hcross.mem

/-- The moves of an edge are of declared registers. -/
theorem declared_of_edgeMove (h : a.Finished regClass)
    {group : EdgeMoves} (hgroup : group ∈ a.resolution.edges) : ∀ m ∈ group.moves,
      ∃ k : Nat, m.register = k ∧ k < a.order.graph.registers.length := by
  intro m hm
  obtain ⟨span, hspan, b, -, hfound⟩ := (Arranged.mem_edges h.edges).1 hgroup
  obtain ⟨target, htarget, -, -, hmoves⟩ :=
    h.of_mem_edges h.edges hgroup hspan (Arranged.ends_of_edgeMoves? hfound).1
  obtain ⟨x, hx, hregister⟩ := Move.exists_register_of_sequence hmoves
    (fun m hm => (h.place_of_edgeTransfer m hm).2) hm
  rw [← hregister]
  exact h.declared_of_liveInto htarget (mem_edgeTransfers.1 hx).1

end Finished

/-! ## Printing -/

theorem shown_eq_ok {r : VReg} (h : ∃ k : Nat, r = k ∧ k < a.order.graph.registers.length)
    (p : Position) : a.shown p r = .ok (a.printedValue p r) := by
  obtain ⟨register, hregister⟩ := Graph.exists_register? h
  rw [shown, Graph.findRegister, hregister, printedValue, Graph.nameOf, hregister]
  rfl

theorem showMoves_eq_ok {moves : List Move}
    (h : ∀ m ∈ moves, ∃ k : Nat, m.register = k ∧ k < a.order.graph.registers.length) :
    moves.mapM a.showMove = .ok (moves.map a.printedMove) := by
  refine mapM_eq_ok_map fun m hm => ?_
  obtain ⟨register, hregister⟩ := Graph.exists_register? (h m hm)
  rw [showMove, Graph.findRegister, hregister, printedMove, Graph.nameOf, hregister]
  rfl

namespace Finished

theorem liveInLines_eq_ok (h : a.Finished regClass) (hspan : span ∈ a.order.spans) :
    a.liveInLines span = .ok (a.printedLiveIn span) := by
  have hvalues : (a.liveness.liveInto span.block).mapM (a.shown span.first) = .ok _ :=
    mapM_eq_ok_map fun r hr => shown_eq_ok (h.declared_of_liveInto hspan hr) span.first
  rw [liveInLines, hvalues, printedLiveIn]
  cases a.liveness.liveInto span.block with
  | nil => rfl
  | cons r rest => rfl

theorem gapLines_eq_ok (h : a.Finished regClass)
    (hslot : slot ∈ a.order.slots) :
    a.gapLines slot = .ok ((a.gapBefore? slot).toList.map a.printedGap) := by
  -- comparing positions is enough
  have hfind : a.resolution.gaps.find? (fun group =>
      group.position == slot.position - 1 && group.block == slot.block) = a.gapBefore? slot := by
    refine List.find?_congr fun group hgroup => ?_
    by_cases hposition : group.position = slot.position - 1
    · simp [hposition, h.block_of_mem_gaps hgroup hslot hposition]
    · simp [hposition]
  rw [gapLines, hfind]
  cases hfound : a.gapBefore? slot with
  | none => rfl
  | some group =>
    have hmoves := showMoves_eq_ok
      (h.declared_of_gapMove (List.mem_of_find?_eq_some hfound))
    exact bind_eq_ok.2 ⟨_, hmoves, rfl⟩

theorem slotLine_eq_ok (h : a.Finished regClass)
    (hslot : slot ∈ a.order.slots) : a.slotLine slot = .ok (a.printedCode slot) := by
  rw [slotLine, printedCode]
  cases hi : slot.instruction with
  | none => rfl
  | some i =>
    have hstands := LinearOrder.stands_of_mem_slots h.slots hslot hi
    have huses : (i.uses.mapM fun use => a.shown slot.position use.register) = .ok _ :=
      mapM_eq_ok_map fun use huse =>
        shown_eq_ok (h.declared_of_used hstands (.inr ⟨use, huse, rfl, rfl⟩)) slot.position
    have hdefs : (i.defs.mapM fun d => a.shown (slot.position + 1) d.register) = .ok _ :=
      mapM_eq_ok_map fun d hd =>
        shown_eq_ok (h.declared_of_used hstands (.inl ⟨d, hd, rfl, rfl⟩)) (slot.position + 1)
    exact bind_eq_ok.2 ⟨_, huses, bind_eq_ok.2 ⟨_, hdefs, rfl⟩⟩

theorem blockLines_eq_ok (h : a.Finished regClass)
    (hspan : span ∈ a.order.spans) : a.blockLines span = .ok (a.printedBlock span) := by
  -- every slot is printed with its block
  have howned : a.order.slots.filter (·.block == span.block) = a.order.graph.slotsIn span := by
    rw [h.slots]
    exact Graph.filter_flatMap_slotsIn h.regular.nodup hspan
  have hrows : ((a.order.graph.slotsIn span).mapM fun slot => do
        return (← a.gapLines slot) ++ [← a.slotLine slot]) =
      .ok ((a.order.graph.slotsIn span).map a.printedSlot) := by
    refine mapM_eq_ok_map fun slot hslot => ?_
    rw [← howned] at hslot
    have hmem := List.mem_of_mem_filter hslot
    exact bind_eq_ok.2 ⟨_, h.gapLines_eq_ok hmem,
      bind_eq_ok.2 ⟨_, h.slotLine_eq_ok hmem, rfl⟩⟩
  have hgroups : ((a.resolution.edges.filter (·.source == (span.block : Ref))).mapM fun group => do
        return Line.edge group.target group.placement (← group.moves.mapM a.showMove)) =
      .ok ((a.resolution.edges.filter (·.source == (span.block : Ref))).map a.printedEdge) := by
    refine mapM_eq_ok_map fun group hgroup => ?_
    exact bind_eq_ok.2 ⟨_, showMoves_eq_ok
      (h.declared_of_edgeMove (List.mem_of_mem_filter hgroup)), rfl⟩
  rw [blockLines, howned]
  exact bind_eq_ok.2 ⟨_, h.liveInLines_eq_ok hspan,
    bind_eq_ok.2 ⟨_, hrows, bind_eq_ok.2 ⟨_, hgroups, rfl⟩⟩⟩

/-- Printing returns the lines of the allocation. -/
theorem lines_eq_ok (h : a.Finished regClass) :
    a.lines = .ok a.printed :=
  bind_eq_ok.2 ⟨_, mapM_eq_ok_map fun _ hspan => h.blockLines_eq_ok hspan, rfl⟩

end Finished

/-! ## What is shown -/

@[simp] theorem kind_printedGap (group : GapMoves) : (a.printedGap group).kind = .gap := rfl

@[simp] theorem kind_printedEdge (group : EdgeMoves) : (a.printedEdge group).kind = .edge := rfl

@[simp] theorem kind_printedCode (slot : Slot) : (a.printedCode slot).kind = .code := by
  rw [printedCode]
  split <;> rfl

/-- The lines about slots, gaps and edges come from the slots of the blocks and from the edges
that leave them. -/
theorem filter_printed {kind : Line.Kind} (hkind : kind ≠ .frame) :
    a.printed.filter (·.kind == kind) = a.order.spans.flatMap fun span =>
      (a.order.graph.slotsIn span).flatMap (fun slot =>
        (a.printedSlot slot).filter (·.kind == kind)) ++
      ((a.resolution.edges.filter (·.source == (span.block : Ref))).map a.printedEdge).filter
        (·.kind == kind) := by
  -- what frames the listing is of no other kind
  have hframe : ∀ {line : Line}, line.kind = .frame → (line.kind == kind) = false := by
    intro line hline
    rw [hline, beq_eq_false_iff_ne]
    exact hkind.symm
  have hopening : ((Line.opening a.registers a.slotCount).kind == kind) = false := hframe rfl
  have hheader : ∀ span successors, ((Line.header span successors).kind == kind) = false :=
    fun _ _ => hframe rfl
  have hliveIn : ∀ span, (a.printedLiveIn span).filter (·.kind == kind) = [] := by
    intro span
    rw [printedLiveIn]
    split
    · rfl
    · rw [List.filter_cons, hframe rfl]
      rfl
  have hclosing : (Line.closing.kind == kind) = false := hframe rfl
  simp only [printed, printedBlock, List.filter_cons, hopening, hheader, hclosing, hliveIn,
    List.filter_append, List.filter_flatMap, List.filter_nil, List.nil_append, List.append_nil,
    if_false, Bool.false_eq_true]

namespace Finished

/-- The lines about slots are those of all slots, once each. -/
theorem code_printed (h : a.Finished regClass) :
    a.printed.filter (·.kind == .code) = a.order.slots.map a.printedCode := by
  have hslot : ∀ slot, (a.printedSlot slot).filter (·.kind == .code) = [a.printedCode slot] := by
    intro slot
    simp [printedSlot, List.filter_map, Function.comp_def]
  have hedge : ∀ groups : List EdgeMoves,
      (groups.map a.printedEdge).filter (·.kind == .code) = [] := by
    intro groups
    simp [List.filter_map, Function.comp_def]
  rw [filter_printed (by decide), h.slots]
  simp only [hslot, hedge, List.append_nil, ← List.flatMap_assoc]
  exact List.flatMap_pure_eq_map a.printedCode _

/-- The lines about gaps are those of all groups of moves in gaps, once each. -/
theorem gaps_printed (h : a.Finished regClass) :
    a.printed.filter (·.kind == .gap) = a.resolution.gaps.map a.printedGap := by
  have hslot : ∀ slot, (a.printedSlot slot).filter (·.kind == .gap) =
      (a.gapBefore? slot).toList.map a.printedGap := by
    intro slot
    simp [printedSlot, List.filter_map, Function.comp_def]
  have hedge : ∀ groups : List EdgeMoves,
      (groups.map a.printedEdge).filter (·.kind == .gap) = [] := by
    intro groups
    simp [List.filter_map, Function.comp_def]
  rw [filter_printed (by decide)]
  simp only [hslot, hedge, List.append_nil, ← List.flatMap_assoc, ← h.slots]
  rw [← List.map_flatMap, ← List.filterMap_eq_flatMap_toList, h.filterMap_gapBefore?]

/-- The lines about edges are those of all groups of moves on edges, once each. -/
theorem edges_printed (h : a.Finished regClass) :
    a.printed.filter (·.kind == .edge) = a.resolution.edges.map a.printedEdge := by
  have hslots : ∀ slots : List Slot,
      slots.flatMap (fun slot => (a.printedSlot slot).filter (·.kind == .edge)) = [] := by
    intro slots
    simp [printedSlot, List.filter_map, Function.comp_def]
  have hedge : ∀ groups : List EdgeMoves, (groups.map a.printedEdge).filter (·.kind == .edge) =
      groups.map a.printedEdge := by
    intro groups
    simp [List.filter_map, Function.comp_def]
  rw [filter_printed (by decide)]
  simp only [hslots, hedge, List.nil_append]
  rw [← List.map_flatMap, h.flatMap_edges]

/-- An operand of a class that was allocated is shown with a location. -/
theorem exists_valueText (h : a.Finished regClass) {p : Position} {i : Instruction}
    (hstands : a.order.Stands p i) {r : VReg}
    (hclass : a.order.graph.inClass regClass r = true) {u : UsePoint}
    (hused : Track.UsedBy r p i u) : ∃ register l, a.order.graph.register? r = some register ∧
      a.locate? r u.position = some l ∧
      a.valueText u.position r = register.name ++ ":" ++ l.text := by
  obtain ⟨register, hregister⟩ := Graph.exists_register? (h.declared_of_used hstands hused)
  obtain ⟨l, hl, -⟩ := h.locate?_of_used hstands hclass hused
  refine ⟨register, l, hregister, hl, ?_⟩
  rw [valueText, hl, Graph.nameOf, hregister]
  rfl

/-- A move is shown with the name of what it moves. -/
theorem exists_moveText {m : Move}
    (h : ∃ k : Nat, m.register = k ∧ k < a.order.graph.registers.length) :
    ∃ register, a.order.graph.register? m.register = some register ∧
      a.moveText m = register.name ++ " " ++ m.source.text ++ " -> " ++ m.target.text := by
  obtain ⟨register, hregister⟩ := Graph.exists_register? h
  refine ⟨register, hregister, ?_⟩
  rw [moveText, Graph.nameOf, hregister]
  rfl

end Finished

end Allocation

/-- Every successful allocation went through all stages. -/
theorem Graph.finished_of_allocate {g : Graph} (hg : g.Built) {options : Options} {a : Allocation}
    {messages : Messages Issue} (h : g.allocate options = .ok (.success a messages)) :
    a.Finished options.regClass := by
  obtain ⟨hgaps, hedges⟩ := resolution_of_allocate h
  obtain ⟨_, hordered⟩ := linearize_of_allocate h
  exact ⟨arranged_of_allocate hg h, hgaps, hedges, LinearOrder.slots_of_linearize hordered⟩

/-- A printed allocation shows everything once. Printing a successful allocation returns its lines
block by block, each written as in the listing. Every slot has one line, in the order of positions;
every group of moves in a gap has one line, right before that of the slot behind the gap; and every
group of moves on an edge has one line, in the block that the edge leaves. In the text of a line
stand the moves of its group, with the names of what they move and from where to where, and the
operands of its instruction, of which those of a class that was allocated have a name and a
location. -/
theorem printed_once {g : Graph} (hg : g.Built) {options : Options} {a : Allocation}
    {messages : Messages Issue} (h : g.allocate options = .ok (.success a messages)) :
    a.lines = .ok a.printed ∧
    (a.print = .ok ("\n".intercalate (a.printed.map (·.text))) ∧
      a.printed.map (·.text) = a.listing) ∧
    (a.printed.filter (·.kind == .code) = a.order.slots.map a.printedCode ∧
      (a.order.slots.Pairwise fun s t => s.position < t.position) ∧
      ∀ slot, (a.printedCode slot).text = a.codeText slot) ∧
    (a.printed.filter (·.kind == .gap) = a.resolution.gaps.map a.printedGap ∧
      ∀ group ∈ a.resolution.gaps, (a.printedGap group).text = a.gapText group ∧
        ∀ m ∈ group.moves, ∃ register, g.register? m.register = some register ∧
          (register.name ++ " " ++ m.source.text ++ " -> " ++ m.target.text).toList <:+:
            (a.gapText group).toList) ∧
    (a.printed.filter (·.kind == .edge) = a.resolution.edges.map a.printedEdge ∧
      ∀ group ∈ a.resolution.edges, (a.printedEdge group).text = a.edgeText group ∧
        ∀ m ∈ group.moves, ∃ register, g.register? m.register = some register ∧
          (register.name ++ " " ++ m.source.text ++ " -> " ++ m.target.text).toList <:+:
            (a.edgeText group).toList) ∧
    ∀ slot ∈ a.order.slots, ∀ i, slot.instruction = some i →
      ∀ r p, ((∃ use ∈ i.uses, use.register = r ∧ p = slot.position) ∨
          ∃ d ∈ i.defs, d.register = r ∧ p = slot.position + 1) →
        g.inClass options.regClass r = true → ∃ register l, g.register? r = some register ∧
          a.locate? r p = some l ∧
          (a.printedValue p r).text = register.name ++ ":" ++ l.text ∧
          (register.name ++ ":" ++ l.text).toList <:+: (a.codeText slot).toList := by
  have hfinished := Graph.finished_of_allocate hg h
  have hlines := hfinished.lines_eq_ok
  -- the graph of the allocation has the same registers
  obtain ⟨_, hordered⟩ := Graph.linearize_of_allocate h
  have hgraph := LinearOrder.graph_of_linearize hordered
  have hregister : a.order.graph.register? = g.register? := by
    rw [hgraph]
    rfl
  have hinClass : a.order.graph.inClass options.regClass = g.inClass options.regClass := by
    rw [hgraph]
    rfl
  rw [← hregister, ← hinClass]
  refine ⟨hlines, ⟨bind_eq_ok.2 ⟨_, hlines, rfl⟩, Allocation.text_printed⟩,
    ⟨hfinished.code_printed, hfinished.regular.sorted_slots, Allocation.text_printedCode⟩,
    ⟨hfinished.gaps_printed, fun group hgroup =>
      ⟨Allocation.text_printedGap group, fun m hm => ?gap⟩⟩,
    ⟨hfinished.edges_printed, fun group hgroup =>
      ⟨Allocation.text_printedEdge group, fun m hm => ?edge⟩⟩,
    fun slot hslot i hi r p hoperand hclass => ?operand⟩
  case gap =>
    obtain ⟨register, hfound, htext⟩ := Allocation.Finished.exists_moveText
      (hfinished.declared_of_gapMove hgroup m hm)
    exact ⟨register, hfound, htext ▸ Allocation.move_within_gap hm⟩
  case edge =>
    obtain ⟨register, hfound, htext⟩ := Allocation.Finished.exists_moveText
      (hfinished.declared_of_edgeMove hgroup m hm)
    exact ⟨register, hfound, htext ▸ Allocation.move_within_edge hm⟩
  case operand =>
    have hstands := LinearOrder.stands_of_mem_slots hfinished.slots hslot hi
    obtain ⟨use, huse, rfl, rfl⟩ | ⟨d, hd, rfl, rfl⟩ := hoperand
    · obtain ⟨register, l, hfound, hl, htext⟩ :=
        hfinished.exists_valueText hstands hclass (.inr ⟨use, huse, rfl, rfl⟩)
      exact ⟨register, l, hfound, hl, htext, htext ▸ Allocation.use_within hi huse⟩
    · obtain ⟨register, l, hfound, hl, htext⟩ :=
        hfinished.exists_valueText hstands hclass (.inl ⟨d, hd, rfl, rfl⟩)
      exact ⟨register, l, hfound, hl, htext, htext ▸ Allocation.def_within hi hd⟩

/-- The loop, allocated to two registers and printed. -/
def loopingText : List String := [
  "allocation registers=[r0, r1] slots=2 \x7b",
  "  b0 [0, 0] -> b1:",
  "    0: v0:r0, v1:r1 = a",
  "    -> b1 (predecessor): v0 r0 -> [slot 0]",
  "  b1 [2, 6] -> b1, b2:",
  "    live-in: v0:[slot 0], v1:r1",
  "    2: v2:r0 = b v1:r1",
  "    3: move v1 r1 -> [slot 1], v0 [slot 0] -> r1",
  "    4: c v0:r1",
  "    6: v0:r1 = d",
  "    -> b1 (split): v0 r1 -> [slot 0], v1 [slot 1] -> r1",
  "    -> b2 (successor): v1 [slot 1] -> r0",
  "  b2 [8, 8]:",
  "    live-in: v0:r1, v1:r0",
  "    8: e v0:r1, v1:r0",
  "\x7d"]

theorem printed_once_looping : looping.Built ∧ ∃ a messages,
    looping.allocate { registers := ["r0", "r1"] } = .ok (.success a messages) ∧
      a.lines = .ok a.printed ∧
      a.printed.map (·.kind) = [.frame, .frame, .code, .edge, .frame, .frame, .code, .gap, .code,
        .code, .edge, .edge, .frame, .frame, .code, .frame] ∧
      a.printed.filter (·.kind == .gap) =
        [.gap 3 [⟨"v1", .register "r1", .slot 1⟩, ⟨"v0", .slot 0, .register "r1"⟩]] ∧
      a.print = .ok ("\n".intercalate loopingText) := by
  have hbuilt : looping.Built := ⟨_, rfl⟩
  have hallocate : ∃ a messages,
      looping.allocate { registers := ["r0", "r1"] } = .ok (.success a messages) ∧
        a.printed.map (·.kind) = [.frame, .frame, .code, .edge, .frame, .frame, .code, .gap, .code,
          .code, .edge, .edge, .frame, .frame, .code, .frame] ∧
        a.resolution.gaps.map a.printedGap =
          [.gap 3 [⟨"v1", .register "r1", .slot 1⟩, ⟨"v0", .slot 0, .register "r1"⟩]] ∧
        a.listing = loopingText :=
    ⟨_, _, rfl, rfl, rfl, rfl⟩
  obtain ⟨a, messages, h, hkinds, hgaps, hlisting⟩ := hallocate
  obtain ⟨hlines, ⟨hprint, htexts⟩, -, hshown, -, -⟩ := printed_once hbuilt h
  rw [htexts, hlisting] at hprint
  exact ⟨hbuilt, a, messages, h, hlines, hkinds, hshown.1.trans hgaps, hprint⟩

end RegAlloc
