import RegAlloc.Proofs.Order.Finishing
import RegAlloc.Proofs.Order.Regular

/-!
# Linear orders are correct

A graph whose blocks can all be reached from its entry has a linear order. The order
starts at the entry, has every block once, and puts a block before all that its edges lead
to, loop edges aside. A loop edge leads back from the last block of a cycle to its first.

- `Graph.Connected`, `Graph.Acyclic` — what can be reached, and cycles;
- `LinearOrder.Sorts` — a correct order of a graph;
- `LinearOrder.sorts_of_linearize` — every linear order is one;
- `Graph.exists_linearize` — every connected graph has one;
- `linearize_sorts` — both together.
-/

namespace RegAlloc

namespace Graph

/-- Every block can be reached from the entry. -/
def Connected (g : Graph) : Prop :=
  ∀ entry, g.entry = some entry →
    ∀ b < g.blocks.length, Relation.ReflTransGen g.HasEdge entry b

/-- No edges lead from a block back to itself. -/
def Acyclic (g : Graph) : Prop := ∀ b, ¬ Relation.TransGen g.HasEdge b b

end Graph

namespace LinearOrder

/-- A correct order of a graph. -/
structure Sorts (order : LinearOrder) (g : Graph) : Prop where
  perm : order.blocks.Perm (List.range g.blocks.length)
  entry : order.blocks.head? = g.entry
  forward : ∀ u v, g.HasEdge u v → ⟨u, v⟩ ∉ order.loopEdges →
    order.blocks.idxOf u < order.blocks.idxOf v
  loop : ∀ u v, ⟨u, v⟩ ∈ order.loopEdges →
    g.HasEdge u v ∧ order.blocks.idxOf v ≤ order.blocks.idxOf u ∧
      Relation.ReflTransGen (fun x y => g.HasEdge x y ∧ ⟨x, y⟩ ∉ order.loopEdges) v u
  once : order.loopEdges.Nodup
  acyclic : order.loopEdges = [] ↔ g.Acyclic

variable {g : Graph} {order : LinearOrder} {messages : Messages Issue}

/-- The blocks of a linear order are scheduled around the back edges of a walk from the
entry. -/
theorem blocks_of_linearize (hg : g.WellFormed)
    (h : g.linearize = .ok (.success order messages)) :
    order.graph = g.freeze ∧ order.blocks = g.schedule order.loopEdges ∧
      ∃ entry, g.entry = some entry ∧ order.loopEdges = (g.walk entry).backEdges := by
  obtain ⟨entry, hentry, -, -, rfl⟩ := scheduled_of_linearize hg h
  exact ⟨rfl, Graph.map_block_spansFrom .., entry, hentry, rfl⟩

/-- An edge that closes no loop leads to a later block. -/
theorem idxOf_lt_of_forward (hg : g.WellFormed)
    (h : g.linearize = .ok (.success order messages)) {u v : BlockId} (hedge : g.HasEdge u v)
    (hforward : ⟨u, v⟩ ∉ order.loopEdges) :
    order.blocks.idxOf u < order.blocks.idxOf v := by
  have hregular := regular_of_linearize hg h
  obtain ⟨hgraph, hblocks, -⟩ := blocks_of_linearize hg h
  have hv : v ∈ order.blocks := by
    rw [hregular.blocks.mem_iff, List.mem_range, hgraph]
    exact hg.target_lt u v hedge
  obtain ⟨front, rest, hsplit⟩ := List.append_of_mem hv
  have hu : u ∈ front := Graph.forward_before hg.mirrored (hblocks ▸ hsplit) hedge hforward
  have hnodup : (front ++ v :: rest).Nodup := hsplit ▸ hregular.nodup
  have hout : v ∉ front := fun hmem =>
    (List.nodup_append.1 hnodup).2.2 v hmem v List.mem_cons_self rfl
  rw [hsplit, List.idxOf_append_of_mem hu, List.idxOf_append_of_notMem hout]
  exact Nat.lt_of_lt_of_le (List.idxOf_lt_length_of_mem hu) (Nat.le_add_right ..)

/-- Along a path of edges that close no loop, no block comes earlier. -/
theorem idxOf_le_of_path (hg : g.WellFormed)
    (h : g.linearize = .ok (.success order messages)) {u v : BlockId}
    (hpath : Relation.ReflTransGen (fun x y => g.HasEdge x y ∧ ⟨x, y⟩ ∉ order.loopEdges) u v) :
    order.blocks.idxOf u ≤ order.blocks.idxOf v := by
  induction hpath with
  | refl => exact Nat.le_refl _
  | tail _ hstep ih =>
    have hlt := idxOf_lt_of_forward hg h hstep.1 hstep.2
    omega

/-- Without loop edges no path returns to where it started, and a loop edge closes a
cycle. -/
theorem loopEdges_eq_nil_iff (hg : g.WellFormed)
    (h : g.linearize = .ok (.success order messages)) :
    order.loopEdges = [] ↔ g.Acyclic := by
  constructor
  -- along forward edges blocks stand later and later, so none comes back to itself
  · intro hnone b hcycle
    have hlater : ∀ {u v}, Relation.TransGen g.HasEdge u v →
        order.blocks.idxOf u < order.blocks.idxOf v := by
      intro u v hpath
      induction hpath with
      | single hedge => exact idxOf_lt_of_forward hg h hedge (by simp [hnone])
      | tail _ hedge ih => exact Nat.lt_trans ih (idxOf_lt_of_forward hg h hedge (by simp [hnone]))
    exact Nat.lt_irrefl _ (hlater hcycle)
  · intro hacyclic
    obtain ⟨-, -, entry, -, hloops⟩ := blocks_of_linearize hg h
    -- a loop edge leads back along a path, so it closes a cycle
    refine List.eq_nil_iff_forall_not_mem.2 fun e he => hacyclic e.source ?_
    have hinv := Walk.Inv.walk g entry
    have hback := hloops ▸ he
    have hpath : Relation.ReflTransGen g.HasEdge e.target e.source :=
      (hinv.back_path hback).lift id fun _ _ hstep => hstep.1
    exact Relation.TransGen.head' (hinv.back e hback).1 hpath

/-- Every linear order is a correct order. -/
theorem sorts_of_linearize (hg : g.WellFormed)
    (h : g.linearize = .ok (.success order messages)) : order.Sorts g := by
  have hregular := regular_of_linearize hg h
  obtain ⟨hgraph, -, entry, hentry, hloops⟩ := blocks_of_linearize hg h
  have hinv := Walk.Inv.walk g entry
  refine ⟨?_, ?_, fun u v => idxOf_lt_of_forward hg h, fun u v hloop => ?_, ?_,
    loopEdges_eq_nil_iff hg h⟩
  -- every block once, the entry first, and loop edges lead back
  · have hperm := hregular.blocks
    rwa [hgraph] at hperm
  · have hfirst := hregular.entry
    rw [hgraph, ← List.head?_map] at hfirst
    exact hfirst
  · have hback : ⟨u, v⟩ ∈ (g.walk entry).backEdges := hloops ▸ hloop
    have hpath := hinv.back_path hback
    rw [← hloops] at hpath
    exact ⟨(hinv.back _ hback).1, idxOf_le_of_path hg h hpath, hpath⟩
  · rw [hloops]
    exact (Walk.Once.walk hg entry).nodup

end LinearOrder

/-- A graph whose blocks can all be reached from its entry has a linear order. -/
theorem Graph.exists_linearize {g : Graph} (hg : g.WellFormed) (hblocks : g.blocks ≠ [])
    (hconnected : g.Connected) :
    ∃ order messages, g.linearize = .ok (.success order messages) := by
  have hentry : ∃ entry, g.entry = some entry := by
    unfold Graph.entry
    split
    · exact ⟨_, rfl⟩
    · exact ⟨0, by simp [hblocks]⟩
  obtain ⟨entry, hentry⟩ := hentry
  have hlt := hg.entry_lt entry hentry
  have hreached : ∀ b < g.blocks.length, b ∈ (g.walk entry).reached := fun b hb =>
    mem_reached hg hlt (hconnected entry hentry b hb)
  -- everything is reached, so nothing stops the order
  have hunreached : g.unreached (g.walk entry) = [] := by
    refine List.eq_nil_iff_forall_not_mem.2 fun b hb => ?_
    obtain ⟨hb, hmissed⟩ := mem_unreached.1 hb
    exact hmissed (hreached b hb)
  unfold Graph.linearize
  simp only [hentry, hunreached, List.isEmpty_nil, Bool.not_true, Bool.false_eq_true, if_false,
    orderBlocks_eq_schedule hg hlt hreached, length_schedule hg hlt hreached, if_true]
  exact ⟨_, _, rfl⟩

/-- Every graph that has a block, and whose blocks can all be reached from its entry, is
put in a correct order. -/
theorem linearize_sorts {g : Graph} (hg : g.Built) (hblocks : g.blocks ≠ [])
    (hconnected : g.Connected) :
    ∃ order messages, g.linearize = .ok (.success order messages) ∧ order.Sorts g := by
  obtain ⟨order, messages, h⟩ := Graph.exists_linearize hg.wellFormed hblocks hconnected
  exact ⟨order, messages, h, LinearOrder.sorts_of_linearize hg.wellFormed h⟩

/-- A cycle with two ways in, a block that follows itself, and an entry that is not the
first block. -/
def twoWaysIn : Graph := Graph.run {} [
  .addBlock, .addBlock, .addBlock, .addBlock,
  .addEdge (3 : Nat) (0 : Nat), .addEdge (3 : Nat) (1 : Nat), .addEdge (0 : Nat) (1 : Nat),
  .addEdge (1 : Nat) (0 : Nat), .addEdge (1 : Nat) (2 : Nat), .addEdge (2 : Nat) (2 : Nat),
  .addEdge (2 : Nat) (3 : Nat), .setEntry (3 : Nat)]

theorem connected_twoWaysIn : twoWaysIn.Connected := by
  intro entry hentry b hb
  cases hentry
  have hzero : Relation.ReflTransGen twoWaysIn.HasEdge 3 0 := .single (by decide)
  have hone : Relation.ReflTransGen twoWaysIn.HasEdge 3 1 := hzero.tail (by decide)
  have htwo : Relation.ReflTransGen twoWaysIn.HasEdge 3 2 := hone.tail (by decide)
  match b, hb with
  | 0, _ => exact hzero
  | 1, _ => exact hone
  | 2, _ => exact htwo
  | 3, _ => exact .refl

theorem linearize_sorts_twoWaysIn : twoWaysIn.Built ∧ twoWaysIn.blocks ≠ [] ∧
    twoWaysIn.Connected ∧ ∃ order messages,
      twoWaysIn.linearize = .ok (.success order messages) ∧ order.Sorts twoWaysIn :=
  ⟨⟨_, rfl⟩, by decide, connected_twoWaysIn,
    linearize_sorts ⟨_, rfl⟩ (by decide) connected_twoWaysIn⟩

end RegAlloc
