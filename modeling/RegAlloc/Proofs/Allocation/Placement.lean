import RegAlloc.Proofs.Allocation.Freshness
import RegAlloc.Proofs.Graph.Commands

/-!
# Moves run exactly as their edge is taken

A group of moves on an edge comes with a place for it: the end of the source, the start of the
target, or a block of its own on the edge. The place is found by counting neighbours. A source
with one successor is left along the edge only, and a target with one predecessor is entered
along the edge only, provided that the program does not start there. It does not, since nothing is
live as the program starts, so no register has to be moved on an edge back to the entry.

- `Graph.arrivals` — the blocks of a path, each with the block that it is entered from;
- `Placement.runs` — the arrivals at which code runs that stands at a place;
- `Graph.of_mem_arrivals` — every arrival is the start of the program or along an edge;
- `EdgeMoves.Safe` — a group of moves whose place is right;
- `Arranged.of_edgeMoves?` — a group has moves, and they do not lead to the entry;
- `placement_safe` — every group of a successful allocation is safe, and the only one of its edge.
-/

namespace RegAlloc

/-! ## Executions -/

/-- A block that is entered, and the block it is entered from: none as the program starts. -/
abbrev Arrival := Option BlockId × BlockId

namespace Graph

variable {g : Graph} {source target : BlockId}

/-- The blocks of a path as they are entered, the first from a given block. -/
def arrivalsFrom (last : Option BlockId) : List BlockId → List Arrival
  | [] => []
  | b :: rest => (last, b) :: arrivalsFrom (some b) rest

/-- The blocks of an execution as they are entered. -/
def arrivals (path : List BlockId) : List Arrival := arrivalsFrom none path

/-- Behind its first block, a path enters every block along an edge. -/
theorem hasEdge_of_mem_arrivalsFrom : ∀ {path : List BlockId} {u : BlockId},
    (u :: path).IsChain g.HasEdge → ∀ arrival ∈ arrivalsFrom (some u) path,
      ∃ v w, arrival = (some v, w) ∧ g.HasEdge v w
  | b :: path, u, hpath, arrival, harrival => by
    obtain ⟨hedge, hrest⟩ := List.isChain_cons_cons.1 hpath
    rcases List.mem_cons.1 harrival with rfl | harrival
    · exact ⟨u, b, rfl, hedge⟩
    · exact hasEdge_of_mem_arrivalsFrom hrest arrival harrival

/-- A block is entered as the program starts, or along an edge. -/
theorem of_mem_arrivals {path : List BlockId} (hentry : path.head? = g.entry)
    (hpath : path.IsChain g.HasEdge) {arrival : Arrival} (h : arrival ∈ arrivals path) :
    (∃ b, arrival = (none, b) ∧ g.entry = some b) ∨
      ∃ u v, arrival = (some u, v) ∧ g.HasEdge u v := by
  cases path with
  | nil => cases h
  | cons b path =>
    rcases List.mem_cons.1 h with rfl | h
    · exact .inl ⟨b, rfl, hentry.symm⟩
    · exact .inr (hasEdge_of_mem_arrivalsFrom hpath arrival h)

end Graph

/-- Whether code at a place on an edge runs as a block is entered: at the end of the source it
does whenever the source is left, at the start of the target whenever the target is entered. -/
def Placement.runs (placement : Placement) (source target : BlockId) (arrival : Arrival) : Bool :=
  match placement with
  | .predecessor => arrival.1 == some source
  | .successor => arrival.2 == target
  | .split => arrival == (some source, target)

/-- A group of moves for the edge between two blocks, at a place where the moves run exactly as
the edge is taken. -/
structure EdgeMoves.Safe (group : EdgeMoves) (g : Graph) (source target : BlockId) : Prop where
  ends : group.source = source ∧ group.target = target
  edge : g.HasEdge source target
  nonempty : group.moves ≠ []
  entry : g.entry ≠ some target
  predecessor : group.placement = .predecessor → g.successors source = [target]
  successor : group.placement = .successor → g.predecessors target = [source]
  split : group.placement = .split →
    (∃ b, b ≠ target ∧ g.HasEdge source b) ∧ ∃ b, b ≠ source ∧ g.HasEdge b target
  runs : ∀ path : List BlockId, path.head? = g.entry → path.IsChain g.HasEdge →
    ∀ arrival ∈ Graph.arrivals path,
      group.placement.runs source target arrival = true ↔ arrival = (some source, target)

namespace Graph

variable {g : Graph} {source target : BlockId}

/-! ## Counting neighbours -/

/-- Among different elements, if there is not just one, there is another one. -/
theorem exists_ne_of_length_ne_one : ∀ {l : List BlockId} {x : BlockId}, l.Nodup → x ∈ l →
    l.length ≠ 1 → ∃ y, y ≠ x ∧ y ∈ l
  | [_], _, _, _, hlength => absurd rfl hlength
  | y :: z :: _, x, hnodup, _, _ => by
    by_cases hy : y = x
    · refine ⟨z, fun hz => ?_, by simp⟩
      simp [hy, hz] at hnodup
    · exact ⟨y, hy, by simp⟩

theorem successors_of_predecessor (hedge : g.HasEdge source target)
    (h : placementOf g source target = .predecessor) : g.successors source = [target] := by
  rw [placementOf] at h
  split at h
  · next hone =>
    obtain ⟨b, hb⟩ := List.length_eq_one_iff.1 hone
    rw [HasEdge, hb, List.mem_singleton] at hedge
    rw [hb, hedge]
  · split at h <;> cases h

theorem predecessors_of_successor (hg : g.WellFormed) (hedge : g.HasEdge source target)
    (h : placementOf g source target = .successor) : g.predecessors target = [source] := by
  rw [placementOf] at h
  split at h
  · cases h
  · split at h
    · next hone =>
      obtain ⟨b, hb⟩ := List.length_eq_one_iff.1 hone
      rw [HasEdge, hg.mirrored, hb, List.mem_singleton] at hedge
      rw [hb, hedge]
    · cases h

/-- An edge that gets a block of its own leaves a block with other successors, and enters a block
with other predecessors. -/
theorem critical_of_split (hg : g.Consistent) (hedge : g.HasEdge source target)
    (h : placementOf g source target = .split) :
    (∃ b, b ≠ target ∧ g.HasEdge source b) ∧ ∃ b, b ≠ source ∧ g.HasEdge b target := by
  rw [placementOf] at h
  split at h
  · cases h
  · next hsource =>
    split at h
    · cases h
    · next htarget =>
      obtain ⟨b, hb, hbefore⟩ := exists_ne_of_length_ne_one (hg.distinctSources target)
        ((hg.mirrored source target).1 hedge) htarget
      exact ⟨exists_ne_of_length_ne_one (hg.distinct source) hedge hsource,
        b, hb, (hg.mirrored b target).2 hbefore⟩

/-- Code that stands where the count of neighbours says runs exactly as the edge is taken, unless
the program starts at its target. -/
theorem runs_placementOf (hg : g.WellFormed) (hedge : g.HasEdge source target)
    (hentry : g.entry ≠ some target) {path : List BlockId} (hhead : path.head? = g.entry)
    (hpath : path.IsChain g.HasEdge) {arrival : Arrival} (harrival : arrival ∈ arrivals path) :
    (placementOf g source target).runs source target arrival = true ↔
      arrival = (some source, target) := by
  have hcases := of_mem_arrivals hhead hpath harrival
  cases hplacement : placementOf g source target with
  | predecessor =>
    -- the source has no other way out, so leaving it is taking the edge
    have honly := successors_of_predecessor hedge hplacement
    rw [Placement.runs, beq_iff_eq]
    refine ⟨fun hleft => ?_, fun h => by rw [h]⟩
    obtain ⟨b, rfl, -⟩ | ⟨u, v, rfl, huv⟩ := hcases
    · cases hleft
    · cases hleft
      rw [HasEdge, honly, List.mem_singleton] at huv
      rw [huv]
  | successor =>
    -- the target has no other way in, so entering it is taking the edge, the start apart
    have honly := predecessors_of_successor hg hedge hplacement
    rw [Placement.runs, beq_iff_eq]
    refine ⟨fun hentered => ?_, fun h => by rw [h]⟩
    obtain ⟨b, rfl, hstart⟩ | ⟨u, v, rfl, huv⟩ := hcases
    · exact absurd (hentered ▸ hstart) hentry
    · cases hentered
      rw [HasEdge, hg.mirrored, honly, List.mem_singleton] at huv
      rw [huv]
  | split => rw [Placement.runs, beq_iff_eq]

end Graph

/-! ## Moves and the entry -/

namespace Allocation.Arranged

variable {a : Allocation} {regClass : Option String} {span target : Span}

/-- The program does not start at a block that some register is live into. -/
theorem ne_entry_of_liveInto (h : a.Arranged regClass) (htarget : target ∈ a.order.spans)
    {r : VReg} (hr : r ∈ a.liveness.liveInto target.block) :
    a.order.graph.entry ≠ some target.block := by
  intro hentry
  rw [← h.regular.entry, Option.map_eq_some_iff] at hentry
  obtain ⟨first, hfirst, hblock⟩ := hentry
  rw [h.regular.span_unique (List.mem_of_head? hfirst) htarget hblock] at hfirst
  obtain ⟨hoccurs, hcovers⟩ := (h.liveInto target htarget r).1 hr
  obtain ⟨life, hlife, rfl⟩ := (h.occurs r).1 hoccurs
  rw [h.entry target hfirst life hlife] at hcovers
  cases hcovers

/-- A group of moves on an edge has moves, and the program does not start at its target. -/
theorem of_edgeMoves? (h : a.Arranged regClass) (htarget : target ∈ a.order.spans)
    {group : EdgeMoves}
    (hfound : edgeMoves? a.order a.liveness a.scratch span target.block = .ok (some group)) :
    group.moves ≠ [] ∧ a.order.graph.entry ≠ some target.block := by
  obtain ⟨found, hfound', hmoves, hmoving⟩ := h.exists_edgeMoves? span htarget
  cases hfound.symm.trans hfound'
  obtain ⟨x, hx⟩ := List.exists_mem_of_ne_nil _ (hmoving group rfl)
  obtain ⟨out, hout, hsequenced⟩ :=
    Move.sequence_eq_ok fun m hm => (h.place_of_edgeTransfer m hm).2
  cases hmoves.symm.trans hout
  obtain ⟨m, hm, -⟩ := hsequenced.exists_mem x hx
  exact ⟨List.ne_nil_of_mem hm,
    h.ne_entry_of_liveInto htarget (mem_edgeTransfers.1 (Move.mem_moving.1 hx).1).1⟩

end Allocation.Arranged

/-- Placements are safe. Every group of moves on an edge is for an edge of the graph and the only
one for it. It has moves, it does not lead to the entry, and on every execution the moves run
exactly as the edge is taken: at the end of the source if that has no other successor, at the
start of the target if that has no other predecessor, and else on the edge, whose source then has
other successors and whose target other predecessors. -/
theorem placement_safe {g : Graph} (hg : g.Built) {options : Options} {a : Allocation}
    {messages : Messages Issue} (h : g.allocate options = .ok (.success a messages)) :
    (∀ group ∈ a.resolution.edges, ∃ source target, group.Safe g source target) ∧
      a.resolution.edges.Pairwise fun e f => ¬ (e.source = f.source ∧ e.target = f.target) := by
  have harranged := Graph.arranged_of_allocate hg h
  have hedges := (Graph.resolution_of_allocate h).2
  obtain ⟨_, hordered⟩ := Graph.linearize_of_allocate h
  have hconsistent := hg.consistent
  refine ⟨fun group hgroup => ?_,
    (harranged.pairwise_edges hedges).imp fun hne ⟨hsource, htarget⟩ => hne hsource htarget⟩
  obtain ⟨span, hspan, b, hb, hfound⟩ := (Allocation.Arranged.mem_edges hedges).1 hgroup
  obtain ⟨target, htarget, rfl⟩ := harranged.regular.exists_span_target hb
  obtain ⟨hnonempty, hentry⟩ := harranged.of_edgeMoves? htarget hfound
  obtain ⟨moves, rfl⟩ := Allocation.Arranged.exists_moves_of_edgeMoves? hfound
  rw [LinearOrder.graph_of_linearize hordered] at hb hentry ⊢
  -- freezing a graph changes neither its edges nor its entry
  have hedge : g.HasEdge span.block target.block := hb
  have hplacement : placementOf g.freeze span.block target.block =
    placementOf g span.block target.block := rfl
  rw [hplacement]
  exact ⟨span.block, target.block,
    { ends := ⟨rfl, rfl⟩
      edge := hedge
      nonempty := hnonempty
      entry := hentry
      predecessor := Graph.successors_of_predecessor hedge
      successor := Graph.predecessors_of_successor hconsistent.toWellFormed hedge
      split := Graph.critical_of_split hconsistent hedge
      runs := fun _ hhead hpath _ harrival =>
        Graph.runs_placementOf hconsistent.toWellFormed hedge hentry hhead hpath harrival }⟩

/-- A block that is a loop of its own, at whose end one value has changed registers and another
one is in memory. -/
def looping : Graph := Graph.run {} [
  .createRegister {}, .createRegister {}, .createRegister {}, .addBlock, .addBlock, .addBlock,
  .addInstruction (0 : Nat)
    { opcode := "a", defs := [{ register := (0 : Nat) }, { register := (1 : Nat) }] },
  .addInstruction (1 : Nat)
    { opcode := "b", uses := [{ register := (1 : Nat) }], defs := [{ register := (2 : Nat) }] },
  .addInstruction (1 : Nat) { opcode := "c", uses := [{ register := (0 : Nat) }] },
  .addInstruction (1 : Nat) { opcode := "d", defs := [{ register := (0 : Nat) }] },
  .addInstruction (2 : Nat)
    { opcode := "e", uses := [{ register := (0 : Nat) }, { register := (1 : Nat) }] },
  .addEdge (0 : Nat) (1 : Nat), .addEdge (1 : Nat) (1 : Nat), .addEdge (1 : Nat) (2 : Nat)]

theorem placement_safe_looping : looping.Built ∧ ∃ a messages,
    looping.allocate { registers := ["r0", "r1"] } = .ok (.success a messages) ∧
      a.resolution.edges.map (fun group => (group.source, group.target, group.placement)) =
        [(.whole 0, .whole 1, .predecessor), (.whole 1, .whole 1, .split),
          (.whole 1, .whole 2, .successor)] ∧
      ∀ group ∈ a.resolution.edges, ∃ source target, group.Safe looping source target := by
  have hbuilt : looping.Built := ⟨_, rfl⟩
  have hallocate : ∃ a messages,
      looping.allocate { registers := ["r0", "r1"] } = .ok (.success a messages) ∧
        a.resolution.edges.map (fun group => (group.source, group.target, group.placement)) =
          [(.whole 0, .whole 1, .predecessor), (.whole 1, .whole 1, .split),
            (.whole 1, .whole 2, .successor)] := ⟨_, _, rfl, rfl⟩
  obtain ⟨a, messages, h, hplacements⟩ := hallocate
  exact ⟨hbuilt, a, messages, h, hplacements, (placement_safe hbuilt h).1⟩

end RegAlloc
