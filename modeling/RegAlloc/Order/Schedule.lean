import RegAlloc.Graph.Basic
import RegAlloc.Sorted
import RegAlloc.Table

/-!
# Scheduling blocks

Blocks are emitted one after the other, from the entry on. For every block a count is kept of
the predecessors that it still waits for, back edges aside. Emitting a block lowers the counts
of its successors, and a block whose count comes to zero is ready. Of the ready blocks, the one
with the lowest number is emitted next.

- `Graph.forwardPredecessors` — the predecessors a block has to wait for;
- `Emission` — the state of an emission, `Emission.step` one turn of it;
- `Graph.orderBlocks` — the blocks in the order in which they are emitted.
-/

namespace RegAlloc

/-- The predecessors of a block along edges that are not back edges. -/
def Graph.forwardPredecessors (g : Graph) (backEdges : List Edge) (b : BlockId) : List BlockId :=
  (g.predecessors b).filter fun p => ⟨p, b⟩ ∉ backEdges

/-- The state of an emission. -/
structure Emission where
  /-- How many forward predecessors of each block are still to be emitted. -/
  pending : List (BlockId × Int)
  /-- The blocks that may be emitted, as they became ready. -/
  ready : List BlockId
  emitted : List BlockId := []
  deriving DecidableEq, Repr, Inhabited

namespace Emission

/-- Nothing is emitted, and the entry is ready. -/
def start (g : Graph) (entry : BlockId) (backEdges : List Edge) : Emission :=
  { pending := (List.range g.blocks.length).map fun b =>
      (b, (g.forwardPredecessors backEdges b).length)
    ready := [entry] }

/-- Let a successor of the block `b`, which was emitted, wait for one block less. -/
def release (backEdges : List Edge) (b : BlockId) (e : Emission) (s : BlockId) : Emission :=
  if ⟨b, s⟩ ∈ backEdges then e
  else
    let remaining := (e.pending.lookup s).getD 0 - 1
    { e with
      pending := Table.put e.pending s remaining
      ready := if remaining = 0 then e.ready ++ [s] else e.ready }

/-- Emit the ready block with the lowest number. When none is ready, nothing happens. -/
def step (g : Graph) (backEdges : List Edge) (e : Emission) : Emission :=
  match sortBy (fun a b => a < b) e.ready with
  | [] => e
  | b :: rest =>
    (g.successors b).foldl (release backEdges b)
      { e with ready := rest, emitted := e.emitted ++ [b] }

/-- The emission after a number of turns. -/
def steps (g : Graph) (backEdges : List Edge) : Nat → Emission → Emission
  | 0, e => e
  | n + 1, e => steps g backEdges n (e.step g backEdges)

end Emission

/-- The blocks in the order in which they are emitted, from `entry` on. A block becomes ready
when its count comes to zero, and the entry once more, so there is one turn for each of them. -/
def Graph.orderBlocks (g : Graph) (entry : BlockId) (backEdges : List Edge) : List BlockId :=
  (Emission.steps g backEdges (g.blocks.length + 1) (Emission.start g entry backEdges)).emitted

end RegAlloc
