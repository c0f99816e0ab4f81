import RegAlloc.Issue
import RegAlloc.Order.Basic
import RegAlloc.Order.DepthFirst
import RegAlloc.Order.Schedule
import RegAlloc.Outcome

/-!
# Linear order of a graph

A depth-first walk from the entry finds the back edges; the blocks are then
emitted along the remaining edges and their instructions numbered. A graph
without blocks, or with a block that the walk does not reach, has no linear order.

- `Graph.slotsOf`, `Graph.spansFrom` — the numbering;
- `Graph.linearize` — the linear order, or why there is none.
-/

namespace RegAlloc

namespace Graph

/-- What a block contributes to the sequence: its code, or one placeholder. -/
def entriesOf (g : Graph) (b : BlockId) : List (Option Instruction) :=
  match g.instructions b with
  | [] => [none]
  | code => code.map some

/-- The numbered slots of a sequence of blocks. -/
def slotsOf (g : Graph) (blocks : List BlockId) : List Slot :=
  let entries := blocks.flatMap fun b => (g.entriesOf b).map fun i => (b, i)
  entries.zipIdx.map fun ((block, instruction), k) => { position := k * stride, block, instruction }

/-- The stretches of a sequence of blocks whose first slot is the one numbered `k`. -/
def spansFrom (g : Graph) : Nat → List BlockId → List Span
  | _, [] => []
  | k, b :: rest =>
    let next := k + (g.entriesOf b).length
    { block := b, first := k * stride, last := (next - 1) * stride } :: spansFrom g next rest

/-- The blocks that a walk has not met, in ascending order. -/
def unreached (g : Graph) (w : Walk) : List BlockId :=
  (List.range g.blocks.length).filter (· ∉ w.reached)

/-- The linear order of a graph; the graph in it is frozen, since any later change
would make the positions wrong. -/
def linearize (g : Graph) : Except Violation (Outcome Issue LinearOrder) :=
  match g.entry with
  | none => .ok (.fail [.noBlocks])
  | some entry =>
    let w := g.walk entry
    let unreached := g.unreached w
    if !unreached.isEmpty then
      .ok (.fail [.unreachable unreached entry])
    else
      let blocks := g.orderBlocks entry w.backEdges
      if blocks.length = g.blocks.length then
        .ok (.ok
          { graph := g.freeze
            slots := g.slotsOf blocks
            spans := g.spansFrom 0 blocks
            loopEdges := w.backEdges })
      else
        .error (.orderIncomplete blocks.length g.blocks.length)

end Graph

end RegAlloc
