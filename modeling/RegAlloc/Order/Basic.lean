import RegAlloc.Violation

/-!
# Linear orders

A linear order puts all instructions of a graph in one sequence. Consecutive
instructions stand at consecutive even positions; the odd position between two of
them is a gap in which moves can be placed. A block without instructions has one
placeholder slot, so that every block has a position.

- `Slot`, `Span`, `LinearOrder` — the sequence and the stretch of each block;
- `slotAt?`, `blockAt?`, `positionOf`, `isBlockStart` — between positions, slots
  and blocks;
- `isLoopEdge`, `latchEnd?`, `loopDepth` — loops as stretches of the order.
-/

namespace RegAlloc

/-- The distance between two consecutive instructions. -/
abbrev stride : Int := 2

/-- One entry of a linear order; a placeholder has no instruction. -/
structure Slot where
  position : Position
  block : BlockId
  instruction : Option Instruction := none
  deriving DecidableEq, Repr, Inhabited

/-- The stretch of a block, from its first to its last instruction position. -/
structure Span where
  block : BlockId
  first : Position
  last : Position
  deriving DecidableEq, Repr, Inhabited

/-- A graph in linear order. -/
structure LinearOrder where
  graph : Graph
  slots : List Slot
  /-- The stretches of the blocks, in order. -/
  spans : List Span
  /-- The back edges of the walk that found the order, as they were found. -/
  loopEdges : List Edge
  deriving DecidableEq, Repr, Inhabited

namespace LinearOrder

/-- The blocks in order. -/
def blocks (order : LinearOrder) : List BlockId := order.spans.map (·.block)

/-! ## Positions -/

/-- The stretch of a block of the order. -/
def span? (order : LinearOrder) (b : BlockId) : Option Span :=
  order.spans.find? (·.block == b)

/-- The stretch of the block that a number names. -/
def span (order : LinearOrder) (block : Ref) : Except Violation Span :=
  match block.index?.bind order.span? with
  | some span => .ok span
  | none => .error (.noSpan block)

/-- The position of an instruction, given by its place in its block. -/
def positionOf (order : LinearOrder) (block : Ref) (index : Int) : Except Violation Position := do
  let span ← order.span block
  let position := span.first + index * stride
  if position ≤ span.last then return position else throw (.noInstruction block index)

/-- The slot at a position; a gap belongs to the slot before it. -/
def slotAt? (order : LinearOrder) (position : Position) : Option Slot :=
  if position < 0 then none else order.slots[(position / stride).toNat]?

/-- The block at a position. -/
def blockAt? (order : LinearOrder) (position : Position) : Option BlockId :=
  (order.slotAt? position).map (·.block)

/-- Whether a position is the first of some block. -/
def isBlockStart (order : LinearOrder) (position : Position) : Bool :=
  match order.slotAt? position with
  | none => false
  | some slot =>
    slot.position == position && (order.span? slot.block).map (·.first) == some position

/-- One past the greatest position. -/
def stop (order : LinearOrder) : Position := order.slots.length * stride

/-! ## Loops -/

/-- Whether an edge closes a loop. -/
def isLoopEdge (order : LinearOrder) (source target : BlockId) : Bool :=
  ⟨source, target⟩ ∈ order.loopEdges

/-- The headers of the loops, each once. -/
def headers (order : LinearOrder) : List BlockId :=
  (order.loopEdges.map (·.target)).eraseDups

/-- Where the loop of a header ends: one past the latest block that returns to it. -/
def latchEnd? (order : LinearOrder) (header : BlockId) : Option Position :=
  let latches := order.loopEdges.filter (·.target == header)
  (latches.filterMap fun edge => (order.span? edge.source).map (·.last + stride)).max?

/-- Find where the loop of a header ends, if it has one; all its latches have to have a stretch. -/
def findLatchEnd (order : LinearOrder) (header : BlockId) :
    Except Violation (Option Position) := do
  let latches := order.loopEdges.filter (·.target == header)
  let stops ← latches.mapM fun edge => do return (← order.span edge.source).last + stride
  return stops.max?

/-- Whether the loop of a header contains a block that starts at `first`. -/
def loopContains (order : LinearOrder) (header : BlockId) (first : Position) : Bool :=
  match order.span? header, order.latchEnd? header with
  | some span, some stop => span.first ≤ first && first < stop
  | _, _ => false

/-- The number of loops around a block that starts at `first`. -/
def depthAt (order : LinearOrder) (first : Position) : Nat :=
  order.headers.countP (order.loopContains · first)

/-- The number of loops around the block that a number names. -/
def loopDepth (order : LinearOrder) (block : Ref) : Except Violation Nat := do
  let span ← order.span block
  return order.depthAt span.first

end LinearOrder

end RegAlloc
