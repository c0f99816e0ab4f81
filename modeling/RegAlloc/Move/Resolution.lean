import RegAlloc.Liveness.Analysis
import RegAlloc.Move.Sequence
import RegAlloc.Table

/-!
# Moves that reconnect the pieces of a lifetime

A register may be in different locations on the two sides of a cut, and at the two
ends of a control-flow edge. The moves of a gap reconnect touching pieces inside a
block, the moves of an edge those between blocks; each group acts as one parallel
move.

- `Placement`, `EdgeMoves`, `GapMoves`, `Resolution` — the groups;
- `LinearOrder.splitGap?` — the gap in which a cut is bridged;
- `resolveEdges`, `resolveGaps`, `resolve` — the groups of an allocation.
-/

namespace RegAlloc

/-- Where the moves of an edge can stand: at the end of its source, at the start of
its target, or in a block of their own on the edge. -/
inductive Placement where
  | predecessor
  | successor
  | split
  deriving DecidableEq, Repr, Inhabited

namespace Placement

/-- The word for a placement. -/
def text : Placement → String
  | .predecessor => "predecessor"
  | .successor => "successor"
  | .split => "split"

end Placement

/-- The moves of an edge, whose ends are kept as the numbers they were named by. -/
structure EdgeMoves where
  source : Ref
  target : Ref
  placement : Placement
  moves : List Move
  deriving DecidableEq, Repr, Inhabited

/-- The moves of a gap inside a block. -/
structure GapMoves where
  position : Position
  block : BlockId
  moves : List Move
  deriving DecidableEq, Repr, Inhabited

/-- All groups of moves. -/
structure Resolution where
  edges : List EdgeMoves := []
  gaps : List GapMoves := []
  deriving DecidableEq, Repr, Inhabited

/-- The location of a piece. -/
def Interval.locate (i : Interval) : Except Violation Location :=
  match i.location with
  | some location => .ok location
  | none => .error (.noLocation i.id)

/-! ## Gaps -/

/-- The gap that bridges a cut at `p`: before the instruction at `p`, or at `p` itself
if that is a gap. At the start of a block there is none, since the edges see to it. -/
def LinearOrder.splitGap? (order : LinearOrder) (p : Position) : Option Position :=
  let instruction := if p % stride = 0 then p else p + 1
  if order.isBlockStart instruction then none
  else some (if p % stride = 0 then p - 1 else p)

/-- Whether a piece begins where another one ends. -/
def Interval.touches (i j : Interval) : Bool :=
  match i.stop?, j.start? with
  | some stop, some start => stop == start
  | _, _ => false

/-- The neighbouring pieces of a lifetime. -/
def Lifetime.neighbours (life : Lifetime) : List (Interval × Interval) :=
  life.pieces.zip life.children

/-- The move between two neighbouring pieces, with its gap, if one is needed there. -/
def bridge? (order : LinearOrder) (register : VReg) (i j : Interval) :
    Except Violation (Option (Position × Move)) := do
  if i.touches j then
    let source ← i.locate
    let target ← j.locate
    if source = target then return none
    return (order.splitGap? j.start).map fun gap => (gap, { register, source, target })
  else return none

/-- Add a move to the group of its gap. -/
def addToGap (groups : List (Position × List Move)) (gap : Position) (move : Move) :
    List (Position × List Move) :=
  Table.put groups gap ((groups.lookup gap).getD [] ++ [move])

/-- All bridging moves, grouped by gap, in ascending order of the gaps. -/
def bridges (order : LinearOrder) (lives : List Lifetime) :
    Except Violation (List (Position × List Move)) := do
  let found ← lives.mapM fun life =>
    life.neighbours.mapM fun (i, j) => bridge? order life.register i j
  let groups := (found.flatten.filterMap id).foldl (fun groups (gap, m) => addToGap groups gap m) []
  return sortBy (fun a b => a.1 < b.1) groups

/-- The groups of moves inside blocks. -/
def resolveGaps (order : LinearOrder) (liveness : Liveness) (scratch : Location) :
    Except Violation (List GapMoves) := do
  (← bridges order liveness.lives).mapM fun (position, moves) => do
    match order.blockAt? (position + 1) with
    | none => throw (.gapOutside position)
    | some block => return { position, block, moves := ← Move.sequence moves scratch }

/-! ## Edges -/

/-- Where the moves of an edge can stand so that they run exactly when it is taken. -/
def placementOf (g : Graph) (source target : BlockId) : Placement :=
  if (g.successors source).length = 1 then .predecessor
  else if (g.predecessors target).length = 1 then .successor
  else .split

/-- The move that a register needs on an edge, between the exit gap of the source and
the first position of the target. -/
def edgeMove? (liveness : Liveness) (exit : Position) (target : Span) (register : VReg) :
    Except Violation (Option Move) := do
  match liveness.life? register with
  | none => throw (.noInterval register)
  | some life =>
    match life.pieceBefore? exit with
    | none => return none
    | some before =>
      match life.pieceAt? target.first with
      | none => throw (.notCovered register target.block target.first)
      | some after =>
        let source ← before.locate
        let target ← after.locate
        return if source = target then none else some { register, source, target }

/-- The moves of one edge, if there are any. -/
def edgeMoves? (order : LinearOrder) (liveness : Liveness) (scratch : Location) (span : Span)
    (b : BlockId) : Except Violation (Option EdgeMoves) := do
  let target ← order.span b
  let moves ← (liveness.liveInto b).mapM (edgeMove? liveness (span.last + 1) target)
  match moves.filterMap id with
  | [] => return none
  | moves =>
    return some
      { source := span.block
        target := b
        placement := placementOf order.graph span.block b
        moves := ← Move.sequence moves scratch }

/-- The groups of moves on edges, by source in linear order and then by target as
declared. -/
def resolveEdges (order : LinearOrder) (liveness : Liveness) (scratch : Location) :
    Except Violation (List EdgeMoves) := do
  let groups ← order.spans.mapM fun span =>
    (order.graph.successors span.block).mapM (edgeMoves? order liveness scratch span)
  return groups.flatten.filterMap id

/-- All groups of moves, those on edges first. -/
def resolve (order : LinearOrder) (liveness : Liveness) (scratch : Location) :
    Except Violation Resolution := do
  let edges ← resolveEdges order liveness scratch
  let gaps ← resolveGaps order liveness scratch
  return { edges, gaps }

end RegAlloc
