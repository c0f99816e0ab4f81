import RegAlloc.Graph.Basic

/-!
# Depth-first walks

A walk explores a graph from its entry, taking successors in the order they were
declared. Its path is the chain of blocks still being explored; an edge that leads
back into the path is a back edge and closes a loop.

- `Walk` — the state of a walk, `Walk.step` one step of it;
- `Graph.walk` — the finished walk: every edge is looked at once, so a number of
  steps bounded by the number of edges is enough.
-/

namespace RegAlloc

/-- A block being explored, with the successors still to look at. -/
structure Frame where
  block : BlockId
  pending : List BlockId
  deriving DecidableEq, Repr, Inhabited

/-- The state of a depth-first walk. -/
structure Walk where
  /-- The blocks being explored, innermost first. -/
  path : List Frame
  /-- All blocks met so far, latest first. -/
  reached : List BlockId
  /-- The edges found to lead back into the path, in the order found. -/
  backEdges : List Edge := []
  deriving DecidableEq, Repr, Inhabited

namespace Walk

/-- The walk that has just entered its first block. -/
def start (g : Graph) (entry : BlockId) : Walk :=
  { path := [⟨entry, g.successors entry⟩], reached := [entry] }

/-- Whether a block is on the path. -/
def onPath (w : Walk) (b : BlockId) : Bool := w.path.any (·.block == b)

/-- Look at one more successor of the innermost block, or leave that block when
none is left. A finished walk stays as it is. -/
def step (g : Graph) (w : Walk) : Walk :=
  match w.path with
  | [] => w
  | ⟨_, []⟩ :: outer => { w with path := outer }
  | ⟨b, s :: pending⟩ :: outer =>
    let path := ⟨b, pending⟩ :: outer
    if w.onPath s then
      { w with path, backEdges := w.backEdges ++ [⟨b, s⟩] }
    else if s ∈ w.reached then
      { w with path }
    else
      { w with path := ⟨s, g.successors s⟩ :: path, reached := s :: w.reached }

/-- The walk after a number of steps. -/
def steps (g : Graph) : Nat → Walk → Walk
  | 0, w => w
  | n + 1, w => steps g n (w.step g)

end Walk

/-- The whole walk from `entry`. Each edge is looked at once and may enter one
block, and each block entered is left once. -/
def Graph.walk (g : Graph) (entry : BlockId) : Walk :=
  Walk.steps g (2 * g.edgeCount + 1) (Walk.start g entry)

end RegAlloc
