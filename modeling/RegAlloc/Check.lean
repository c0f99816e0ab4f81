import RegAlloc.Allocation

/-!
# Checking an allocation

A finished allocation is checked on its own terms: every piece has a place that suits
its uses, no two pieces share a place at the same time, and replaying the moves of
each edge and gap brings every value to where its next piece expects it. Places are
told apart by their text.

- `Contents`, `Contents.replay` — what the locations hold, and how moves change it;
- `Allocation.checkLocations`, `checkOverlaps`, `checkEdges`, `checkGaps` — the four
  checks;
- `Allocation.verify` — all of them.
-/

namespace RegAlloc

/-! ## Contents of locations -/

/-- What each location holds, by the text of the location. -/
abbrev Contents := List (String × VReg)

namespace Contents

/-- The register whose value a location holds. -/
def get? (contents : Contents) (location : Location) : Option VReg := contents.lookup location.text

/-- Put a value in a location. -/
def put (contents : Contents) (location : Location) (r : VReg) : Contents :=
  Table.put contents location.text r

/-- Carry out one move, which must find the value that it names. -/
def move (contents : Contents) (m : Move) : Except Violation Contents :=
  if contents.get? m.source = some m.register then .ok (contents.put m.target m.register)
  else .error (.staleMove m.register m.source (contents.get? m.source))

/-- Carry out moves in order. -/
def replay (contents : Contents) (moves : List Move) : Except Violation Contents :=
  moves.foldlM move contents

end Contents

/-- What the locations hold as the moves of a gap begin. -/
def contentsBefore (lives : List Lifetime) (gap : Position) : Contents :=
  lives.foldl
    (fun contents life =>
      match (life.pieceBefore? gap).bind (·.location) with
      | some location => contents.put location life.register
      | none => contents)
    []

namespace Allocation

/-! ## Pieces -/

/-- Refuse a piece without a place, in a register that is not in the pool, or in
memory although a use of it needs a register. -/
def checkLocation (a : Allocation) (i : Interval) : Except Violation Unit := do
  match ← i.locate with
  | .register name => if name ∈ a.registers then return () else throw (.unknownRegister i.id name)
  | .slot index =>
    match i.uses.find? (·.policy == .register) with
    | none => return ()
    | some use => throw (.needsRegister i.register use.position (.slot index))

/-- Check the places of all pieces. -/
def checkLocations (a : Allocation) : Except Violation Unit := a.intervals.forM a.checkLocation

/-- Refuse two pieces at one place that cover a common position. -/
def checkApart (place : String) : List Interval → Except Violation Unit
  | [] => .ok ()
  | i :: rest => do
    rest.forM fun j =>
      match i.firstCommon? j with
      | none => return ()
      | some p => throw (.overlap i.id j.id place p)
    checkApart place rest

/-- Whether a piece is at the place with the given text. -/
def isAt (place : String) (i : Interval) : Bool := i.location.map (·.text) == some place

/-- Check that pieces at one place do not overlap, place by place. -/
def checkOverlaps (a : Allocation) : Except Violation Unit :=
  let places := (a.intervals.filterMap fun i => i.location.map (·.text)).eraseDups
  places.forM fun place => checkApart place (a.intervals.filter (isAt place))

/-! ## Moves -/

/-- Check that a register which leaves by an edge is in place when the moves of the
edge have been made. -/
def checkArrival (a : Allocation) (edge : Edge) (exit entry : Position) (contents : Contents)
    (r : VReg) : Except Violation Unit := do
  match a.liveness.life? r with
  | none => throw (.noInterval r)
  | some life =>
    if (life.pieceBefore? exit).isNone then return ()
    match (life.pieceAt? entry).bind (·.location) with
    | none => throw (.noTarget r entry)
    | some target =>
      if contents.get? target = some r then return () else throw (.lostOnEdge r target edge)

/-- Check the moves of one edge. -/
def checkEdge (a : Allocation) (span : Span) (b : BlockId) : Except Violation Unit := do
  let entry := (← a.order.span b).first
  let exit := span.last + 1
  let group := a.resolution.edges.find? fun e =>
    e.source == (span.block : Ref) && e.target == (b : Ref)
  let moves := (group.map (·.moves)).getD []
  let contents ← (contentsBefore a.liveness.lives exit).replay moves
  (a.liveness.liveInto b).forM (a.checkArrival ⟨span.block, b⟩ exit entry contents)

/-- Check the moves of all edges. -/
def checkEdges (a : Allocation) : Except Violation Unit :=
  a.order.spans.forM fun span => (a.order.graph.successors span.block).forM (a.checkEdge span)

/-- Check that the moves of a gap connect two neighbouring pieces. -/
def checkBridge (a : Allocation) (r : VReg) (i j : Interval) : Except Violation Unit := do
  if !i.touches j then return ()
  match a.order.splitGap? j.start with
  | none => return ()
  | some gap =>
    let group := a.resolution.gaps.find? (·.position == gap)
    let moves := (group.map (·.moves)).getD []
    let contents ← (contentsBefore a.liveness.lives gap).replay moves
    let target ← j.locate
    if contents.get? target = some r then return () else throw (.lostInGap r target gap)

/-- Check the moves of all gaps. -/
def checkGaps (a : Allocation) : Except Violation Unit :=
  a.liveness.lives.forM fun life =>
    life.neighbours.forM fun (i, j) => a.checkBridge life.register i j

/-- All checks. -/
def verify (a : Allocation) : Except Violation Unit := do
  a.checkLocations
  a.checkOverlaps
  a.checkEdges
  a.checkGaps

end Allocation

end RegAlloc
