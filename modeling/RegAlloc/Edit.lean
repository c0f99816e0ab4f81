import RegAlloc.Allocation

/-!
# Edits to an allocation

Changes made by hand to a finished allocation, such as moving a piece elsewhere or
leaving out a move, after which the checks can be run again to see what they notice.
-/

namespace RegAlloc

/-- The two kinds of groups of moves. -/
inductive GroupKind where
  | edges
  | gaps
  deriving DecidableEq, Repr, Inhabited

/-- A change to a finished allocation. -/
inductive Edit where
  /-- Put the piece at an index of the list of all pieces elsewhere. -/
  | relocate (index : Nat) (location : Option Location)
  | setPool (registers : List String)
  /-- Leave out a group of moves. -/
  | dropGroup (kind : GroupKind) (index : Nat)
  | setMoves (kind : GroupKind) (index : Nat) (moves : List Move)
  /-- Leave out one move of a group. -/
  | dropMove (kind : GroupKind) (index move : Nat)
  | reverseMoves (kind : GroupKind) (index : Nat)
  /-- Forget the lifetime of a register. -/
  | forget (register : VReg)
  /-- Call a register live into a block. -/
  | addLiveIn (block : BlockId) (register : VReg)
  deriving DecidableEq, Repr, Inhabited

namespace Resolution

/-- Leave out a group. -/
def dropGroup (r : Resolution) : GroupKind → Nat → Resolution
  | .edges, index => { r with edges := r.edges.eraseIdx index }
  | .gaps, index => { r with gaps := r.gaps.eraseIdx index }

/-- Change the moves of a group. -/
def modifyMoves (r : Resolution) (f : List Move → List Move) : GroupKind → Nat → Resolution
  | .edges, index => { r with edges := r.edges.modify index fun e => { e with moves := f e.moves } }
  | .gaps, index => { r with gaps := r.gaps.modify index fun g => { g with moves := f g.moves } }

end Resolution

namespace Liveness

/-- Put the piece with an id of a register elsewhere. -/
def relocate (liveness : Liveness) (register : VReg) (id : IntervalId)
    (location : Option Location) : Liveness :=
  let place (i : Interval) : Interval := if i.id == id then { i with location } else i
  let placeIn (life : Lifetime) : Lifetime :=
    if life.register == register then
      { root := place life.root, children := life.children.map place }
    else life
  { liveness with lives := liveness.lives.map placeIn }

/-- Call a register live into a block of the program. -/
def addLiveIn (liveness : Liveness) (block : BlockId) (register : VReg) : Liveness :=
  { liveness with
    liveIn := liveness.liveIn.map fun (b, rs) =>
      if b == block then (b, insertRegister register rs) else (b, rs) }

end Liveness

namespace Allocation

/-- Make a change. -/
def edit (a : Allocation) : Edit → Allocation
  | .relocate index location =>
    match a.intervals[index]? with
    | none => a
    | some i =>
      { a with
        intervals := a.intervals.set index { i with location }
        liveness := a.liveness.relocate i.register i.id location }
  | .setPool registers => { a with registers }
  | .dropGroup kind index => { a with resolution := a.resolution.dropGroup kind index }
  | .setMoves kind index moves =>
    { a with resolution := a.resolution.modifyMoves (fun _ => moves) kind index }
  | .dropMove kind index move =>
    { a with resolution := a.resolution.modifyMoves (·.eraseIdx move) kind index }
  | .reverseMoves kind index =>
    { a with resolution := a.resolution.modifyMoves List.reverse kind index }
  | .forget register =>
    { a with
      liveness :=
        { a.liveness with lives := a.liveness.lives.filter (·.register != register) } }
  | .addLiveIn block register =>
    { a with liveness := a.liveness.addLiveIn block register }

end Allocation

end RegAlloc
