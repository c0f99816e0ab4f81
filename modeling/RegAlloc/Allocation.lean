import RegAlloc.Move.Resolution
import RegAlloc.Sweep.Run

/-!
# Allocations

An allocation says for every register where it is kept at every position of its
life, and which moves take it from one place to the next.

- `Allocation` — the data, `Allocation.locate?` and `Allocation.piecesOf` its
  look-ups;
- `Allocation.sweep`, `Allocation.resolve` — the stages that fill it in.
-/

namespace RegAlloc

/-- An allocation, finished or under way. -/
structure Allocation where
  order : LinearOrder
  liveness : Liveness
  /-- All pieces of all lifetimes, by id. -/
  intervals : List Interval
  /-- The pool allocated from. -/
  registers : List String
  /-- The number of spill slots that pieces are kept in. -/
  slotCount : Int := 0
  resolution : Resolution := {}
  deriving DecidableEq, Repr, Inhabited

namespace Allocation

/-- The allocation of a program that has only been analysed. -/
def start (order : LinearOrder) (liveness : Liveness) (registers : List String) : Allocation :=
  { order, liveness, intervals := liveness.lives.map (·.root), registers }

/-- The slot behind those in use, for breaking cycles of moves. -/
def scratch (a : Allocation) : Location := .slot a.slotCount

/-- Where a register is kept at a position, if it is live there. -/
def locate? (a : Allocation) (r : VReg) (p : Position) : Option Location :=
  ((a.liveness.life? r).bind (·.pieceAt? p)).bind (·.location)

/-- The pieces of a register; none if it does not occur. -/
def piecesOf (a : Allocation) (r : VReg) : List Interval :=
  ((a.liveness.life? r).map (·.pieces)).getD []

/-- Give every piece a location. -/
def sweep (a : Allocation) : Except Violation Allocation := do
  let swept ← RegAlloc.sweep a.order a.liveness.lives a.registers
  return { a with
    liveness := { a.liveness with lives := swept.lives }
    intervals := swept.intervals
    slotCount := swept.slotCount }

/-- Find the moves between the pieces. -/
def resolve (a : Allocation) : Except Violation Allocation := do
  return { a with resolution := ← RegAlloc.resolve a.order a.liveness a.scratch }

end Allocation

end RegAlloc
