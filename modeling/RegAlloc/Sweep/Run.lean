import RegAlloc.Runs
import RegAlloc.Sweep.Step

/-!
# The sweep as a whole

All lifetimes are put in line and the sweep runs until none is waiting. Each
interval that is taken keeps the position it starts at, so there are at most as many
steps as covered positions.

- `Sweep.run` — steps until nothing waits;
- `Swept` — the pieces of all lifetimes, each with a location;
- `sweep` — from lifetimes and a pool to the pieces.
-/

namespace RegAlloc

/-- Lifetimes with a location for every piece. -/
structure Swept where
  lives : List Lifetime
  /-- All pieces, by id. -/
  intervals : List Interval
  /-- The number of spill slots used. -/
  slotCount : Nat
  deriving DecidableEq, Repr, Inhabited

namespace Sweep

/-- Take at most `fuel` intervals, until none is waiting. -/
def run (setup : Setup) : Nat → Sweep → Except Violation Sweep
  | 0, s => if s.waiting.isEmpty then .ok s else .error .sweepUnfinished
  | fuel + 1, s =>
    match s.waiting with
    | [] => .ok s
    | current :: waiting => do run setup fuel (← step setup { s with waiting } current)

/-- Put intervals in line. None may be empty, and of several that are the one that is
first looked at is named. -/
def lineUp (roots : List Interval) : Except Violation Sweep := do
  (Runs.meetingOrder takenBefore roots).forM (·.checkNonempty)
  return { waiting := sortBy takenBefore roots, nextId := roots.length }

/-- The order in which intervals are listed: by id, and should two share one, the
root of a lifetime first. -/
def listedBefore (i j : Interval) : Bool :=
  i.id < j.id || (i.id == j.id && i.origin == .whole && j.origin != .whole)

/-- All intervals of a sweep, by id. -/
def placed (s : Sweep) : List Interval :=
  sortBy listedBefore (s.done ++ s.active ++ s.inactive)

/-- The pieces of a lifetime after a sweep. -/
def collect (placed : List Interval) (life : Lifetime) : Lifetime :=
  let own := placed.filter (·.register == life.register)
  let root := (own.find? (·.origin == .whole)).getD life.root
  (own.filter (·.origin != .whole)).foldl (·.insertPiece ·) { life with root }

/-- The number of positions that a list of intervals covers. -/
def coverage (intervals : List Interval) : Nat :=
  intervals.foldr (Ranges.size ·.ranges + ·) 0

end Sweep

/-- Give every piece of every lifetime a register of the pool or a spill slot,
splitting lifetimes where needed. -/
def sweep (order : LinearOrder) (lives : List Lifetime) (pool : List String) :
    Except Violation Swept := do
  let roots := lives.map (·.root)
  let setup : Sweep.Setup := { order, pool, ends := roots.map fun i => (i.register, i.stop) }
  let s ← Sweep.run setup (Sweep.coverage roots) (← Sweep.lineUp roots)
  return {
    lives := lives.map (Sweep.collect s.placed)
    intervals := s.placed
    slotCount := s.slotCount }

end RegAlloc
