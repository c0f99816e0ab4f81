import RegAlloc.Interval.Lifetime
import RegAlloc.Table

/-!
# Intervals made by hand

A bench holds lifetimes under construction. Intervals are known by the order in
which they were made, whatever ids they were given; making, cutting and assigning
them by hand is how given intervals are fed to the later stages.

- `Bench.make`, `Bench.split` — new intervals;
- `Bench.modify` — changes to an interval;
- `IntervalSpec`, `Bench.build` — a whole bench from a description.
-/

namespace RegAlloc

/-- Where an interval of a bench is: the lifetime and the piece of it. -/
structure Handle where
  life : Nat
  piece : Nat
  deriving DecidableEq, Repr, Inhabited

/-- Lifetimes under construction. -/
structure Bench where
  lives : List Lifetime := []
  /-- The intervals in the order in which they were made. -/
  handles : List Handle := []
  deriving DecidableEq, Repr, Inhabited

namespace Bench

/-- The lifetime and the interval made at a turn. -/
def at? (bench : Bench) (turn : Nat) : Option (Lifetime × Interval) := do
  let handle ← bench.handles[turn]?
  let life ← bench.lives[handle.life]?
  return (life, ← life.pieces[handle.piece]?)

/-- Start a new lifetime. -/
def make (bench : Bench) (id : IntervalId) (register : VReg) : Bench :=
  { lives := bench.lives ++ [{ root := { id, register } }]
    handles := bench.handles ++ [⟨bench.lives.length, 0⟩] }

/-- Change the interval made at a turn. -/
def modify (bench : Bench) (turn : Nat) (f : Interval → Interval) : Bench :=
  match bench.handles[turn]? with
  | none => bench
  | some handle =>
    { bench with lives := bench.lives.modify handle.life (·.modifyPiece handle.piece f) }

/-- Change the interval made at a turn, unless the change is refused. -/
def tryModify (bench : Bench) (turn : Nat) (f : Interval → Except Violation Interval) :
    Except Violation Bench :=
  match bench.at? turn with
  | none => .ok bench
  | some (_, interval) => do
    let changed ← f interval
    return bench.modify turn fun _ => changed

/-- The place of a piece after another one took the index `index` of lifetime `life`. -/
def shift (life index : Nat) (handle : Handle) : Handle :=
  if handle.life = life ∧ index ≤ handle.piece then { handle with piece := handle.piece + 1 }
  else handle

/-- Cut the interval made at a turn; the new one is the last to be made. -/
def split (bench : Bench) (turn : Nat) (p : Position) (id : IntervalId) :
    Except Violation Bench :=
  match bench.handles[turn]? with
  | none => .ok bench
  | some handle =>
    match bench.lives[handle.life]? with
    | none => .ok bench
    | some life => do
      let (changed, index) ← life.split handle.piece p id
      return {
        lives := bench.lives.set handle.life changed
        handles := bench.handles.map (shift handle.life index) ++ [⟨handle.life, index⟩] }

/-- The turns at which the intervals of a lifetime were made. -/
def turnsOf (bench : Bench) (life : Nat) : List Nat :=
  (bench.handles.zipIdx.filter fun (handle, _) => handle.life == life).map (·.2)

/-- All intervals in the order in which they were made. -/
def intervals (bench : Bench) : List Interval :=
  (List.range bench.handles.length).filterMap fun turn => (bench.at? turn).map (·.2)

end Bench

/-- A description of a lifetime: its ranges and uses, where to cut which of its
intervals, and the locations of these, in the order in which they are made. -/
structure IntervalSpec where
  register : VReg
  ranges : List Range := []
  uses : List UsePoint := []
  splits : List (Nat × Position) := []
  locations : List (Option Location) := []
  deriving DecidableEq, Repr, Inhabited

namespace Bench

/-- Make the root interval of a description. -/
def addRoot (bench : Bench) (spec : IntervalSpec) : Except Violation Bench := do
  let turn := bench.handles.length
  let bench := bench.make bench.lives.length spec.register
  let bench ← spec.ranges.foldlM
    (fun bench r => bench.tryModify turn fun i => i.addRange r.start r.stop) bench
  return spec.uses.foldl (fun bench use => bench.modify turn (·.addUse use)) bench

/-- Make the cuts of a description; each new interval takes the next free id. -/
def addSplits (bench : Bench) (life : Nat) (spec : IntervalSpec) : Except Violation Bench :=
  spec.splits.foldlM
    (fun bench (piece, p) =>
      match (bench.turnsOf life)[piece]? with
      | none => throw (.noPiece piece)
      | some turn => bench.split turn p bench.handles.length)
    bench

/-- Give the intervals of a description their locations. -/
def addLocations (bench : Bench) (life : Nat) (spec : IntervalSpec) : Bench :=
  ((bench.turnsOf life).zip spec.locations).foldl
    (fun bench (turn, location) => bench.modify turn fun i => { i with location }) bench

/-- The bench of a list of descriptions: first all roots, then the cuts, then the
locations. -/
def build (specs : List IntervalSpec) : Except Violation Bench := do
  let bench ← specs.foldlM addRoot {}
  let bench ← specs.zipIdx.foldlM (fun bench (spec, life) => bench.addSplits life spec) bench
  return specs.zipIdx.foldl (fun bench (spec, life) => bench.addLocations life spec) bench

/-- The lifetimes by register: a register listed again takes the earlier place. -/
def byRegister (bench : Bench) : List Lifetime :=
  (Table.ofPairs (bench.lives.map fun life => (life.register, life))).map (·.2)

end Bench

end RegAlloc
