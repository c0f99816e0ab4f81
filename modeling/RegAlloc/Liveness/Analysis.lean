import RegAlloc.Interval.Lifetime
import RegAlloc.Liveness.Pass
import RegAlloc.Outcome
import RegAlloc.Table

/-!
# Liveness of a program

What the backward pass finds, put together: the intervals in which the registers live, the
registers live at the borders of each block, and the values that die at each instruction.

- `Liveness` — the result; `Liveness.given` the same from given parts;
- `LinearOrder.entryErrors`, `LinearOrder.unusedWarnings` — what is wrong with a program besides
  reads after a last use, or worth a warning;
- `LinearOrder.analyze` — the analysis.
-/

namespace RegAlloc

/-- Where the registers of a program are live. -/
structure Liveness where
  /-- One lifetime per register that occurs, by register. -/
  lives : List Lifetime := []
  liveIn : List (BlockId × List VReg) := []
  liveOut : List (BlockId × List VReg) := []
  /-- The registers whose value dies at each position, by position. -/
  kills : List (Position × List VReg) := []
  deriving DecidableEq, Repr, Inhabited

namespace Liveness

/-- The registers live as a block begins, in ascending order. -/
def liveInto (liveness : Liveness) (b : BlockId) : List VReg :=
  (liveness.liveIn.lookup b).getD []

/-- The registers live as a block ends, in ascending order. -/
def liveOutOf (liveness : Liveness) (b : BlockId) : List VReg :=
  (liveness.liveOut.lookup b).getD []

/-- The lifetime of a register. -/
def life? (liveness : Liveness) (r : VReg) : Option Lifetime := Lifetime.find? liveness.lives r

end Liveness

/-- Given lifetimes, with given registers live into the blocks. A block that is listed
again takes the later registers, and into one that is not listed none is live. -/
def Liveness.given (lives : List Lifetime) (liveIn : List (BlockId × List VReg)) : Liveness :=
  { lives, liveIn := Table.ofPairs (liveIn.map fun (b, rs) => (b, ascending rs)) }

/-! ## After the pass -/

/-- Add registers to those live into a block. -/
def addLiveIn (b : BlockId) (rs : List VReg) (liveIn : List (BlockId × List VReg)) :
    List (BlockId × List VReg) :=
  liveIn.map fun (c, live) =>
    (c, if c == b then rs.foldl (fun l r => insertRegister r l) live else live)

/-- Let what is live at a loop header be live into every block of the loop. -/
def LoopSpan.spread (order : LinearOrder) (liveIn : List (BlockId × List VReg)) (loop : LoopSpan) :
    List (BlockId × List VReg) :=
  let inside := order.spans.filter fun span => loop.start ≤ span.first && span.first < loop.stop
  inside.foldl (fun liveIn span => addLiveIn span.block loop.live liveIn) liveIn

/-- Whether a death comes before another: by position, and then by register. -/
def diesBefore (a b : Position × VReg) : Bool := a.1 < b.1 || (a.1 == b.1 && a.2 < b.2)

/-- Add a death to those at its position, unless it is there. -/
def addKill (grouped : List (Position × List VReg)) (kill : Position × VReg) :
    List (Position × List VReg) :=
  let dying := (grouped.lookup kill.1).getD []
  Table.put grouped kill.1 (if kill.2 ∈ dying then dying else dying ++ [kill.2])

/-- The deaths at each position, in ascending order of the positions and of the registers. -/
def groupKills (kills : List (Position × VReg)) : List (Position × List VReg) :=
  (sortBy diesBefore kills).foldl addKill []

namespace LinearOrder

/-- The registers that are live as the program starts. -/
def entryErrors (order : LinearOrder) (liveIn : List (BlockId × List VReg)) : List Issue :=
  match order.blocks.head? with
  | none => []
  | some entry =>
    ((liveIn.lookup entry).getD []).map fun r => .liveAtEntry r (order.graph.nameOf r) entry

/-- The registers live as each block ends: those live into some successor. -/
def liveOutSets (order : LinearOrder) (liveIn : List (BlockId × List VReg)) :
    List (BlockId × List VReg) :=
  order.blocks.map fun b =>
    let sets := (order.graph.successors b).map fun s => (liveIn.lookup s).getD []
    (b, ascending sets.flatten)

/-- The declared registers of a class that have no interval. -/
def unusedWarnings (order : LinearOrder) (regClass : Option String) (intervals : List Interval) :
    List Issue :=
  (order.graph.registers.filter fun register =>
      order.graph.inClass regClass register.id && !intervals.any (·.register == register.id)).map
    fun register => .unused register.id register.name

/-- Find where the registers of a class are live. The program is at fault when a
value is read again after a use marked as its last, or is live at the entry. -/
def analyze (order : LinearOrder) (regClass : Option String) :
    Except Violation (Outcome Issue Liveness) := do
  let s ← order.pass regClass
  let liveIn := s.loops.foldl (LoopSpan.spread order) s.liveIn
  let errors := s.errors ++ order.entryErrors liveIn
  if !errors.isEmpty then
    return .fail errors
  let liveness : Liveness :=
    { lives := s.intervals.map fun root => { root }
      liveIn
      liveOut := order.liveOutSets liveIn
      kills := groupKills s.kills }
  let warnings := order.unusedWarnings regClass s.intervals
  return .success liveness { warnings := if warnings.isEmpty then none else some warnings }

end LinearOrder

end RegAlloc
