import RegAlloc.Interval.Basic
import RegAlloc.Issue
import RegAlloc.Order.Basic

/-!
# The backward pass over a program

Where registers live is found in one pass over the blocks, last block first, and over the code of
each block, last instruction first. The pass carries the set of the registers whose value is
needed from there on. What is live at the end of a block comes from its successors along edges
that are not loop edges; a register live at a loop header is kept alive over the whole loop
instead, which takes the place of iterating to a fixed point.

- `ascending`, `insertRegister` — sets of registers, as ascending lists;
- `Pass` — the state of the pass;
- `Pass.write`, `Pass.read`, `Pass.instruction`, `Pass.block` — its steps;
- `LinearOrder.occurring`, `LinearOrder.createIntervals` — the intervals that it starts with;
- `LinearOrder.pass` — the whole pass.
-/

namespace RegAlloc

/-- Add a register to an ascending list, unless it is there. -/
def insertRegister (r : VReg) (rs : List VReg) : List VReg :=
  if r ∈ rs then rs else insertBefore (r < ·) r rs

/-- The registers of a list, each once and in ascending order. -/
def ascending (rs : List VReg) : List VReg := rs.foldl (fun sorted r => insertRegister r sorted) []

/-- The stretch of a loop, and the registers live as its header begins. -/
structure LoopSpan where
  start : Position
  stop : Position
  live : List VReg
  deriving DecidableEq, Repr, Inhabited

/-- The state of a pass. -/
structure Pass where
  /-- One interval for each register that occurs, by register. -/
  intervals : List Interval
  /-- The registers whose value is needed from here on, in ascending order. -/
  live : List VReg := []
  /-- The registers live as each block begins that the pass has left behind. -/
  liveIn : List (BlockId × List VReg) := []
  /-- The values that die, each with the instruction at which it does, as they are found. -/
  kills : List (Position × VReg) := []
  loops : List LoopSpan := []
  errors : List Issue := []
  deriving DecidableEq, Repr, Inhabited

namespace Pass

/-- Change the interval of a register. -/
def changeIn (r : VReg) (f : Interval → Except Violation Interval) :
    List Interval → Except Violation (List Interval)
  | [] => .error (.noInterval r)
  | i :: rest =>
    if i.register == r then return (← f i) :: rest
    else return i :: (← changeIn r f rest)

/-- Change the interval of a register, in the state of a pass. -/
def change (s : Pass) (r : VReg) (f : Interval → Except Violation Interval) :
    Except Violation Pass := do
  return { s with intervals := ← changeIn r f s.intervals }

/-- Let the registers that are live here live from `start` to `stop` as well. -/
def extend (s : Pass) (start stop : Position) : Except Violation Pass :=
  s.live.foldlM (fun s r => s.change r (·.addRange start stop)) s

/-- Let the life of a register begin where the instruction at `p` writes it. The value is written
in the gap after the instruction, so that an input which dies there can hand over its register. -/
def beginAt (p : Position) (d : Def) (isLive : Bool) (interval : Interval) :
    Except Violation Interval := do
  let begun ← if isLive then pure (interval.setFrom (p + 1))
    else interval.addRange (p + 1) (p + 2)
  return begun.addUse ⟨p + 1, d.policy, .write⟩

/-- Let a register live from the start of its block to the instruction at `p` that reads it. -/
def reachTo (first p : Position) (u : Use) (interval : Interval) : Except Violation Interval := do
  let reached ← interval.addRange first (p + 1)
  return reached.addUse ⟨p, u.policy, .read⟩

/-- Follow a write by the instruction at `p`. -/
def write (p : Position) (s : Pass) (d : Def) : Except Violation Pass := do
  let r := d.register
  let next ← s.change r (beginAt p d (r ∈ s.live))
  return { next with
    live := s.live.erase r
    kills := if r ∈ s.live then s.kills else s.kills ++ [(p, r)] }

/-- Follow a read by the instruction `i` at `p`. The value is read again later on if its register
is in `after`, the registers needed after the instruction. -/
def read (g : Graph) (span : Span) (p : Position) (i : Instruction) (after : List VReg) (s : Pass)
    (u : Use) : Except Violation Pass := do
  let r := u.register
  let issue : Issue := .readAfterKill r (g.nameOf r) span.block i.index p
  let next ← s.change r (reachTo span.first p u)
  return { next with
    live := insertRegister r s.live
    kills := if r ∈ s.live then s.kills else s.kills ++ [(p, r)]
    errors := if u.kill && r ∈ after then s.errors ++ [issue] else s.errors }

/-- Follow one instruction: its writes, and then its reads. -/
def instruction (order : LinearOrder) (regClass : Option String) (span : Span) (i : Instruction)
    (s : Pass) : Except Violation Pass := do
  let p ← order.positionOf span.block i.index
  let accepts := order.graph.inClass regClass
  let s ← (i.defs.filter fun d => accepts d.register).foldlM (write p) s
  (i.uses.filter fun u => accepts u.register).foldlM
    (read order.graph span p i s.live) s

/-- The registers live into the successors of a block, loop edges aside. -/
def liveAfter (order : LinearOrder) (b : BlockId) (s : Pass) : List VReg :=
  let successors := (order.graph.successors b).filter fun t => !order.isLoopEdge b t
  ascending (successors.flatMap fun t => (s.liveIn.lookup t).getD [])

/-- Keep what is live at a loop header alive until the loop ends. -/
def closeLoop (order : LinearOrder) (span : Span) (s : Pass) : Except Violation Pass := do
  match ← order.findLatchEnd span.block with
  | none => return s
  | some stop =>
    let s ← s.extend span.first stop
    return { s with loops := s.loops ++ [⟨span.first, stop, s.live⟩] }

/-- Follow a block. -/
def block (order : LinearOrder) (regClass : Option String) (b : BlockId) (s : Pass) :
    Except Violation Pass := do
  let span ← order.span b
  let s ← { s with live := s.liveAfter order b }.extend span.first (span.last + stride)
  let s ← (order.graph.instructions b).foldrM (instruction order regClass span) s
  let s ← s.closeLoop order span
  return { s with liveIn := (b, s.live) :: s.liveIn }

end Pass

namespace LinearOrder

/-- The registers of a class that occur in the program, in ascending order. -/
def occurring (order : LinearOrder) (regClass : Option String) : List VReg :=
  let code := order.graph.blocks.flatMap (·.instructions)
  let operands := code.flatMap fun i => i.uses.map (·.register) ++ i.defs.map (·.register)
  ascending (operands.filter (order.graph.inClass regClass))

/-- An empty interval for each register that occurs, numbered in their order. -/
def createIntervals (order : LinearOrder) (regClass : Option String) : List Interval :=
  (order.occurring regClass).zipIdx.map fun (register, id) => { id, register }

/-- The pass over the whole program. -/
def pass (order : LinearOrder) (regClass : Option String) : Except Violation Pass :=
  order.blocks.foldrM (Pass.block order regClass)
    { intervals := order.createIntervals regClass }

end LinearOrder

end RegAlloc
