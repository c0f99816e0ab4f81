import RegAlloc.Interval.Basic
import RegAlloc.Order.Basic

/-!
# The backward pass, for one register

The pass over a program follows all registers at once. They do not influence each other, so what
it does for one of them can be said without the others: a scan reads the linear order backwards
once and knows of a single register whether it is needed, where it lives, where it is used and
where its values die. It looks nothing up and refuses nothing. That the pass has a scan of each
register in it is proved in `RegAlloc.Proofs.Liveness.Pass`.

- `liveBefore` — whether a value is needed before a piece of straight-line code;
- `Track` — what the scan knows of the register, with `Track.write`, `Track.read`
  and `Track.block` following the code;
- `Scan`, `LinearOrder.scan` — the scan of a whole order;
- `LinearOrder.liveInto` — whether the register is live as a block begins.
-/

namespace RegAlloc

/-- Whether a value is needed before straight-line code, given whether it is needed
after it. -/
def liveBefore (r : VReg) (after : Bool) : List Instruction → Bool
  | [] => after
  | i :: rest => i.reads r || (!i.writes r && liveBefore r after rest)

/-- What is known of a register at a point of the scan. -/
structure Track where
  /-- Whether its value is needed from here on. -/
  live : Bool := false
  ranges : List Range := []
  uses : List UsePoint := []
  /-- The instructions at which a value of the register dies. -/
  deaths : List Position := []
  deriving DecidableEq, Repr, Inhabited

namespace Track

/-- Extend the life over a range. -/
def extend (t : Track) (start stop : Position) : Track :=
  { t with ranges := Ranges.add ⟨start, stop⟩ t.ranges }

/-- Follow a write by the instruction at `p`. The value is written in the gap after
the instruction, so that an input which dies there can hand over its register. -/
def write (p : Position) (t : Track) (d : Def) : Track :=
  { live := false
    ranges :=
      if t.live then Ranges.raise (p + 1) t.ranges else Ranges.add ⟨p + 1, p + 2⟩ t.ranges
    uses := Interval.insertUse ⟨p + 1, d.policy, .write⟩ t.uses
    deaths := if t.live then t.deaths else p :: t.deaths }

/-- Follow a read by the instruction at `p` of a block that starts at `first`. -/
def read (first p : Position) (t : Track) (u : Use) : Track :=
  { live := true
    ranges := Ranges.add ⟨first, p + 1⟩ t.ranges
    uses := Interval.insertUse ⟨p, u.policy, .read⟩ t.uses
    deaths := if t.live then t.deaths else p :: t.deaths }

/-- Follow one instruction: its writes, then its reads. -/
def instruction (r : VReg) (first p : Position) (i : Instruction) (t : Track) : Track :=
  let written := (i.defs.filter (·.register == r)).foldl (write p) t
  (i.uses.filter (·.register == r)).foldl (read first p) written

/-- Follow the code from `p` on, last instruction first. -/
def code (r : VReg) (first : Position) : Position → List Instruction → Track → Track
  | _, [], t => t
  | p, i :: rest, t => instruction r first p i (code r first (p + stride) rest t)

/-- Follow a block, given whether the value is needed after it. A value needed at
the start of a loop header is needed until the loop ends. -/
def block (order : LinearOrder) (r : VReg) (span : Span) (liveOut : Bool) (t : Track) : Track :=
  let t := { t with live := liveOut }
  let t := if liveOut then t.extend span.first (span.last + stride) else t
  let t := code r span.first span.first (order.graph.instructions span.block) t
  match order.latchEnd? span.block with
  | some stop => if t.live then t.extend span.first stop else t
  | none => t

end Track

/-- The state of a scan: the register's track, and for each block read so far
whether the register is needed as that block begins. -/
structure Scan where
  track : Track := {}
  needed : List (BlockId × Bool) := []
  deriving DecidableEq, Repr, Inhabited

namespace Scan

/-- Whether the register is needed as a block begins, loops aside. -/
def neededAt (scan : Scan) (b : BlockId) : Bool := (scan.needed.lookup b).getD false

/-- Whether the register is needed after a block, loop edges aside. -/
def neededAfter (scan : Scan) (order : LinearOrder) (b : BlockId) : Bool :=
  (order.graph.successors b).any fun s => !order.isLoopEdge b s && scan.neededAt s

end Scan

namespace LinearOrder

/-- Scan a sequence of blocks backwards. -/
def scanSpans (order : LinearOrder) (r : VReg) : List Span → Scan
  | [] => {}
  | span :: later =>
    let scan := scanSpans order r later
    let track := scan.track.block order r span (scan.neededAfter order span.block)
    { track, needed := (span.block, track.live) :: scan.needed }

/-- Scan the whole order. -/
def scan (order : LinearOrder) (r : VReg) : Scan := order.scanSpans r order.spans

/-- Whether a scanned register is live as a block begins: it is needed there, or
the block lies in a loop whose header needs it. -/
def liveInto (order : LinearOrder) (scan : Scan) (span : Span) : Bool :=
  scan.neededAt span.block
    || order.headers.any fun h => order.loopContains h span.first && scan.neededAt h

end LinearOrder

end RegAlloc
