import RegAlloc.Range
import RegAlloc.Sorted

/-!
# Live intervals

An interval is the set of positions at which a value of one virtual register is
live, together with the positions at which it is read or written. Splitting an
interval leaves it with what lies before the cut and gives the rest to a new
interval.

- `UsePoint`, `Origin`, `Interval` — the data;
- `Interval.addRange`, `setFrom`, `addUse` — building an interval;
- `Interval.nextRegisterUse?`, `nextRangeStart?`, `firstCommon?` — looking ahead;
- `Interval.split` — cutting it in two.
-/

namespace RegAlloc

/-- Whether a value is read or written. -/
inductive Access where
  | read
  | write
  deriving DecidableEq, Repr, Inhabited

/-- A position at which a value is read or written. -/
structure UsePoint where
  position : Position
  policy : Policy
  access : Access
  deriving DecidableEq, Repr, Inhabited

/-- How an interval came to be: as the whole life of a register, or cut off from
the interval `parent`, in the family of `root`, at `position`. -/
inductive Origin where
  | whole
  | split (root parent : IntervalId) (position : Position)
  deriving DecidableEq, Repr, Inhabited

/-- A live interval. -/
structure Interval where
  id : IntervalId
  register : VReg
  origin : Origin := .whole
  ranges : List Range := []
  /-- In order of position, equal ones as they were added. -/
  uses : List UsePoint := []
  location : Option Location := none
  deriving DecidableEq, Repr, Inhabited

namespace Interval

/-! ## Extent -/

/-- Whether nothing is covered. -/
def isEmpty (i : Interval) : Bool := i.ranges.isEmpty

/-- The first covered position. -/
def start? (i : Interval) : Option Position := i.ranges.head?.map (·.start)

/-- One past the last covered position. -/
def stop? (i : Interval) : Option Position := i.ranges.getLast?.map (·.stop)

/-- The first covered position, zero when there is none. -/
def start (i : Interval) : Position := i.start?.getD 0

/-- One past the last covered position, zero when there is none. -/
def stop (i : Interval) : Position := i.stop?.getD 0

/-- Refuse an interval without ranges. -/
def checkNonempty (i : Interval) : Except Violation Unit :=
  if i.isEmpty then .error (.emptyInterval i.id) else .ok ()

/-- Whether a position is covered. -/
def covers (i : Interval) (p : Position) : Bool := Ranges.covers i.ranges p

/-! ## Building -/

/-- Cover `start` up to `stop` as well. -/
def addRange (i : Interval) (start stop : Position) : Except Violation Interval :=
  if start < stop then .ok { i with ranges := Ranges.add ⟨start, stop⟩ i.ranges }
  else .error (.emptyRange start stop)

/-- Let the range around a position start there; a position that is not covered is
added alone. -/
def setFrom (i : Interval) (p : Position) : Interval := { i with ranges := Ranges.raise p i.ranges }

/-- Put a use among those of the interval, by position. -/
def insertUse (use : UsePoint) (uses : List UsePoint) : List UsePoint :=
  insertBefore (fun other => use.position < other.position) use uses

/-- Add a use. -/
def addUse (i : Interval) (use : UsePoint) : Interval := { i with uses := insertUse use i.uses }

/-! ## Looking ahead -/

/-- The first position from `p` on at which the value has to be in a register. -/
def nextRegisterUse? (i : Interval) (p : Position) : Option Position :=
  (i.uses.find? fun use => p ≤ use.position && use.policy == .register).map (·.position)

/-- The start of the first range after `p`. -/
def nextRangeStart? (i : Interval) (p : Position) : Option Position :=
  Ranges.nextStart? i.ranges p

/-- The least position that two intervals both cover. -/
def firstCommon? (i j : Interval) : Option Position := Ranges.firstCommon? i.ranges j.ranges

/-- Whether two intervals cover a common position. -/
def meets (i j : Interval) : Bool := (i.firstCommon? j).isSome

/-- The register an interval is in. -/
def register? (i : Interval) : Option String := i.location.bind (·.register?)

/-- Whether an interval is in the given register. -/
def isIn (i : Interval) (name : String) : Bool := i.location == some (.register name)

/-! ## Splitting -/

/-- The id of the interval at the head of the family. -/
def rootId (i : Interval) : IntervalId :=
  match i.origin with
  | .whole => i.id
  | .split root _ _ => root

/-- What an interval keeps when it is cut. -/
def keepBefore (i : Interval) (p : Position) : Interval :=
  { i with
    ranges := Ranges.before i.ranges p
    uses := i.uses.filter (·.position < p) }

/-- What is cut off from an interval, as a new one. -/
def cutOff (i : Interval) (p : Position) (id : IntervalId) : Interval :=
  { id
    register := i.register
    origin := .split i.rootId i.id p
    ranges := Ranges.onward i.ranges p
    uses := i.uses.filter (p ≤ ·.position) }

/-- Cut an interval at a position strictly inside it: the part that it keeps, and
the rest as the interval `id`. -/
def split (i : Interval) (p : Position) (id : IntervalId) :
    Except Violation (Interval × Interval) := do
  i.checkNonempty
  if i.start < p ∧ p < i.stop then return (i.keepBefore p, i.cutOff p id)
  else throw (.cannotSplit i.id i.start i.stop p)

end Interval

end RegAlloc
