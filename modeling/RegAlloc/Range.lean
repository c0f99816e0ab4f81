import RegAlloc.Violation

/-!
# Lists of ranges

A set of positions is kept as a list of half-open ranges, in ascending order and
with at least one uncovered position between neighbours, so that each set has one
list.

- `Range`, `Range.covers` — one half-open range;
- `Ranges.covers` — the positions a list stands for;
- `Ranges.add` — union with one range; `Ranges.raise` — cut the front of the range
  around a position;
- `Ranges.firstCommon?` — the least position of two lists;
- `Ranges.before`, `Ranges.onward` — the two sides of a cut.
-/

namespace RegAlloc

/-- The positions from `start` up to but not including `stop`. -/
structure Range where
  start : Position
  stop : Position
  deriving DecidableEq, Repr, Inhabited

namespace Range

/-- Whether a position lies in a range. -/
def covers (r : Range) (p : Position) : Bool := r.start ≤ p && p < r.stop

/-- The smallest range around two ranges. -/
def hull (r s : Range) : Range := ⟨min r.start s.start, max r.stop s.stop⟩

/-- The least position of two ranges, if they have one in common. -/
def firstCommon? (r s : Range) : Option Position :=
  let start := max r.start s.start
  if start < min r.stop s.stop then some start else none

/-- The part of a range before a position. -/
def before? (r : Range) (p : Position) : Option Range :=
  if r.stop ≤ p then some r else if p ≤ r.start then none else some ⟨r.start, p⟩

/-- The part of a range from a position on. -/
def onward? (r : Range) (p : Position) : Option Range :=
  if r.stop ≤ p then none else if p ≤ r.start then some r else some ⟨p, r.stop⟩

/-- The number of positions in a range. -/
def size (r : Range) : Nat := (r.stop - r.start).toNat

@[simp] theorem covers_iff {r : Range} {p : Position} :
    r.covers p = true ↔ r.start ≤ p ∧ p < r.stop := by
  simp [covers]

end Range

namespace Ranges

/-- Whether some range of the list covers a position. -/
def covers (rs : List Range) (p : Position) : Bool := rs.any (·.covers p)

/-- Add a range, merging it with every range that it overlaps or touches. -/
def add (r : Range) : List Range → List Range
  | [] => [r]
  | s :: rest =>
    if s.stop < r.start then s :: add r rest
    else if r.stop < s.start then r :: s :: rest
    else add (r.hull s) rest

/-- Let the range around `p` start at `p`; without such a range, add `p` alone. -/
def raise (p : Position) (rs : List Range) : List Range :=
  if covers rs p then rs.map fun r => if r.covers p then { r with start := p } else r
  else add ⟨p, p + 1⟩ rs

/-- The least position that a list and `r`, or what follows it, both cover. Of two ranges
without a common position the one that stops first is left behind; when this is `r`,
`further` goes on with what follows it. -/
def firstCommonFrom? (r : Range) (further : List Range → Option Position) :
    List Range → Option Position
  | [] => none
  | s :: ss =>
    match r.firstCommon? s with
    | some p => some p
    | none => if r.stop ≤ s.stop then further (s :: ss) else firstCommonFrom? r further ss

/-- The least position that both lists cover, found in one walk along them. -/
def firstCommon? : List Range → List Range → Option Position
  | [], _ => none
  | r :: rs, ss => firstCommonFrom? r (firstCommon? rs) ss

/-- The start of the first range that begins after a position. -/
def nextStart? (rs : List Range) (p : Position) : Option Position :=
  (rs.find? fun r => p < r.start).map (·.start)

/-- What lies before a position. -/
def before (rs : List Range) (p : Position) : List Range := rs.filterMap (·.before? p)

/-- What lies at a position or after it. -/
def onward (rs : List Range) (p : Position) : List Range := rs.filterMap (·.onward? p)

/-- The number of positions in the list. -/
def size (rs : List Range) : Nat := rs.foldr (·.size + ·) 0

@[simp] theorem covers_iff {rs : List Range} {p : Position} :
    covers rs p = true ↔ ∃ r ∈ rs, r.start ≤ p ∧ p < r.stop := by
  simp [covers]

end Ranges

end RegAlloc
