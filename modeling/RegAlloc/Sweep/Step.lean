import RegAlloc.Sweep.State

/-!
# Steps of the sweep

Each step gives a location to one interval. A free register is taken if there is
one, preferably one that the value was in before and that nobody resumes in while
the interval lives. Otherwise the interval whose next register-required use is
furthest away goes to memory, up to just before that use. Cuts fall on the start of
the block with the fewest loops around it, where the limits allow.

- `Sweep.assign` — take a register;
- `Sweep.victim`, `Sweep.spill`, `Sweep.evict` — make room;
- `Sweep.step` — one step.
-/

namespace RegAlloc

namespace Sweep

/-! ## Taking a register -/

/-- Cut an inactive rival where it resumes; the rest waits for another place. -/
def displace (p : Position) (s : Sweep) (rival : Interval) : Except Violation Sweep := do
  match rival.nextRangeStart? p with
  | none => throw (.neverResumes rival.id)
  | some resume =>
    let (kept, rest) ← rival.split resume s.nextId
    return { s with done := s.done ++ [kept], nextId := s.nextId + 1 }.enqueue rest

/-- Put `current` in a register from `p` on, displacing the inactive intervals that
would be in its way. -/
def assign (s : Sweep) (current : Interval) (name : String) (p : Position) :
    Except Violation Sweep := do
  let rivals := s.rivals name current
  let others := s.inactive.filter fun i => !(i.isIn name && i.meets current)
  let s ← rivals.foldlM (displace p) { s with inactive := others }
  return { s with active := s.active ++ [{ current with location := some (.register name) }] }

/-- The register that the nearest earlier piece of the same value was in. -/
def hint? (s : Sweep) (current : Interval) : Option String :=
  let earlier := (s.done ++ s.active ++ s.inactive).filter fun i =>
    i.register == current.register && i.start < current.start && i.register?.isSome
  let nearest := earlier.foldl
    (fun best i => match best with
      | none => some i
      | some b => if b.start < i.start then some i else some b)
    (none : Option Interval)
  nearest.bind (·.register?)

/-- The register to take among free ones: the hint if it suits, else the first that
suits, else the first of all. -/
def choose (s : Sweep) (current : Interval) (free : List String) : Option String :=
  let clear (name : String) : Bool := (s.rivals name current).isEmpty
  match (s.hint? current).filter fun name => free.contains name && clear name with
  | some name => some name
  | none => (free.find? clear).or free.head?

/-! ## Making room -/

/-- The position in `(after, latest]` to cut at: the start of a block in the fewest
loops, the latest such, or `latest` itself when no block starts there. -/
def cutPosition (order : LinearOrder) (after latest : Position) : Position :=
  let starts := (order.spans.map (·.first)).filter fun first => after < first && first ≤ latest
  let best := starts.foldl
    (fun best first => match best with
      | none => some first
      | some b => if order.depthAt first ≤ order.depthAt b then some first else some b)
    (none : Option Position)
  best.getD latest

/-- The latest use of an interval before a position, or its start. -/
def lastUseBefore (i : Interval) (p : Position) : Position :=
  i.uses.foldl (fun latest use => if use.position < p then use.position else latest) i.start

/-- The position by which `current` needs its register vacated. An interval that
starts with a write is written by the instruction before. -/
def evictBy (current : Interval) (p : Position) : Position :=
  match current.uses.head? with
  | some use => if use.access = .write ∧ use.position = p then p - 1 else p
  | none => p

/-- A candidate for memory, with the next position at which it needs a register. -/
structure Candidate where
  interval : Interval
  nextUse : Option Position
  deriving DecidableEq, Repr, Inhabited

/-- Whether a next use is further away than another; never is furthest. -/
def furtherUse : Option Position → Option Position → Bool
  | none, some _ => true
  | some u, some v => v < u
  | _, none => false

/-- Whether one candidate is to go to memory rather than another: the one needed
later, then the one that lives longer, then the one of the lower register. -/
def Candidate.outranks (a b : Candidate) : Bool :=
  furtherUse a.nextUse b.nextUse
    || (a.nextUse == b.nextUse
      && (b.interval.stop < a.interval.stop
        || (a.interval.stop == b.interval.stop && a.interval.register < b.interval.register)))

/-- The active interval to evict for `current`, by its index, with its next use;
no index if `current` itself goes to memory. -/
def victim (s : Sweep) (current : Interval) (p : Position) : Option Nat × Candidate :=
  let limit := evictBy current p
  s.active.zipIdx.foldl
    (fun (chosen, best) (i, index) =>
      let candidate : Candidate := ⟨i, i.nextRegisterUse? limit⟩
      if candidate.outranks best then (some index, candidate) else (chosen, best))
    (none, ⟨current, current.nextRegisterUse? p⟩)

/-- Refuse to keep a value in memory from `spillFrom` on if it is needed in a
register too soon. -/
def checkRoom (nextUse : Option Position) (spillFrom : Position) : Except Violation Unit :=
  match nextUse with
  | some use => if spillFrom < use - 1 then .ok () else .error (.tooManyValues use)
  | none => .ok ()

/-- Put an interval in its home slot. The part from before its next required use
waits for a register, from `p` on at the earliest. -/
def spill (s : Sweep) (setup : Setup) (i : Interval) (nextUse : Option Position) (p : Position) :
    Except Violation Sweep := do
  let (s, slot) := s.homeSlot i.register
  let i := { i with location := some (.slot slot) }
  match nextUse with
  | none => return { s with done := s.done ++ [i] }
  | some use =>
    let cut := cutPosition setup.order (max i.start (p - 1)) (use - 1)
    let (kept, rest) ← i.split cut s.nextId
    return { s with done := s.done ++ [kept], nextId := s.nextId + 1 }.enqueue rest

/-- Take a register from an active interval. What it has done so far stays, the rest
goes to memory. -/
def evict (s : Sweep) (setup : Setup) (i : Interval) (limit : Position)
    (nextUse : Option Position) (p : Position) : Except Violation Sweep := do
  if limit ≤ i.start then
    s.spill setup i nextUse p
  else
    let cut := cutPosition setup.order (lastUseBefore i limit) limit
    let (kept, rest) ← i.split cut s.nextId
    { s with done := s.done ++ [kept], nextId := s.nextId + 1 }.spill setup rest nextUse p

/-- Find a place for `current` when no register is free. -/
def makeRoom (s : Sweep) (setup : Setup) (current : Interval) (p : Position) :
    Except Violation Sweep := do
  let limit := evictBy current p
  match s.victim current p with
  | (none, candidate) =>
    checkRoom candidate.nextUse p
    s.spill setup current candidate.nextUse p
  | (some index, candidate) =>
    checkRoom candidate.nextUse (max limit candidate.interval.start)
    let name ← registerOf candidate.interval
    let s := { s with active := s.active.eraseIdx index }
    let s ← s.evict setup candidate.interval limit candidate.nextUse p
    s.assign current name p

/-! ## One step -/

/-- Give `current`, which was next in line, a location. -/
def step (setup : Setup) (s : Sweep) (current : Interval) : Except Violation Sweep := do
  let p := current.start
  let s ← s.advance p
  let s := s.releaseSlots setup p
  match s.choose current (setup.pool.filter s.isFree) with
  | some name => s.assign current name p
  | none => s.makeRoom setup current p

end Sweep

end RegAlloc
