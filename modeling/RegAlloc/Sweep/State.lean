import RegAlloc.Interval.Lifetime
import RegAlloc.Order.Basic

/-!
# State of the sweep

The sweep takes intervals in order of their start. Every interval is in exactly one
of four lists: waiting to be taken, active (live and in a register), inactive (in a
register, but in a hole of its life), or done. A register of the pool is free while
no active interval is in it.

- `Sweep` — the state; `Sweep.Setup` what stays fixed during a sweep;
- `Sweep.enqueue`, `Sweep.advance`, `Sweep.releaseSlots`, `Sweep.homeSlot` — its
  elementary changes.
-/

namespace RegAlloc

/-- The state of a sweep. -/
structure Sweep where
  /-- By start, then register, then id. -/
  waiting : List Interval
  active : List Interval := []
  inactive : List Interval := []
  done : List Interval := []
  /-- The spill slots in use, each with the register whose home it is. -/
  homes : List (VReg × Nat) := []
  /-- The number of slots used so far. -/
  slotCount : Nat := 0
  /-- The id of the next interval to be split off. -/
  nextId : Nat
  deriving DecidableEq, Repr, Inhabited

namespace Sweep

/-- What stays fixed during a sweep. -/
structure Setup where
  order : LinearOrder
  /-- The physical registers, in order of preference. -/
  pool : List String
  /-- Where the life of each register ends. -/
  ends : List (VReg × Position)
  deriving DecidableEq, Repr, Inhabited

/-- The order in which intervals are taken. -/
def takenBefore (i j : Interval) : Bool :=
  i.start < j.start
    || (i.start == j.start
      && (i.register < j.register || (i.register == j.register && i.id < j.id)))

/-- Put an interval among those waiting. -/
def enqueue (s : Sweep) (i : Interval) : Sweep :=
  { s with waiting := insertBefore (takenBefore i) i s.waiting }

/-- The register an interval is in; intervals that are active or inactive have one. -/
def registerOf (i : Interval) : Except Violation String :=
  match i.register? with
  | some name => .ok name
  | none => .error (.notInRegister i.id)

/-- Whether no active interval is in a register. -/
def isFree (s : Sweep) (name : String) : Bool := !s.active.any (·.isIn name)

/-- The inactive intervals in a register that cover a position of `i`. -/
def rivals (s : Sweep) (name : String) (i : Interval) : List Interval :=
  s.inactive.filter fun other => other.isIn name && other.meets i

/-! ## Moving on -/

/-- Wake an inactive interval whose hole has ended. -/
def wake (p : Position) (s : Sweep) (i : Interval) : Except Violation Sweep := do
  if i.stop ≤ p then
    return { s with done := s.done ++ [i] }
  else if i.covers p then
    let name ← registerOf i
    if s.isFree name then return { s with active := s.active ++ [i] }
    else throw (.registerTaken i.id p name)
  else
    return { s with inactive := s.inactive ++ [i] }

/-- Move on to a position: intervals that have ended are done, active ones in a hole
become inactive, and inactive ones that resume become active. -/
def advance (s : Sweep) (p : Position) : Except Violation Sweep := do
  (s.active ++ s.inactive).forM fun i => discard (registerOf i)
  let ended := s.active.filter (·.stop ≤ p)
  let running := s.active.filter (p < ·.stop)
  let parked := running.filter (!·.covers p)
  let retired :=
    { s with active := running.filter (·.covers p), inactive := [], done := s.done ++ ended }
  (s.inactive ++ parked).foldlM (wake p) retired

/-- Give up the slots of registers whose life has ended. -/
def releaseSlots (s : Sweep) (setup : Setup) (p : Position) : Sweep :=
  { s with homes := s.homes.filter fun (r, _) => p < (setup.ends.lookup r).getD 0 }

/-! ## Slots -/

/-- The lowest slot that is nobody's home. -/
def lowestFreeSlot (homes : List (VReg × Nat)) : Nat :=
  ((List.range homes.length).find? fun slot => slot ∉ homes.map (·.2)).getD homes.length

/-- The home slot of a register, found for it if it has none. -/
def homeSlot (s : Sweep) (r : VReg) : Sweep × Nat :=
  match s.homes.lookup r with
  | some slot => (s, slot)
  | none =>
    let slot := lowestFreeSlot s.homes
    ({ s with homes := s.homes ++ [(r, slot)], slotCount := max s.slotCount (slot + 1) }, slot)

end Sweep

end RegAlloc
