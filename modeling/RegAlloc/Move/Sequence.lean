import RegAlloc.Violation

/-!
# Parallel moves in sequence

Moves that are meant to happen at once are put in an order in which no location is
overwritten while a move still has to read it. A cycle is broken by saving one value
in a scratch location.

- `Move` — a copy of a register's value from one location to another;
- `Move.pickReady?`, `Move.redirect?` — the two things a step can do;
- `Move.sequence` — the moves in order.
-/

namespace RegAlloc

/-- A copy of a register's value between two locations. -/
structure Move where
  register : VReg
  source : Location
  target : Location
  deriving DecidableEq, Repr, Inhabited

namespace Move

/-- The first move whose target none of the others reads, and the others. The moves
in `earlier` have been looked at and stand before the rest. -/
def pickReady? (earlier : List Move) : List Move → Option (Move × List Move)
  | [] => none
  | m :: later =>
    if (earlier ++ later).any (·.source == m.target) then pickReady? (earlier ++ [m]) later
    else some (m, earlier ++ later)

/-- The first move that reads `blocked`, and all moves with this one reading
`scratch` instead. -/
def redirect? (blocked scratch : Location) : List Move → Option (Move × List Move)
  | [] => none
  | m :: rest =>
    if m.source == blocked then some (m, { m with source := scratch } :: rest)
    else (redirect? blocked scratch rest).map fun (reader, rest) => (reader, m :: rest)

/-- Put at most `fuel` moves and saves in order. -/
def sequencePending (scratch : Location) : Nat → List Move → Except Violation (List Move)
  | _, [] => .ok []
  | 0, _ :: _ => .error .movesUnfinished
  | fuel + 1, first :: rest =>
    match pickReady? [] (first :: rest) with
    | some (ready, others) => return ready :: (← sequencePending scratch fuel others)
    | none =>
      -- every target is still to be read: save one of them for its reader
      match redirect? first.target scratch (first :: rest) with
      | none => .error .noReader
      | some (reader, redirected) =>
        let save : Move := ⟨reader.register, first.target, scratch⟩
        return save :: (← sequencePending scratch fuel redirected)

/-- The moves in an order that has the effect of doing all at once. Each move is made
once and its value saved at most once. -/
def sequence (moves : List Move) (scratch : Location) : Except Violation (List Move) :=
  let pending := moves.filter fun m => m.source != m.target
  sequencePending scratch (2 * pending.length) pending

end Move

end RegAlloc
