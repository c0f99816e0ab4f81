import RegAlloc.Action
import RegAlloc.Interval.Basic

/-!
# Lifetimes

The lifetime of a virtual register is its first interval, the root, with all the
pieces that were split off, in order of their start.

- `Lifetime.pieces` — the root and then the other pieces;
- `Lifetime.pieceAt?`, `pieceBefore?` — the piece at a position, and the piece that
  holds the value as the moves of a gap begin;
- `Lifetime.cut`, `Lifetime.split` — cutting one of the pieces.
-/

namespace RegAlloc

/-- The pieces of one virtual register's life. -/
structure Lifetime where
  root : Interval
  /-- The pieces cut off so far, by start. -/
  children : List Interval := []
  deriving DecidableEq, Repr, Inhabited

namespace Lifetime

/-- The register whose life it is. -/
def register (life : Lifetime) : VReg := life.root.register

/-- All pieces, the root first. -/
def pieces (life : Lifetime) : List Interval := life.root :: life.children

/-- The piece that covers a position. -/
def pieceAt? (life : Lifetime) (p : Position) : Option Interval :=
  life.pieces.find? (·.covers p)

/-- The piece that holds the value as the moves of a gap begin: the earliest that
covers the gap or the instruction before it. A value dead in the gap has none. -/
def pieceBefore? (life : Lifetime) (gap : Position) : Option Interval :=
  if (life.pieceAt? gap).isSome then
    life.pieces.find? fun piece => piece.covers (gap - 1) || piece.covers gap
  else none

/-- Change the piece at an index. -/
def modifyPiece (life : Lifetime) (index : Nat) (f : Interval → Interval) : Lifetime :=
  match index with
  | 0 => { life with root := f life.root }
  | k + 1 => { life with children := life.children.modify k f }

/-- Whether a piece belongs behind `child`. -/
def startsAfter (child sibling : Interval) : Bool := child.start < sibling.start

/-- Put a new piece in its place among the others. -/
def insertPiece (life : Lifetime) (child : Interval) : Lifetime :=
  { life with children := insertBefore (startsAfter child) child life.children }

/-- The index that a new piece gets. -/
def pieceIndex (life : Lifetime) (child : Interval) : Nat :=
  insertionIndex (startsAfter child) life.children + 1

/-- The piece at an index, if there is one. -/
def findPiece (life : Lifetime) (index : Nat) : Except Violation Interval :=
  match life.pieces[index]? with
  | some piece => .ok piece
  | none => .error (.noPiece index)

/-- Cut the piece at an index: it keeps its first part, and the rest is put in its place among the
other pieces. The answer is the index of the new piece. -/
def cut (index : Nat) (p : Position) (id : IntervalId) : Action Violation Lifetime Nat := do
  let piece ← Action.ask (·.findPiece index)
  let (kept, child) ← Action.ask fun _ => piece.split p id
  modify (·.modifyPiece index fun _ => kept)
  let place ← Action.ask fun life => .ok (life.pieceIndex child)
  modify (·.insertPiece child)
  return place

/-- What a cut comes to: the next lifetime and the index of the new piece, or why it is refused. -/
def split (life : Lifetime) (index : Nat) (p : Position) (id : IntervalId) :
    Except Violation (Lifetime × Nat) :=
  (cut index p id).on life

/-- The lifetime of a register, in a list of lifetimes. -/
def find? (lives : List Lifetime) (r : VReg) : Option Lifetime :=
  List.find? (fun life => life.register == r) lives

end Lifetime

end RegAlloc
