import RegAlloc.Allocation
import RegAlloc.Graph.Builder

/-!
# Printed allocations

An allocation is printed block by block in linear order: what is live as the block
begins, its instructions with the location of every operand, and the moves in its
gaps and on the edges that leave it.

- `Line` — the kinds of line, `Line.text` how each is written;
- `Allocation.lines` — the lines of an allocation;
- `Allocation.print` — the text.
-/

namespace RegAlloc

/-- An operand as it is printed: its name, and its location if it has one. -/
structure Shown where
  name : String
  location : Option Location
  deriving DecidableEq, Repr, Inhabited

namespace Shown

/-- A name, with its location behind a colon. -/
def text (s : Shown) : String :=
  match s.location with
  | some location => s.name ++ ":" ++ location.text
  | none => s.name

end Shown

/-- A move as it is printed. -/
structure ShownMove where
  name : String
  source : Location
  target : Location
  deriving DecidableEq, Repr, Inhabited

namespace ShownMove

/-- A name, and where it goes. -/
def text (m : ShownMove) : String := m.name ++ " " ++ m.source.text ++ " -> " ++ m.target.text

end ShownMove

/-- A line of a printed allocation. -/
inductive Line where
  | opening (registers : List String) (slotCount : Int)
  | header (span : Span) (successors : List BlockId)
  | liveIn (values : List Shown)
  | gap (position : Position) (moves : List ShownMove)
  | instruction (position : Position) (opcode : String) (uses defs : List Shown)
  | empty (position : Position)
  | edge (target : Ref) (placement : Placement) (moves : List ShownMove)
  | closing
  deriving DecidableEq, Repr, Inhabited

namespace Line

/-- Items with commas between them. -/
def commas (items : List String) : String := ", ".intercalate items

/-- An instruction with its operands, results in front. -/
def call (opcode : String) (uses defs : List Shown) : String :=
  let applied :=
    if uses.isEmpty then opcode else opcode ++ " " ++ commas (uses.map (·.text))
  if defs.isEmpty then applied else commas (defs.map (·.text)) ++ " = " ++ applied

/-- How a line is written, apart from its indentation. -/
def body : Line → String
  | .opening registers slotCount =>
    "allocation registers=[" ++ commas registers ++ s!"] slots={slotCount} \x7b"
  | .header span successors =>
    let targets :=
      if successors.isEmpty then "" else " -> " ++ commas (successors.map fun s => s!"b{s}")
    s!"b{span.block} [{span.first}, {span.last}]" ++ targets ++ ":"
  | .liveIn values => "live-in: " ++ commas (values.map (·.text))
  | .gap position moves => s!"{position}: move " ++ commas (moves.map (·.text))
  | .instruction position opcode uses defs => s!"{position}: " ++ call opcode uses defs
  | .empty position => s!"{position}: (empty)"
  | .edge target placement moves =>
    "-> b" ++ target.text ++ " (" ++ placement.text ++ "): " ++ commas (moves.map (·.text))
  | .closing => "\x7d"

/-- How deep a line is indented. -/
def depth : Line → Nat
  | .opening .. | .closing => 0
  | .header .. => 1
  | _ => 2

/-- How a line is written. -/
def text (line : Line) : String := String.ofList (List.replicate (2 * line.depth) ' ') ++ line.body

end Line

namespace Allocation

/-- How a register is printed at a position. -/
def shown (a : Allocation) (p : Position) (r : VReg) : Except GraphError Shown := do
  let register ← a.order.graph.findRegister r
  return { name := register.name, location := a.locate? r p }

/-- How a move is printed. -/
def showMove (a : Allocation) (m : Move) : Except GraphError ShownMove := do
  let register ← a.order.graph.findRegister m.register
  return { name := register.name, source := m.source, target := m.target }

/-- The line of the values live as a block begins, if there are any. -/
def liveInLines (a : Allocation) (span : Span) : Except GraphError (List Line) := do
  match ← (a.liveness.liveInto span.block).mapM (a.shown span.first) with
  | [] => return []
  | values => return [.liveIn values]

/-- The line of the moves just before a slot, if there are any. -/
def gapLines (a : Allocation) (slot : Slot) : Except GraphError (List Line) := do
  let here (group : GapMoves) : Bool :=
    group.position == slot.position - 1 && group.block == slot.block
  match a.resolution.gaps.find? here with
  | none => return []
  | some group => return [.gap group.position (← group.moves.mapM a.showMove)]

/-- The line of a slot. Results are located in the gap that they are written to. -/
def slotLine (a : Allocation) (slot : Slot) : Except GraphError Line := do
  match slot.instruction with
  | none => return .empty slot.position
  | some i =>
    let uses ← i.uses.mapM fun use => a.shown slot.position use.register
    let defs ← i.defs.mapM fun d => a.shown (slot.position + 1) d.register
    return .instruction slot.position i.opcode uses defs

/-- The lines of a block. -/
def blockLines (a : Allocation) (span : Span) : Except GraphError (List Line) := do
  let liveIn ← a.liveInLines span
  let slots ← (a.order.slots.filter (·.block == span.block)).mapM fun slot => do
    return (← a.gapLines slot) ++ [← a.slotLine slot]
  let edges ← (a.resolution.edges.filter (·.source == (span.block : Ref))).mapM fun group => do
    return .edge group.target group.placement (← group.moves.mapM a.showMove)
  return .header span (a.order.graph.successors span.block) :: liveIn ++ slots.flatten ++ edges

/-- The lines of an allocation. -/
def lines (a : Allocation) : Except GraphError (List Line) := do
  let blocks ← a.order.spans.mapM a.blockLines
  return .opening a.registers a.slotCount :: blocks.flatten ++ [.closing]

/-- An allocation as text. -/
def print (a : Allocation) : Except GraphError String := do
  return "\n".intercalate ((← a.lines).map (·.text))

end Allocation

end RegAlloc
