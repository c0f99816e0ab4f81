import RegAlloc.Proofs.Order.Numbering
import RegAlloc.Report

/-!
# The text of a printed allocation

An allocation is printed in two steps: its lines are collected, each with what it shows, and every
line is then written down. Here both are said outright, without looking anything up that could
be missing: which lines there should be, and the text of each, with its indentation, its names and
the locations of what it shows.

- `Allocation.printed` — the lines of an allocation, as they should be;
- `Line.Kind` — what a line is about;
- `Allocation.valueText`, `Allocation.moveText` — a value and where it is, a move;
- `Allocation.codeText`, `Allocation.gapText`, `Allocation.edgeText`, `Allocation.headerText`,
  `Allocation.liveInText` — the lines of a block;
- `Allocation.listing` — all lines as text;
- `Allocation.text_printed` — the lines are written as in the listing;
- `Allocation.use_within`, `Allocation.def_within`, `Allocation.move_within_gap`,
  `Allocation.move_within_edge` — what stands in a line.
-/

namespace RegAlloc

namespace Allocation

variable (a : Allocation)

/-! ## The lines -/

/-- The name of a register, and where it is at a position. -/
def printedValue (p : Position) (r : VReg) : Shown :=
  { name := a.order.graph.nameOf r, location := a.locate? r p }

def printedMove (m : Move) : ShownMove :=
  { name := a.order.graph.nameOf m.register, source := m.source, target := m.target }

def printedGap (group : GapMoves) : Line :=
  .gap group.position (group.moves.map a.printedMove)

def printedEdge (group : EdgeMoves) : Line :=
  .edge group.target group.placement (group.moves.map a.printedMove)

/-- The line of a slot: what is read is located at the slot, what is written behind it. -/
def printedCode (slot : Slot) : Line :=
  match slot.instruction with
  | none => .empty slot.position
  | some i => .instruction slot.position i.opcode
    (i.uses.map fun use => a.printedValue slot.position use.register)
    (i.defs.map fun d => a.printedValue (slot.position + 1) d.register)

/-- The moves in the gap just before a slot. -/
def gapBefore? (slot : Slot) : Option GapMoves :=
  a.resolution.gaps.find? (·.position == slot.position - 1)

/-- The lines of a slot, with the moves before it if there are any. -/
def printedSlot (slot : Slot) : List Line :=
  (a.gapBefore? slot).toList.map a.printedGap ++ [a.printedCode slot]

/-- The line of what is live into a block, if anything is. -/
def printedLiveIn (span : Span) : List Line :=
  if a.liveness.liveInto span.block = [] then []
  else [.liveIn ((a.liveness.liveInto span.block).map (a.printedValue span.first))]

/-- The lines of a block: its header, what is live into it, its slots, and the edges from it. -/
def printedBlock (span : Span) : List Line :=
  .header span (a.order.graph.successors span.block) :: (a.printedLiveIn span ++
    (a.order.graph.slotsIn span).flatMap a.printedSlot ++
    (a.resolution.edges.filter (·.source == (span.block : Ref))).map a.printedEdge)

/-- The lines of an allocation, block by block in linear order. -/
def printed : List Line :=
  .opening a.registers a.slotCount :: (a.order.spans.flatMap a.printedBlock ++ [.closing])

end Allocation

namespace Line

/-- What a line is about. -/
inductive Kind where
  | code
  | gap
  | edge
  /-- A block or the allocation as a whole. -/
  | frame
  deriving DecidableEq, Repr

def kind : Line → Kind
  | .instruction .. | .empty _ => .code
  | .gap .. => .gap
  | .edge .. => .edge
  | _ => .frame

end Line

namespace Allocation

/-! ## Their texts -/

section

variable (a : Allocation)

/-- A value: its name, and behind a colon where it is, if it is anywhere. -/
def valueText (p : Position) (r : VReg) : String :=
  match a.locate? r p with
  | some l => a.order.graph.nameOf r ++ ":" ++ l.text
  | none => a.order.graph.nameOf r

/-- A move: what it moves, from where and to where. -/
def moveText (m : Move) : String :=
  a.order.graph.nameOf m.register ++ " " ++ m.source.text ++ " -> " ++ m.target.text

def movesText (moves : List Move) : String := ", ".intercalate (moves.map a.moveText)

/-- The results of an instruction and the sign behind them, if there are results. -/
def resultsText (p : Position) (i : Instruction) : String :=
  if i.defs = [] then ""
  else ", ".intercalate (i.defs.map fun d => a.valueText (p + 1) d.register) ++ " = "

/-- The operands of an instruction with a space in front, if there are operands. -/
def operandsText (p : Position) (i : Instruction) : String :=
  if i.uses = [] then ""
  else " " ++ ", ".intercalate (i.uses.map fun use => a.valueText p use.register)

/-- The line of a slot: its position, and the instruction with its results in front and its
operands behind. -/
def codeText (slot : Slot) : String :=
  match slot.instruction with
  | none => "    " ++ toString slot.position ++ ": (empty)"
  | some i => "    " ++ toString slot.position ++ ": " ++ a.resultsText slot.position i ++
      i.opcode ++ a.operandsText slot.position i

def gapText (group : GapMoves) : String :=
  "    " ++ toString group.position ++ ": move " ++ a.movesText group.moves

def edgeText (group : EdgeMoves) : String :=
  "    -> b" ++ group.target.text ++ " (" ++ group.placement.text ++ "): " ++
    a.movesText group.moves

/-- The blocks behind a block and the arrow in front of them, if there are any. -/
def targetsText (span : Span) : String :=
  if a.order.graph.successors span.block = [] then ""
  else " -> " ++ ", ".intercalate
    ((a.order.graph.successors span.block).map fun s => "b" ++ toString s)

def headerText (span : Span) : String :=
  "  b" ++ toString span.block ++ " [" ++ toString span.first ++ ", " ++ toString span.last ++
    "]" ++ a.targetsText span ++ ":"

def liveInText (span : Span) : String :=
  "    live-in: " ++
    ", ".intercalate ((a.liveness.liveInto span.block).map (a.valueText span.first))

def openingText : String :=
  "allocation registers=[" ++ ", ".intercalate a.registers ++ "] slots=" ++
    toString a.slotCount ++ " \x7b"

/-- The lines of a block. -/
def blockListing (span : Span) : List String :=
  a.headerText span ::
    ((if a.liveness.liveInto span.block = [] then [] else [a.liveInText span]) ++
      (a.order.graph.slotsIn span).flatMap (fun slot =>
        (a.gapBefore? slot).toList.map a.gapText ++ [a.codeText slot]) ++
      (a.resolution.edges.filter (·.source == (span.block : Ref))).map a.edgeText)

/-- The lines of an allocation. -/
def listing : List String :=
  a.openingText :: (a.order.spans.flatMap a.blockListing ++ ["\x7d"])

end

/-! ## Writing the lines down -/

variable {a : Allocation}

theorem commas_printedMoves (moves : List Move) :
    Line.commas ((moves.map a.printedMove).map (·.text)) = a.movesText moves := by
  rw [List.map_map]
  rfl

theorem commas_printedValues {α : Type} (p : Position) (r : α → VReg) (operands : List α) :
    Line.commas ((operands.map fun o => a.printedValue p (r o)).map (·.text)) =
      ", ".intercalate (operands.map fun o => a.valueText p (r o)) := by
  rw [List.map_map]
  rfl

theorem text_printedGap (group : GapMoves) : (a.printedGap group).text = a.gapText group := by
  have htext : (a.printedGap group).text = "    " ++ (toString group.position ++ ": move " ++
    Line.commas ((group.moves.map a.printedMove).map (·.text))) := rfl
  rw [htext, commas_printedMoves, gapText]
  simp only [String.append_assoc]

theorem text_printedEdge (group : EdgeMoves) : (a.printedEdge group).text = a.edgeText group := by
  have htext : (a.printedEdge group).text = "    " ++ ("-> b" ++ group.target.text ++ " (" ++
    group.placement.text ++ "): " ++
    Line.commas ((group.moves.map a.printedMove).map (·.text))) := rfl
  have harrow : "    -> b" = "    " ++ "-> b" := rfl
  rw [htext, commas_printedMoves, edgeText, harrow]
  simp only [String.append_assoc]

/-- An instruction is written with its results in front and its operands behind. -/
theorem call_printed (p : Position) (i : Instruction) :
    Line.call i.opcode (i.uses.map fun use => a.printedValue p use.register)
        (i.defs.map fun d => a.printedValue (p + 1) d.register) =
      a.resultsText p i ++ i.opcode ++ a.operandsText p i := by
  have hempty : ∀ {α β : Type} (f : α → β) (l : List α), (l.map f).isEmpty = true ↔ l = [] := by
    simp
  simp only [Line.call, hempty, commas_printedValues, resultsText, operandsText]
  by_cases huses : i.uses = [] <;> by_cases hdefs : i.defs = [] <;>
    simp only [huses, hdefs, if_true, if_false, String.append_assoc, String.empty_append,
      String.append_empty]

theorem text_printedCode (slot : Slot) : (a.printedCode slot).text = a.codeText slot := by
  rw [printedCode, codeText]
  cases slot.instruction with
  | none =>
    have htext : (Line.empty slot.position).text =
      "    " ++ (toString slot.position ++ ": (empty)") := rfl
    simp only [htext, String.append_assoc]
  | some i =>
    have htext : ∀ uses defs, (Line.instruction slot.position i.opcode uses defs).text =
      "    " ++ (toString slot.position ++ ": " ++ Line.call i.opcode uses defs) :=
      fun _ _ => rfl
    simp only [htext, call_printed, String.append_assoc]

theorem text_header (span : Span) :
    (Line.header span (a.order.graph.successors span.block)).text = a.headerText span := by
  have htext : ∀ successors, (Line.header span successors).text = "  " ++ ("b" ++
      toString span.block ++ " [" ++ toString span.first ++ ", " ++ toString span.last ++ "]" ++
      (if successors.isEmpty then "" else
        " -> " ++ Line.commas (successors.map fun s => "b" ++ toString s)) ++ ":") :=
    fun _ => rfl
  have hblock : "  b" = "  " ++ "b" := rfl
  rw [htext, headerText, targetsText, hblock]
  simp only [List.isEmpty_iff, String.append_assoc]
  rfl

theorem text_liveIn (span : Span) :
    (Line.liveIn ((a.liveness.liveInto span.block).map (a.printedValue span.first))).text =
      a.liveInText span := by
  have htext : ∀ values, (Line.liveIn values).text =
      "    " ++ ("live-in: " ++ Line.commas (values.map (·.text))) := fun _ => rfl
  have hlabel : "    live-in: " = "    " ++ "live-in: " := rfl
  rw [htext, liveInText, hlabel, List.map_map, String.append_assoc]
  rfl

theorem text_opening : (Line.opening a.registers a.slotCount).text = a.openingText := by
  have htext : ∀ registers count, (Line.opening registers count).text =
      "" ++ ("allocation registers=[" ++ ", ".intercalate registers ++
        ("] slots=" ++ toString count ++ " \x7b")) := fun _ _ => rfl
  unfold openingText
  simp only [htext, String.append_assoc, String.empty_append]

/-- The lines of an allocation are written as in the listing. -/
theorem text_printed : a.printed.map (·.text) = a.listing := by
  -- the parts of a block, in the order in which they are printed
  have hslot : ∀ slot, (a.printedSlot slot).map (·.text) =
      (a.gapBefore? slot).toList.map a.gapText ++ [a.codeText slot] := by
    intro slot
    simp only [printedSlot, List.map_append, List.map_map, Function.comp_def, text_printedGap,
      List.map_cons, List.map_nil, text_printedCode]
  have hliveIn : ∀ span, (a.printedLiveIn span).map (·.text) =
      if a.liveness.liveInto span.block = [] then [] else [a.liveInText span] := by
    intro span
    rw [printedLiveIn]
    split
    · rfl
    · rw [List.map_singleton, text_liveIn]
  have hblock : ∀ span, (a.printedBlock span).map (·.text) = a.blockListing span := by
    intro span
    simp only [printedBlock, blockListing, List.map_cons, List.map_append, text_header, hliveIn,
      List.map_flatMap, hslot, List.map_map, Function.comp_def, text_printedEdge]
  have hclosing : Line.closing.text = "\x7d" := rfl
  simp only [printed, listing, List.map_cons, List.map_append, List.map_flatMap, hblock,
    text_opening, hclosing, List.map_nil]

/-! ## What stands in a line -/

/-- Each of several texts stands in all of them together. -/
theorem within_intercalate {sep s : String} : ∀ {texts : List String}, s ∈ texts →
    s.toList <:+: (sep.intercalate texts).toList
  | [t], h => by
    obtain rfl := List.mem_singleton.1 h
    simp
  | t :: u :: rest, h => by
    rw [String.intercalate_cons_cons, String.toList_append, String.toList_append]
    obtain rfl | h := List.mem_cons.1 h
    · exact (List.prefix_append _ _).isInfix.trans (List.prefix_append _ _).isInfix
    · exact (within_intercalate h).trans (List.suffix_append _ _).isInfix

theorem move_within {moves : List Move} {m : Move} (h : m ∈ moves) :
    (a.moveText m).toList <:+: (a.movesText moves).toList :=
  within_intercalate (List.mem_map_of_mem h)

theorem move_within_gap {group : GapMoves} {m : Move} (h : m ∈ group.moves) :
    (a.moveText m).toList <:+: (a.gapText group).toList := by
  rw [gapText, String.toList_append]
  exact (move_within h).trans (List.suffix_append _ _).isInfix

theorem move_within_edge {group : EdgeMoves} {m : Move} (h : m ∈ group.moves) :
    (a.moveText m).toList <:+: (a.edgeText group).toList := by
  rw [edgeText, String.toList_append]
  exact (move_within h).trans (List.suffix_append _ _).isInfix

section

variable {slot : Slot} {i : Instruction} (hi : slot.instruction = some i)

include hi

/-- What an instruction reads stands in its line. -/
theorem use_within {use : Use} (h : use ∈ i.uses) :
    (a.valueText slot.position use.register).toList <:+: (a.codeText slot).toList := by
  have hoperands : (a.valueText slot.position use.register).toList <:+:
      (a.operandsText slot.position i).toList := by
    rw [operandsText, if_neg (List.ne_nil_of_mem h), String.toList_append]
    exact (within_intercalate (List.mem_map_of_mem (f := fun use : Use =>
      a.valueText slot.position use.register) h)).trans (List.suffix_append _ _).isInfix
  rw [codeText, hi, String.toList_append]
  exact hoperands.trans (List.suffix_append _ _).isInfix

/-- What an instruction writes stands in its line. -/
theorem def_within {d : Def} (h : d ∈ i.defs) :
    (a.valueText (slot.position + 1) d.register).toList <:+: (a.codeText slot).toList := by
  have hresults : (a.valueText (slot.position + 1) d.register).toList <:+:
      (a.resultsText slot.position i).toList := by
    rw [resultsText, if_neg (List.ne_nil_of_mem h), String.toList_append]
    exact (within_intercalate (List.mem_map_of_mem (f := fun d : Def =>
      a.valueText (slot.position + 1) d.register) h)).trans (List.prefix_append _ _).isInfix
  rw [codeText, hi]
  refine hresults.trans ⟨("    " ++ toString slot.position ++ ": ").toList,
    (i.opcode ++ a.operandsText slot.position i).toList, ?_⟩
  simp only [String.toList_append, List.append_assoc]

end

end Allocation

end RegAlloc
