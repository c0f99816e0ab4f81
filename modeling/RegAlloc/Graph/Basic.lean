import RegAlloc.Ref

/-!
# Control-flow graphs over virtual registers

A graph owns its blocks and its virtual registers in two lists; blocks name each
other, and operands name registers, by index. Instructions read their uses before
they write their defs.

- `Register`, `Use`, `Def`, `Instruction`, `Block` — the parts of a graph;
- `Graph` — the graph, with look-ups that are total and answer nothing for an id
  that does not exist;
- `Graph.entry` — where execution starts.
-/

namespace RegAlloc

/-- A block, by its place in the graph's list. -/
abbrev BlockId := Nat

/-- A virtual register, by number. The registers that a graph declares are numbered from
zero, by their place in its list. -/
abbrev VReg := Int

/-- How an operand may be served at the position where it stands. -/
inductive Policy where
  /-- The value must be in a physical register. -/
  | register
  /-- The value may also be in a spill slot. -/
  | any
  deriving DecidableEq, Repr, Inhabited

/-- A declared virtual register. -/
structure Register where
  id : VReg
  /-- The name it is printed by. -/
  name : String
  /-- Each class of registers is allocated from a pool of its own. -/
  regClass : String
  deriving DecidableEq, Repr, Inhabited

/-- An operand that is read. -/
structure Use where
  register : VReg
  policy : Policy := .register
  /-- Whether the author promises that this is the value's last use. -/
  kill : Bool := false
  deriving DecidableEq, Repr, Inhabited

/-- An operand that is written. -/
structure Def where
  register : VReg
  policy : Policy := .register
  deriving DecidableEq, Repr, Inhabited

/-- One instruction. -/
structure Instruction where
  /-- The place in its block. -/
  index : Nat
  block : BlockId
  opcode : String
  uses : List Use
  defs : List Def
  deriving DecidableEq, Repr, Inhabited

namespace Instruction

/-- Whether the instruction reads a register. -/
def reads (i : Instruction) (r : VReg) : Bool := i.uses.any (·.register == r)

/-- Whether the instruction writes a register. -/
def writes (i : Instruction) (r : VReg) : Bool := i.defs.any (·.register == r)

/-- Whether the instruction names a register at all. -/
def mentions (i : Instruction) (r : VReg) : Bool := i.reads r || i.writes r

end Instruction

/-- A block: straight-line code and its neighbours. -/
structure Block where
  id : BlockId
  instructions : List Instruction := []
  predecessors : List BlockId := []
  successors : List BlockId := []
  deriving DecidableEq, Repr, Inhabited

/-- A step of control flow from one block to another. -/
structure Edge where
  source : BlockId
  target : BlockId
  deriving DecidableEq, Repr, Inhabited

/-- A control-flow graph. -/
structure Graph where
  blocks : List Block := []
  registers : List Register := []
  /-- The entry chosen by the author, if one was. -/
  chosenEntry : Option BlockId := none
  /-- A frozen graph takes no further changes. -/
  frozen : Bool := false
  deriving DecidableEq, Repr, Inhabited

namespace Graph

/-- The class of registers declared without one. -/
def defaultClass : String := "general"

/-- Where execution starts: the chosen block, otherwise the first one. -/
def entry (g : Graph) : Option BlockId :=
  match g.chosenEntry with
  | some b => some b
  | none => if g.blocks.isEmpty then none else some 0

/-- Make the graph read-only. -/
def freeze (g : Graph) : Graph := { g with frozen := true }

/-- The code of a block. -/
def instructions (g : Graph) (b : BlockId) : List Instruction :=
  (g.blocks[b]?.map (·.instructions)).getD []

/-- The blocks that may run after a block, in the order they were declared. -/
def successors (g : Graph) (b : BlockId) : List BlockId :=
  (g.blocks[b]?.map (·.successors)).getD []

/-- The blocks that may run before a block, in the order they were declared. -/
def predecessors (g : Graph) (b : BlockId) : List BlockId :=
  (g.blocks[b]?.map (·.predecessors)).getD []

/-- The number of declared edges. -/
def edgeCount (g : Graph) : Nat :=
  (g.blocks.flatMap (·.successors)).length

/-- Whether some instruction names the register. -/
def mentions (g : Graph) (r : VReg) : Bool :=
  g.blocks.any fun block => block.instructions.any (·.mentions r)

/-- The declared register with a number. -/
def register? (g : Graph) (r : Ref) : Option Register := r.index?.bind (g.registers[·]?)

/-- The name of a register, empty for one that is not declared. -/
def nameOf (g : Graph) (r : VReg) : String :=
  ((g.register? r).map (·.name)).getD ""

/-- Whether a register is of the given class; without a class, all are. -/
def inClass (g : Graph) (regClass : Option String) (r : VReg) : Bool :=
  match regClass with
  | none => true
  | some c => (g.register? r).map (·.regClass) == some c

end Graph

end RegAlloc
