import RegAlloc.Example.Basic
import RegAlloc.Graph.Builder
import RegAlloc.Table

/-!
# Graphs of examples

The graph of an example has a register for every listed value and a block for every
listed block, numbered as they are listed; code, edges and the entry refer to them by
name. A name that is listed again means the last one listed.

- `Example.Built` — the graph, and what the names stand for;
- `Example.build` — the graph of an example, or the name that is unknown.
-/

namespace RegAlloc

namespace Example

/-- Why the graph of an example cannot be built. -/
inductive BuildError where
  | document (error : Error)
  | graph (error : GraphError)
  deriving DecidableEq, Repr, Inhabited

/-- The graph of an example. -/
structure Built where
  graph : Graph := {}
  /-- The register of each value name. -/
  registers : List (String × VReg) := []
  /-- The block of each block name. -/
  blocks : List (String × BlockId) := []
  deriving DecidableEq, Repr, Inhabited

namespace Built

/-- Carry out a step of building. -/
def lift {α : Type} : Except GraphError α → Except BuildError α
  | .ok a => .ok a
  | .error e => .error (.graph e)

/-- The register of a value name. -/
def findValue (built : Built) (name : String) : Except BuildError VReg :=
  match built.registers.lookup name with
  | some r => .ok r
  | none => .error (.document (.unknownValue name))

/-- The block of a block name. -/
def findBlock (built : Built) (name : String) : Except BuildError BlockId :=
  match built.blocks.lookup name with
  | some b => .ok b
  | none => .error (.document (.unknownBlock name))

/-- Declare a value. -/
def addValue (built : Built) (value : Value) : Except BuildError Built := do
  let spec : RegisterSpec := { name := some value.name, regClass := value.regClass }
  let (graph, r) ← lift ((Change.createRegister spec).on built.graph)
  return { built with graph, registers := Table.put built.registers value.name r }

/-- Add a block, without its code. -/
def addBlock (built : Built) (block : Section) : Except BuildError Built := do
  let (graph, b) ← lift (Change.addBlock.on built.graph)
  return { built with graph, blocks := Table.put built.blocks block.name b }

/-- The instruction that named code stands for. -/
def instruction (built : Built) (code : Operation) : Except BuildError InstructionSpec := do
  let uses ← code.uses.mapM fun o => do
    let r ← built.findValue o.value
    return { register := r, policy := o.policy.getD .register, kill := o.kill.getD false : UseSpec }
  let defs ← code.defs.mapM fun o => do
    let r ← built.findValue o.value
    return { register := r, policy := o.policy.getD .register : DefSpec }
  return { opcode := code.op, uses, defs }

/-- Add an instruction to a block. -/
def addCode (b : BlockId) (built : Built) (code : Operation) : Except BuildError Built := do
  let (graph, _) ← lift ((Change.addInstruction b (← built.instruction code)).on built.graph)
  return { built with graph }

/-- Add an edge to a named block. -/
def addTarget (b : BlockId) (built : Built) (target : String) : Except BuildError Built := do
  let (graph, _) ← lift ((Change.addEdge b (← built.findBlock target)).on built.graph)
  return { built with graph }

/-- Add the code and the edges of a block. -/
def fillBlock (built : Built) (block : Section) : Except BuildError Built := do
  let b ← built.findBlock block.name
  let built ← block.code.foldlM (addCode b) built
  block.targets.foldlM (addTarget b) built

/-- Choose the entry by name. -/
def setEntry (built : Built) (name : String) : Except BuildError Built := do
  let (graph, _) ← lift ((Change.setEntry (← built.findBlock name)).on built.graph)
  return { built with graph }

end Built

/-- Build the graph of an example. -/
def build (e : Example) : Except BuildError Built := do
  let built ← e.values.foldlM Built.addValue {}
  let built ← e.blocks.foldlM Built.addBlock built
  let built ← e.blocks.foldlM Built.fillBlock built
  match e.entry with
  | none => return built
  | some name => built.setEntry name

end Example

end RegAlloc
