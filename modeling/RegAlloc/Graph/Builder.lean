import RegAlloc.Action
import RegAlloc.Diagnostic
import RegAlloc.Graph.Basic

/-!
# Building graphs

Graphs grow by commands until they are frozen. A command that names a block or a
register that does not exist is refused, as is every command on a frozen graph
except freezing it again; a refused command changes nothing.

- `GraphError` — why a command or look-up was refused;
- `Change.createRegister`, `addBlock`, `addInstruction`, `addEdge`, `setEntry` —
  the commands besides `Graph.freeze`, as computations on the graph;
- `Graph.Command`, `Command.perform` — commands as data;
- `Graph.apply`, `Graph.after`, `Graph.run` — the answer to a command, the graph that it
  leaves, and commands in sequence;
- `GraphSpec.build` — a graph written down as a whole.
-/

namespace RegAlloc

/-- Why a command or a look-up was refused. -/
inductive GraphError where
  /-- The graph is frozen; `command` is the refused command. -/
  | frozen (command : String)
  | noBlock (block : Ref)
  | noRegister (register : Ref)
  /-- An operand of a new instruction names no declared register. -/
  | noOperand (register : Ref) (block : BlockId) (instruction : Nat)
  deriving DecidableEq, Repr, Inhabited

namespace GraphError

/-- How a refusal is shown. -/
def diagnostic : GraphError → Diagnostic
  | .frozen command => .graph .frozenGraph ("cannot " ++ command ++ " on a frozen graph") none
  | .noBlock block =>
    .graph .invalidReference ("block " ++ block.text ++ " does not exist") (some { block := block })
  | .noRegister register =>
    .graph .invalidReference ("virtual register " ++ register.text ++ " is not declared") none
  | .noOperand register block instruction =>
    .graph .invalidReference ("virtual register " ++ register.text ++ " is not declared")
      (some { block := some block, instruction := some instruction })

end GraphError

/-- A register to declare; the name defaults to `v` and its number, the class to
`Graph.defaultClass`. -/
structure RegisterSpec where
  name : Option String := none
  regClass : Option String := none
  deriving DecidableEq, Repr, Inhabited

/-- A read operand of an instruction to add. -/
structure UseSpec where
  register : Ref
  policy : Policy := .register
  kill : Bool := false
  deriving DecidableEq, Repr, Inhabited

/-- A written operand of an instruction to add. -/
structure DefSpec where
  register : Ref
  policy : Policy := .register
  deriving DecidableEq, Repr, Inhabited

/-- An instruction to add. -/
structure InstructionSpec where
  opcode : String
  uses : List UseSpec := []
  defs : List DefSpec := []
  deriving DecidableEq, Repr, Inhabited

namespace Graph

/-! ## Look-ups that explain their refusal -/

/-- The index of an existing block. -/
def resolveBlock (g : Graph) (block : Ref) : Except GraphError BlockId :=
  match block.index? with
  | some b => if b < g.blocks.length then .ok b else .error (.noBlock block)
  | none => .error (.noBlock block)

/-- The register a number names. -/
def findRegister (g : Graph) (register : Ref) : Except GraphError Register :=
  match g.register? register with
  | some found => .ok found
  | none => .error (.noRegister register)

/-! ## Commands -/

/-- Refuse a command on a frozen graph. -/
def checkOpen (g : Graph) (command : String) : Except GraphError Unit :=
  if g.frozen then .error (.frozen command) else .ok ()

/-- The index of a declared register, for an operand of the given instruction. -/
def resolveOperand (g : Graph) (block : BlockId) (instruction : Nat) (register : Ref) :
    Except GraphError VReg :=
  match register.index? with
  | some r =>
    if r < g.registers.length then .ok r else .error (.noOperand register block instruction)
  | none => .error (.noOperand register block instruction)

/-- Record an edge in both of its blocks. -/
def link (g : Graph) (u v : BlockId) : Graph :=
  let leaving := g.blocks.modify u fun b => { b with successors := b.successors ++ [v] }
  { g with blocks := leaving.modify v fun b => { b with predecessors := b.predecessors ++ [u] } }

end Graph

/-- A computation on a graph. -/
abbrev Change (α : Type) := Action GraphError Graph α

namespace Change

/-- Declare a virtual register; the answer is its number. -/
def createRegister (spec : RegisterSpec) : Change VReg := do
  Action.ask (·.checkOpen "createRegister")
  let id := (← get).registers.length
  let register : Register :=
    { id, name := spec.name.getD s!"v{id}", regClass := spec.regClass.getD Graph.defaultClass }
  modify fun g => { g with registers := g.registers ++ [register] }
  return id

/-- Add an empty block; the answer is its number. -/
def addBlock : Change BlockId := do
  Action.ask (·.checkOpen "addBlock")
  let id := (← get).blocks.length
  modify fun g => { g with blocks := g.blocks ++ [{ id }] }
  return id

/-- Append an instruction to a block. The block is looked up first, then the uses
and then the defs, in order. -/
def addInstruction (block : Ref) (spec : InstructionSpec) : Change Instruction := do
  Action.ask (·.checkOpen "addInstruction")
  let b ← Action.ask (·.resolveBlock block)
  let index ← Action.ask fun g => .ok (g.instructions b).length
  let uses ← Action.ask fun g => spec.uses.mapM fun use => do
    let register ← g.resolveOperand b index use.register
    return { register, policy := use.policy, kill := use.kill : Use }
  let defs ← Action.ask fun g => spec.defs.mapM fun target => do
    let register ← g.resolveOperand b index target.register
    return { register, policy := target.policy : Def }
  let instruction : Instruction := { index, block := b, opcode := spec.opcode, uses, defs }
  let append (owner : Block) : Block :=
    { owner with instructions := owner.instructions ++ [instruction] }
  modify fun g => { g with blocks := g.blocks.modify b append }
  return instruction

/-- Declare control flow from one block to another. A declared edge is not
declared again. -/
def addEdge (source target : Ref) : Change Unit := do
  Action.ask (·.checkOpen "addEdge")
  let u ← Action.ask (·.resolveBlock source)
  let v ← Action.ask (·.resolveBlock target)
  modify fun g => if v ∈ g.successors u then g else g.link u v

/-- Choose the entry. -/
def setEntry (block : Ref) : Change Unit := do
  Action.ask (·.checkOpen "setEntry")
  let b ← Action.ask (·.resolveBlock block)
  modify fun g => { g with chosenEntry := some b }

end Change

namespace Graph

/-! ## Commands as data -/

/-- A builder command. -/
inductive Command where
  | createRegister (spec : RegisterSpec)
  | addBlock
  | addInstruction (block : Ref) (spec : InstructionSpec)
  | addEdge (source target : Ref)
  | setEntry (block : Ref)
  | freeze
  deriving DecidableEq, Repr, Inhabited

/-- The answer to a command. -/
inductive Reply where
  | done
  | id (n : Int)
  | instruction (i : Instruction)
  deriving DecidableEq, Repr, Inhabited

/-- Carry out one command. -/
def Command.perform : Command → Change Reply
  | .createRegister spec => return .id (← Change.createRegister spec)
  | .addBlock => return .id (← Change.addBlock)
  | .addInstruction block spec => return .instruction (← Change.addInstruction block spec)
  | .addEdge source target => do
    Change.addEdge source target
    return .done
  | .setEntry block => do
    Change.setEntry block
    return .done
  | .freeze => do
    modify fun g => g.freeze
    return .done

/-- What a command comes to: the next graph and the answer, or why it is refused. -/
def apply (g : Graph) (command : Command) : Except GraphError (Graph × Reply) :=
  command.perform.on g

/-- The graph that a command leaves, refused or not. -/
def after (g : Graph) (command : Command) : Graph := command.perform.leaves g

/-- The graph after a sequence of commands, some of which may be refused. -/
def run (g : Graph) (commands : List Command) : Graph := commands.foldl after g

end Graph

/-- A graph written down as a whole. -/
structure GraphSpec where
  registers : List RegisterSpec := []
  blocks : List (List InstructionSpec) := []
  edges : List (Ref × Ref) := []
  entry : Option Ref := none
  deriving DecidableEq, Repr, Inhabited

namespace GraphSpec

/-- The commands that build a graph: registers, blocks, the code of each block,
edges, and the entry if it is given. -/
def commands (spec : GraphSpec) : List Graph.Command :=
  spec.registers.map .createRegister
    ++ spec.blocks.map (fun _ => .addBlock)
    ++ spec.blocks.zipIdx.flatMap (fun (code, b) => code.map (.addInstruction b))
    ++ spec.edges.map (fun (source, target) => .addEdge source target)
    ++ spec.entry.toList.map .setEntry

/-- Build the graph, stopping at the first refusal. -/
def build (spec : GraphSpec) : Except GraphError Graph :=
  spec.commands.foldlM (fun g command => return (← g.apply command).1) {}

end GraphSpec

end RegAlloc
