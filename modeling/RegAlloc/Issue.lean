import RegAlloc.Diagnostic
import RegAlloc.Violation

/-!
# Reported causes

What is wrong with a program or with the options, as the stages of the allocator
report it: these are errors of the caller, or warnings to the caller, and each has
a diagnostic that shows it.
-/

namespace RegAlloc

/-- A cause reported by a stage. -/
inductive Issue where
  -- ordering the blocks
  | noBlocks
  | unreachable (blocks : List BlockId) (entry : BlockId)
  -- options
  | emptyPool
  | blankName (index : Nat)
  | repeatedName (name : String)
  | missingPool (regClass : String)
  -- liveness
  | readAfterKill (register : VReg) (name : String) (block : BlockId) (instruction : Nat)
      (position : Position)
  | liveAtEntry (register : VReg) (name : String) (entry : BlockId)
  | unused (register : VReg) (name : String)
  deriving DecidableEq, Repr, Inhabited

namespace Issue

/-- How a cause is shown. -/
def diagnostic : Issue → Diagnostic
  | .noBlocks => .order .unreachableBlock "graph has no blocks" [] none
  | .unreachable blocks entry =>
    let names := ", ".intercalate (blocks.map fun b => s!"block {b}")
    .order .unreachableBlock (names ++ s!" cannot be reached from block {entry}")
      (blocks.map Int.ofNat)
      (some { block := blocks.head?.map fun b => (b : Ref) })
  | .emptyPool => .allocator .invalidConfiguration "the register pool is empty" none .error none
  | .blankName index =>
    .allocator .invalidConfiguration s!"register {index} has an empty name" none .error none
  | .repeatedName name =>
    .allocator .invalidConfiguration s!"register {name} appears more than once" none .error none
  | .missingPool regClass =>
    .allocator .invalidConfiguration s!"no register pool for class {regClass}" none .error none
  | .readAfterKill register name block instruction position =>
    .allocator .useBeforeDef s!"{name} is read again after its last use"
      (some { block := some block, instruction := some instruction, position := some position })
      .error (some register)
  | .liveAtEntry register name entry =>
    .allocator .useBeforeDef s!"{name} is live at the entry of block {entry}"
      (some { block := some entry }) .error (some register)
  | .unused register name =>
    .allocator .unusedRegister name none .warning (some register)

end Issue

end RegAlloc
