import RegAlloc.Graph.Basic
import RegAlloc.Location

/-!
# Broken invariants

Every internal assertion of the allocator has its cause here. A violation is never
the fault of the program being allocated, except that no allocation exists when one
instruction needs more registers than there are; it stops the stage that finds it.
-/

namespace RegAlloc

/-- A place in the linear order: even for instructions, odd for the gaps between. -/
abbrev Position := Int

/-- A live interval, by number. -/
abbrev IntervalId := Int

/-- The cause of a stopped stage. Intervals are named by their id. -/
inductive Violation where
  -- the linear order
  | noSpan (block : Ref)
  | noInstruction (block : Ref) (index : Int)
  | orderIncomplete (placed total : Nat)
  -- intervals
  | emptyRange (start stop : Position)
  | emptyInterval (interval : IntervalId)
  | cannotSplit (interval : IntervalId) (start stop position : Position)
  | noPiece (index : Nat)
  | noInterval (register : VReg)
  -- the sweep
  | notInRegister (interval : IntervalId)
  | registerTaken (interval : IntervalId) (position : Position) (register : String)
  | neverResumes (interval : IntervalId)
  | tooManyValues (position : Position)
  | sweepUnfinished
  -- moves
  | noReader
  | movesUnfinished
  | noLocation (interval : IntervalId)
  | gapOutside (gap : Position)
  | notCovered (register : VReg) (block : BlockId) (position : Position)
  -- verification
  | unknownRegister (interval : IntervalId) (register : String)
  | needsRegister (register : VReg) (position : Position) (location : Location)
  | overlap (first second : IntervalId) (location : String) (position : Position)
  | staleMove (register : VReg) (source : Location) (held : Option VReg)
  | noTarget (register : VReg) (position : Position)
  | lostOnEdge (register : VReg) (target : Location) (edge : Edge)
  | lostInGap (register : VReg) (target : Location) (gap : Position)
  deriving DecidableEq, Repr, Inhabited

namespace Violation

/-- What is wrong, in words. -/
def detail : Violation → String
  | .noSpan block => "block " ++ block.text ++ " has no position range"
  | .noInstruction block index => "block " ++ block.text ++ s!" has no instruction {index}"
  | .orderIncomplete placed total => s!"linear order covers {placed} of {total} blocks"
  | .emptyRange start stop => s!"empty range [{start}, {stop})"
  | .emptyInterval interval => s!"interval {interval} has no ranges"
  | .cannotSplit interval start stop position =>
    s!"cannot split interval {interval} [{start}, {stop}) at {position}"
  | .noPiece index => s!"lifetime has no piece {index}"
  | .noInterval register => s!"no interval for virtual register {register}"
  | .notInRegister interval => s!"interval {interval} does not hold a register"
  | .registerTaken interval position register =>
    s!"interval {interval} resumes at {position} but {register} is taken"
  | .neverResumes interval => s!"inactive interval {interval} never resumes"
  | .tooManyValues position =>
    s!"more values need a register at position {position} than there are registers"
  | .sweepUnfinished => "sweep stopped with intervals still waiting"
  | .noReader => "parallel move cycle without a reader"
  | .movesUnfinished => "parallel moves never settle"
  | .noLocation interval => s!"interval {interval} has no location"
  | .gapOutside gap => s!"gap {gap} is outside the order"
  | .notCovered register block position =>
    s!"{register} is live into block {block} but not covered at {position}"
  | .unknownRegister interval register =>
    s!"interval {interval} holds unknown register {register}"
  | .needsRegister register position location =>
    s!"v{register} needs a register at {position} but is in " ++ location.text
  | .overlap first second location position =>
    s!"intervals {first} and {second} both occupy {location} at {position}"
  | .staleMove register source held =>
    let contents := match held with
      | none => "nothing"
      | some other => s!"v{other}"
    s!"move of v{register} reads " ++ source.text ++ ", which holds " ++ contents
  | .noTarget register position => s!"v{register} has no location at {position}"
  | .lostOnEdge register target edge =>
    s!"v{register} does not reach " ++ target.text
      ++ s!" on edge {edge.source} -> {edge.target}"
  | .lostInGap register target gap =>
    s!"v{register} is not in " ++ target.text ++ s!" after gap {gap}"

/-- The whole message. -/
def message (v : Violation) : String := "Allocator invariant violated: " ++ v.detail

end Violation

end RegAlloc
