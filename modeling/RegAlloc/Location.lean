/-!
# Storage locations

A value lives in a physical register, known by its name, or in a numbered spill
slot of the stack frame. `Location.text` is the form used in messages and
printed allocations.
-/

namespace RegAlloc

/-- Where a value is kept. -/
inductive Location where
  | register (name : String)
  | slot (index : Int)
  deriving DecidableEq, Repr, Inhabited

namespace Location

/-- Registers print as their name, slots in brackets. -/
def text : Location → String
  | .register name => name
  | .slot index => s!"[slot {index}]"

/-- The name of a register location. -/
def register? : Location → Option String
  | .register name => some name
  | .slot _ => none

end Location

end RegAlloc
