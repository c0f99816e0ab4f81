import RegAlloc.Ref

/-!
# Diagnostics

A diagnostic is what a user of the allocator sees of an error or a warning: its
code, its text, how severe it is and where in the program it belongs.

- `Code` — the coded causes, each with a fixed opening text;
- `Site` — the place in the program a diagnostic refers to;
- `Diagnostic` — the record itself, with one constructor function per family.
-/

namespace RegAlloc

/-- How severe a diagnostic is. -/
inductive Severity where
  | error
  | warning
  deriving DecidableEq, Repr, Inhabited

namespace Severity

/-- The word for a severity. -/
def text : Severity → String
  | .error => "error"
  | .warning => "warning"

end Severity

/-- The part of the allocator that a diagnostic comes from. -/
inductive Family where
  | general
  | graph
  | order
  | allocator
  deriving DecidableEq, Repr, Inhabited

/-- The coded causes of diagnostics. -/
inductive Code where
  | invalidReference
  | frozenGraph
  | unreachableBlock
  | useBeforeDef
  | invalidConfiguration
  | unusedRegister
  deriving DecidableEq, Repr, Inhabited

namespace Code

/-- All codes. -/
def all : List Code :=
  [.invalidReference, .frozenGraph, .unreachableBlock, .useBeforeDef,
    .invalidConfiguration, .unusedRegister]

/-- The written form of a code. -/
def text : Code → String
  | .invalidReference => "GRAPH_INVALID_REFERENCE"
  | .frozenGraph => "GRAPH_FROZEN"
  | .unreachableBlock => "FLATTEN_UNREACHABLE_BLOCK"
  | .useBeforeDef => "ALLOCATOR_USE_BEFORE_DEF"
  | .invalidConfiguration => "ALLOCATOR_INVALID_CONFIGURATION"
  | .unusedRegister => "ALLOCATOR_UNUSED_REGISTER"

/-- The code with a given written form. -/
def ofText? (s : String) : Option Code :=
  all.find? fun code => code.text == s

/-- What a code says before any detail. -/
def summary : Code → String
  | .invalidReference => "Reference to a block or register that does not exist"
  | .frozenGraph => "Graph cannot be modified after it has been flattened"
  | .unreachableBlock => "Block is not reachable from the entry"
  | .useBeforeDef => "Virtual register may be used before it is defined"
  | .invalidConfiguration => "Invalid allocator configuration"
  | .unusedRegister => "Virtual register is declared but never used"

/-- The whole message: the summary, followed by the detail unless that is empty. -/
def message (code : Code) (detail : String) : String :=
  if detail.isEmpty then code.summary else code.summary ++ ": " ++ detail

end Code

/-- The place a diagnostic refers to. Blocks and instructions go by their ids in
the graph, positions by the linear order. -/
structure Site where
  block : Option Ref := none
  instruction : Option Int := none
  position : Option Int := none
  deriving DecidableEq, Repr, Inhabited

/-- An error or a warning as it is shown. -/
structure Diagnostic where
  family : Family
  code : String
  message : String
  severity : Severity := .error
  site : Option Site := none
  /-- The virtual register concerned, if there is one. -/
  register : Option Int := none
  /-- The blocks concerned, for diagnostics about the block order. -/
  blocks : List Int := []
  deriving DecidableEq, Repr, Inhabited

namespace Diagnostic

/-- A diagnostic with a code and text of the caller's own. -/
def general (code message : String) (site : Option Site) (severity : Severity) : Diagnostic :=
  { family := .general, code, message, site, severity }

/-- An error in building or reading a graph. -/
def graph (code : Code) (detail : String) (site : Option Site) : Diagnostic :=
  { family := .graph, code := code.text, message := code.message detail, site }

/-- An error in ordering the blocks of a graph. -/
def order (code : Code) (detail : String) (blocks : List Int) (site : Option Site) : Diagnostic :=
  { family := .order, code := code.text, message := code.message detail, site, blocks }

/-- An error or warning of the allocator proper. -/
def allocator (code : Code) (detail : String) (site : Option Site) (severity : Severity)
    (register : Option Int) : Diagnostic :=
  { family := .allocator, code := code.text, message := code.message detail, site, severity,
    register }

end Diagnostic

end RegAlloc
