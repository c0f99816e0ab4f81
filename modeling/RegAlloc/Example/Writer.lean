import RegAlloc.Example.Basic

/-!
# Writing examples

The document of an example has one field for every part that is there. Operands and
values that carry no more than a name are written as that name.
-/

namespace RegAlloc

namespace Example

namespace Writer

/-- A mapping of the parts that are there. -/
def mapping (parts : List (String × Option Document)) : Document :=
  .mapping (parts.filterMap fun (key, part) => part.map (key, ·))

/-- A list of texts. -/
def strings (texts : List String) : Document := .list (texts.map .string)

/-- A policy. -/
def policy : Policy → Document
  | .register => .string "register"
  | .any => .string "any"

/-- An operand, as a bare name if it has nothing else. -/
def operand (o : Operand) : Document :=
  match o.policy, o.kill with
  | none, none => .string o.value
  | _, _ =>
    mapping [("value", some (.string o.value)), ("policy", o.policy.map policy),
      ("kill", o.kill.map .boolean)]

/-- An instruction. -/
def code (c : Operation) : Document :=
  mapping [("op", some (.string c.op)), ("uses", some (.list (c.uses.map operand))),
    ("defs", some (.list (c.defs.map operand)))]

/-- A block. -/
def block (b : Section) : Document :=
  mapping [("name", some (.string b.name)), ("to", some (strings b.targets)),
    ("code", some (.list (b.code.map code)))]

/-- A value, as a bare name if it has no class. -/
def value (v : Value) : Document :=
  match v.regClass with
  | none => .string v.name
  | some c => mapping [("name", some (.string v.name)), ("class", some (.string c))]

/-- Where a value is expected. -/
def located (e : Expected) : Document :=
  .list [.string e.value, .number e.position, (e.location.map .string).getD .null]

/-- The moves expected on an edge. -/
def edge (e : ExpectedEdge) : Document :=
  mapping [("from", some (.string e.source)), ("to", some (.string e.target)),
    ("placement", some (.string e.placement)), ("moves", some (strings e.moves))]

/-- The moves expected in a gap. -/
def split (e : ExpectedSplit) : Document :=
  mapping [("at", some (.number e.position)), ("moves", some (strings e.moves))]

/-- An expectation. -/
def expectation (e : Expectation) : Document :=
  mapping [("error", e.error.map .string), ("slots", e.slots.map .number),
    ("warnings", e.warnings.map strings), ("at", some (.list (e.located.map located))),
    ("edges", e.edges.map fun edges => .list (edges.map edge)),
    ("splits", e.splits.map fun splits => .list (splits.map split))]

end Writer

open Writer in
/-- Write an example. -/
def toDocument (e : Example) : Document :=
  mapping [("description", e.description.map .string), ("pool", some (strings e.pool)),
    ("values", some (.list (e.values.map value))), ("entry", e.entry.map .string),
    ("blocks", some (.list (e.blocks.map block))), ("expect", some (expectation e.expect))]

end Example

end RegAlloc
