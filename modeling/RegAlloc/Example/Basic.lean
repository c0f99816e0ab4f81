import RegAlloc.Graph.Basic

/-!
# Example documents

An example describes a graph by names, a pool of registers, and what is expected of
the allocation. It is written as a document: a value built from texts, numbers,
lists and mappings.

- `Document` — documents;
- `Example` — what an example says.
-/

namespace RegAlloc

/-- A document. -/
inductive Document where
  | null
  | boolean (value : Bool)
  | number (value : Int)
  | string (value : String)
  | list (items : List Document)
  | mapping (fields : List (String × Document))
  deriving Repr, Inhabited

namespace Example

/-- A named operand. -/
structure Operand where
  value : String
  policy : Option Policy := none
  kill : Option Bool := none
  deriving DecidableEq, Repr, Inhabited

/-- An instruction over named values. -/
structure Operation where
  op : String
  uses : List Operand := []
  defs : List Operand := []
  deriving DecidableEq, Repr, Inhabited

/-- A named block. -/
structure Section where
  name : String
  /-- The names of the blocks that may follow. -/
  targets : List String := []
  code : List Operation := []
  deriving DecidableEq, Repr, Inhabited

/-- A named value, with its register class if one is given. -/
structure Value where
  name : String
  regClass : Option String := none
  deriving DecidableEq, Repr, Inhabited

/-- Where a value is expected at a position; nowhere if it should not be live. -/
structure Expected where
  value : String
  position : Int
  location : Option String
  deriving DecidableEq, Repr, Inhabited

/-- The moves expected on an edge. -/
structure ExpectedEdge where
  source : String
  target : String
  placement : String
  moves : List String := []
  deriving DecidableEq, Repr, Inhabited

/-- The moves expected in a gap. -/
structure ExpectedSplit where
  position : Int
  moves : List String := []
  deriving DecidableEq, Repr, Inhabited

/-- What is expected of the allocation. -/
structure Expectation where
  /-- The code of the first error, if the allocation is to fail. -/
  error : Option String := none
  slots : Option Int := none
  warnings : Option (List String) := none
  located : List Expected := []
  edges : Option (List ExpectedEdge) := none
  splits : Option (List ExpectedSplit) := none
  deriving DecidableEq, Repr, Inhabited

end Example

/-- An example. -/
structure Example where
  description : Option String := none
  pool : List String := []
  values : List Example.Value := []
  entry : Option String := none
  blocks : List Example.Section := []
  expect : Example.Expectation := {}
  deriving DecidableEq, Repr, Inhabited

namespace Example

/-- What a part of a document has to be. -/
inductive Shape where
  | mapping
  | list
  | string
  | number
  | boolean
  | policy
  deriving DecidableEq, Repr, Inhabited

namespace Shape

/-- The words for a shape. -/
def text : Shape → String
  | .mapping => "a mapping"
  | .list => "a list"
  | .string => "a string"
  | .number => "a number"
  | .boolean => "a boolean"
  | .policy => "register or any"

end Shape

/-- What is wrong with an example. -/
inductive Error where
  /-- The part of the document at `path` has not the expected shape. -/
  | mismatch (path : String) (expected : Shape)
  | unknownValue (name : String)
  | unknownBlock (name : String)
  deriving DecidableEq, Repr, Inhabited

namespace Error

/-- What is wrong with the example in a file. -/
def message (file : String) : Error → String
  | .mismatch path expected => file ++ ": " ++ path ++ " must be " ++ expected.text
  | .unknownValue name => file ++ ": unknown value " ++ name
  | .unknownBlock name => file ++ ": unknown block " ++ name

end Error

end Example

end RegAlloc
