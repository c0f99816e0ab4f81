import RegAlloc.Example.Basic

/-!
# Reading examples

An example is read out of a document part by part; the first part that has not the
expected shape is reported with its path. A part that is absent differs from one that
is `null`, except that an absent or `null` expectation is an empty one.

- `Reader.mapping`, `list`, `string`, `number` — parts that must be there;
- `Reader.optional`, `listOrEmpty` — parts that may be absent;
- `Example.ofDocument` — the whole example.
-/

namespace RegAlloc

namespace Example

/-- Reading stops at the first mismatch. -/
abbrev Read (α : Type) := Except Error α

namespace Reader

variable {α : Type}

/-- The fields of a mapping. -/
def mapping (path : String) : Option Document → Read (List (String × Document))
  | some (.mapping fields) => .ok fields
  | _ => .error (.mismatch path .mapping)

/-- The items of a list. -/
def list (path : String) : Option Document → Read (List Document)
  | some (.list items) => .ok items
  | _ => .error (.mismatch path .list)

/-- A text. -/
def string (path : String) : Option Document → Read String
  | some (.string value) => .ok value
  | _ => .error (.mismatch path .string)

/-- A number. -/
def number (path : String) : Option Document → Read Int
  | some (.number value) => .ok value
  | _ => .error (.mismatch path .number)

/-- A boolean. -/
def boolean (path : String) : Option Document → Read Bool
  | some (.boolean value) => .ok value
  | _ => .error (.mismatch path .boolean)

/-- A policy. -/
def policy (path : String) : Option Document → Read Policy
  | some (.string "register") => .ok .register
  | some (.string "any") => .ok .any
  | _ => .error (.mismatch path .policy)

/-- A part that may be absent. -/
def optional (read : Option Document → Read α) : Option Document → Read (Option α)
  | none => .ok none
  | some document => some <$> read (some document)

/-- The items of a list that may be absent. -/
def listOrEmpty (path : String) : Option Document → Read (List Document)
  | none => .ok []
  | some document => list path (some document)

/-- The path of an item. -/
def itemPath (path : String) (index : Nat) : String := path ++ s!"[{index}]"

/-- Read items one by one, each with its path. -/
def items (path : String) (read : String → Document → Read α) (documents : List Document) :
    Read (List α) :=
  documents.zipIdx.mapM fun (document, index) => read (itemPath path index) document

/-- A list of texts that may be absent. -/
def strings (path : String) (document : Option Document) : Read (List String) := do
  items path (fun path item => string path (some item)) (← listOrEmpty path document)

/-- An operand: a bare name, or a mapping. -/
def operand (path : String) : Document → Read Operand
  | .string value => return { value }
  | document => do
    let fields ← mapping path (some document)
    let value ← string (path ++ ".value") (fields.lookup "value")
    let policy ← optional (policy (path ++ ".policy")) (fields.lookup "policy")
    let kill ← optional (boolean (path ++ ".kill")) (fields.lookup "kill")
    return { value, policy, kill }

/-- Operands that may be absent. -/
def operands (path : String) (document : Option Document) : Read (List Operand) := do
  items path operand (← listOrEmpty path document)

/-- An instruction. -/
def code (path : String) (document : Document) : Read Operation := do
  let fields ← mapping path (some document)
  let op ← string (path ++ ".op") (fields.lookup "op")
  let uses ← operands (path ++ ".uses") (fields.lookup "uses")
  let defs ← operands (path ++ ".defs") (fields.lookup "defs")
  return { op, uses, defs }

/-- A block. -/
def block (path : String) (document : Document) : Read Section := do
  let fields ← mapping path (some document)
  let name ← string (path ++ ".name") (fields.lookup "name")
  let targets ← strings (path ++ ".to") (fields.lookup "to")
  let listed ← listOrEmpty (path ++ ".code") (fields.lookup "code")
  return { name, targets, code := ← items (path ++ ".code") code listed }

/-- A value: a bare name, or a mapping. -/
def value (path : String) : Document → Read Value
  | .string name => return { name }
  | document => do
    let fields ← mapping path (some document)
    let name ← string (path ++ ".name") (fields.lookup "name")
    let regClass ← optional (string (path ++ ".class")) (fields.lookup "class")
    return { name, regClass }

/-- An expected location, or `null` for none. -/
def place (path : String) : Option Document → Read (Option String)
  | some .null => return none
  | document => return some (← string path document)

/-- Where a value is expected: a list of its name, a position and a location; any
further items are ignored. -/
def located (path : String) (document : Document) : Read Expected := do
  let parts ← list path (some document)
  let value ← string (itemPath path 0) parts[0]?
  let position ← number (itemPath path 1) parts[1]?
  let location ← place (itemPath path 2) parts[2]?
  return { value, position, location }

/-- The moves expected on an edge. -/
def edge (path : String) (document : Document) : Read ExpectedEdge := do
  let fields ← mapping path (some document)
  let source ← string (path ++ ".from") (fields.lookup "from")
  let target ← string (path ++ ".to") (fields.lookup "to")
  let placement ← string (path ++ ".placement") (fields.lookup "placement")
  let moves ← strings (path ++ ".moves") (fields.lookup "moves")
  return { source, target, placement, moves }

/-- The moves expected in a gap. -/
def split (path : String) (document : Document) : Read ExpectedSplit := do
  let fields ← mapping path (some document)
  let position ← number (path ++ ".at") (fields.lookup "at")
  let moves ← strings (path ++ ".moves") (fields.lookup "moves")
  return { position, moves }

/-- The fields of an expectation; without one, there are none. -/
def expectedFields : Option Document → Read (List (String × Document))
  | none | some .null => .ok []
  | document => mapping "expect" document

/-- An expectation. -/
def expectation (document : Option Document) : Read Expectation := do
  let fields ← expectedFields document
  let error ← optional (string "expect.error") (fields.lookup "error")
  let slots ← optional (number "expect.slots") (fields.lookup "slots")
  let warnings ← optional (strings "expect.warnings") (fields.lookup "warnings")
  let listed ← listOrEmpty "expect.at" (fields.lookup "at")
  let found ← items "expect.at" located listed
  let edges ← optional
    (fun d => do items "expect.edges" edge (← list "expect.edges" d)) (fields.lookup "edges")
  let splits ← optional
    (fun d => do items "expect.splits" split (← list "expect.splits" d)) (fields.lookup "splits")
  return { error, slots, warnings, located := found, edges, splits }

end Reader

open Reader in
/-- Read an example. -/
def ofDocument (document : Document) : Read Example := do
  let fields ← mapping "document" (some document)
  let description ← optional (string "description") (fields.lookup "description")
  let pool ← strings "pool" (fields.lookup "pool")
  let values ← items "values" value (← list "values" (fields.lookup "values"))
  let entry ← optional (string "entry") (fields.lookup "entry")
  let blocks ← items "blocks" block (← list "blocks" (fields.lookup "blocks"))
  let expect ← expectation (fields.lookup "expect")
  return { description, pool, values, entry, blocks, expect }

end Example

end RegAlloc
