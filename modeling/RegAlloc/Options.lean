import RegAlloc.Issue
import RegAlloc.Outcome

/-!
# Options

The pool of physical registers, the class of registers to allocate, and whether to
check the result. A pool needs at least one register, and its names have to be
distinct and not blank.

- `Text.isBlank` — whether a name shows nothing;
- `Options.issues` — what is wrong with options, in order;
- `Options.resolve` — the options, unless something is wrong.
-/

namespace RegAlloc

namespace Text

/-- Characters that show as nothing: blanks, line ends and the byte order mark. -/
def isBlankChar (c : Char) : Bool :=
  let n := c.toNat
  (0x09 ≤ n && n ≤ 0x0D) || n == 0x20 || n == 0xA0 || n == 0x1680
    || (0x2000 ≤ n && n ≤ 0x200A) || n == 0x2028 || n == 0x2029 || n == 0x202F
    || n == 0x205F || n == 0x3000 || n == 0xFEFF

/-- Whether a text shows as nothing. -/
def isBlank (s : String) : Bool := s.toList.all isBlankChar

end Text

/-- What to allocate, and from which registers. -/
structure Options where
  /-- The physical registers, in order of preference. -/
  registers : List String
  /-- Allocate only registers of this class. -/
  regClass : Option String := none
  /-- Check the finished allocation. -/
  verify : Bool := true
  deriving DecidableEq, Repr, Inhabited

namespace Options

/-- What is wrong with the name at an index of a pool. -/
def nameIssue? (pool : List String) (name : String) (index : Nat) : Option Issue :=
  if Text.isBlank name then some (.blankName index)
  else if name ∈ pool.take index then some (.repeatedName name)
  else none

/-- What is wrong with a pool, in order. -/
def poolIssues (pool : List String) : List Issue :=
  (if pool.isEmpty then [.emptyPool] else [])
    ++ pool.zipIdx.filterMap fun (name, index) => nameIssue? pool name index

/-- What is wrong with options, in order. -/
def issues (options : Options) : List Issue := poolIssues options.registers

/-- Whether options can be used. -/
def isAcceptable (options : Options) : Bool := options.issues.isEmpty

/-- The options, unless something is wrong with them. -/
def resolve (options : Options) : Outcome Issue Options :=
  if options.isAcceptable then .ok options else .fail options.issues

end Options

end RegAlloc
