import RegAlloc.Sorted
import RegAlloc.Table

/-!
# Pools by class

Each class of registers has a pool of its own. A table of pools is filled pair by
pair: a class that comes again keeps its place and takes the new pool. Classes named
by a number come first, in ascending order, the others follow as they came.

- `Pools.ofPairs` — the table of a list of pairs;
- `Pools.knows` — whether a class counts as having a pool.
-/

namespace RegAlloc

/-- The pools of the register classes, in the order in which they are used. -/
structure Pools where
  entries : List (String × List String)
  deriving DecidableEq, Repr, Inhabited

namespace Pools

/-- The greatest number that sorts a class to the front. -/
def maxIndex : Nat := UInt32.size - 2

/-- The number that a class is named by: decimal digits without a leading zero, up to
`maxIndex`. -/
def classNumber? (regClass : String) : Option Nat :=
  let digits := regClass.toList
  let value := digits.foldl (fun n c => 10 * n + (c.toNat - '0'.toNat)) 0
  if !digits.isEmpty && digits.all Char.isDigit && (digits.head? != some '0' || digits == ['0'])
      && value ≤ maxIndex then some value
  else none

/-- The table of a list of pairs. -/
def ofPairs (pairs : List (String × List String)) : Pools :=
  let entries := Table.ofPairs pairs
  let numbered := entries.filterMap fun entry => (classNumber? entry.1).map fun n => (n, entry)
  let named := entries.filter fun entry => (classNumber? entry.1).isNone
  { entries := (sortBy (fun a b => a.1 < b.1) numbered).map (·.2) ++ named }

/-- Names that every table knows, whether or not they were given a pool. -/
def builtinNames : List String :=
  ["constructor", "__defineGetter__", "__defineSetter__", "hasOwnProperty", "__lookupGetter__",
    "__lookupSetter__", "isPrototypeOf", "propertyIsEnumerable", "toString", "valueOf",
    "__proto__", "toLocaleString"]

/-- Whether a class counts as having a pool. -/
def knows (pools : Pools) (regClass : String) : Bool :=
  pools.entries.any (·.1 == regClass) || regClass ∈ builtinNames

end Pools

end RegAlloc
