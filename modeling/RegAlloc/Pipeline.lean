import RegAlloc.Check
import RegAlloc.Options
import RegAlloc.Order.Linearize
import RegAlloc.Pools

/-!
# From a graph to an allocation

The stages one after the other: options, linear order, liveness, sweep, moves and
the final check, for one class of registers or for all of them together; and the
whole once per class, each from a pool of its own.

- `LinearOrder.allocate` — the stages after the linear order;
- `Graph.allocate`, `Graph.allocateByClass` — the stages on a graph;
- `Graph.afterAllocate`, `Graph.afterAllocateByClass` — whether they leave the graph
  frozen.
-/

namespace RegAlloc

/-- The version of this allocator. -/
def version : String := "0.1.0"

namespace LinearOrder

/-- Allocate the registers of a program in linear order. -/
def allocate (order : LinearOrder) (options : Options) :
    Except Violation (Outcome Issue Allocation) := do
  match options.resolve with
  | .failure messages => return .failure messages
  | .success options _ =>
    match ← order.analyze options.regClass with
    | .failure messages => return .failure messages
    | .success liveness messages =>
      let a ← (Allocation.start order liveness options.registers).sweep
      let a ← a.resolve
      if options.verify then
        a.verify
      return .success a messages

end LinearOrder

namespace Graph

/-! ## One class, or all together -/

/-- Allocate the registers of a graph. -/
def allocate (g : Graph) (options : Options) : Except Violation (Outcome Issue Allocation) := do
  match options.resolve with
  | .failure messages => return .failure messages
  | .success options _ =>
    match ← g.linearize with
    | .failure messages => return .failure messages
    | .success order ordered =>
      let outcome ← order.allocate options
      return outcome.withMessages (.merge [ordered, outcome.messages])

/-- The graph after an allocation was asked for: frozen, unless the options were
refused. -/
def afterAllocate (g : Graph) (options : Options) : Graph :=
  if options.isAcceptable then g.freeze else g

/-! ## Class by class -/

/-- The classes of the declared registers, each once. -/
def classes (g : Graph) : List String := (g.registers.map (·.regClass)).eraseDups

/-- The classes that lack a pool. -/
def missingPools (g : Graph) (pools : Pools) : List String := g.classes.filter (!pools.knows ·)

/-- The options for one class. -/
def classOptions (verify : Bool) (entry : String × List String) : Options :=
  { registers := entry.2, regClass := some entry.1, verify }

/-- Allocate each class from its own pool. All classes are tried, and the allocation
fails if one of them does. -/
def allocateByClass (g : Graph) (pools : Pools) (verify : Bool) :
    Except Violation (Outcome Issue (List (String × Allocation))) := do
  let missing := g.missingPools pools
  if !missing.isEmpty then
    return .fail (missing.map .missingPool)
  let outcomes ← pools.entries.mapM fun entry => do
    return (entry.1, ← g.allocate (classOptions verify entry))
  let messages := Messages.merge (outcomes.map (·.2.messages))
  if outcomes.all (·.2.succeeded) then
    let found := outcomes.filterMap fun (c, outcome) => outcome.value?.map fun a => (c, a)
    return .success found messages
  else
    return .failure messages

/-- The graph after class-wise allocation was asked for: frozen, unless a pool was
missing or every pool was refused. -/
def afterAllocateByClass (g : Graph) (pools : Pools) : Graph :=
  if (g.missingPools pools).isEmpty
      && pools.entries.any (fun entry => (classOptions true entry).isAcceptable)
  then g.freeze else g

end Graph

end RegAlloc
