import RegAlloc.Graph.Builder
import RegAlloc.Pipeline

/-!
# Sessions

A session is a sequence of requests to one graph, which starts out empty. Refused
requests are answered like all others and the session goes on. An answer that is a
part of the graph is a view of it: it shows that part as it is at the end of the
session. A list of blocks has the blocks of its time, each of them a view; the list of
registers is a view as a whole.

- `Session.Request`, `Session.Answer` — what is asked and what is answered;
- `Session.answer` — one request;
- `Session.run` — all of them;
- `Session.shownBlocks` — what views of blocks show.
-/

namespace RegAlloc

namespace Session

/-- A request to a graph. -/
inductive Request where
  | command (c : Graph.Command)
  | isFrozen
  | entry
  | block (b : Ref)
  | register (r : Ref)
  | blocks
  | registers
  | linearize
  | allocate (options : Options)
  | allocateByClass (pools : Pools) (verify : Bool)
  deriving DecidableEq, Repr, Inhabited

/-- The answer to a request. -/
inductive Answer where
  | reply (r : Graph.Reply)
  | refused (e : GraphError)
  | frozen (yes : Bool)
  | entry (b : Option BlockId)
  /-- A view of a block. -/
  | block (b : BlockId)
  | register (r : Register)
  /-- Views of the blocks that there are when the request is made. -/
  | blocks (bs : List BlockId)
  /-- A view of the list of registers. -/
  | registers
  | order (result : Except Violation (Outcome Issue LinearOrder))
  | allocation (result : Except Violation (Outcome Issue Allocation))
  | byClass (result : Except Violation (Outcome Issue (List (String × Allocation))))

/-- Answer one request. -/
def answer (g : Graph) : Request → Graph × Answer
  | .command c =>
    match c.perform.run g with
    | .ok reply next => (next, .reply reply)
    | .error e left => (left, .refused e)
  | .isFrozen => (g, .frozen g.frozen)
  | .entry => (g, .entry g.entry)
  | .block b =>
    match g.resolveBlock b with
    | .ok b => (g, .block b)
    | .error e => (g, .refused e)
  | .register r =>
    match g.findRegister r with
    | .ok register => (g, .register register)
    | .error e => (g, .refused e)
  | .blocks => (g, .blocks (g.blocks.map (·.id)))
  | .registers => (g, .registers)
  | .linearize => (g.freeze, .order g.linearize)
  | .allocate options => (g.afterAllocate options, .allocation (g.allocate options))
  | .allocateByClass pools verify =>
    (g.afterAllocateByClass pools, .byClass (g.allocateByClass pools verify))

/-- Answer all requests, starting from `g`; the last graph is what views show. -/
def run (g : Graph) : List Request → Graph × List Answer
  | [] => (g, [])
  | request :: rest =>
    let (next, first) := answer g request
    let (last, answers) := run next rest
    (last, first :: answers)

/-- What views of blocks show, given the graph at the end of the session. -/
def shownBlocks (last : Graph) (bs : List BlockId) : List Block :=
  bs.filterMap (last.blocks[·]?)

end Session

end RegAlloc
