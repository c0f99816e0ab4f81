import Mathlib.Logic.Function.Basic
import RegAlloc.Allocation

/-!
# Running a program

What a program computes, before and after allocation. The values and what opcodes do with
them are left open: an opcode turns the values that it reads into the values that it
writes. Before allocation, operands are virtual registers. After allocation they are the
locations in which the registers are kept at the instruction and in the gap behind it, and
the moves of gaps and edges are carried out on the way.

- `Instruction.results` — the values that an instruction writes;
- `Graph.runCode`, `Graph.runPath` — a program on virtual registers;
- `Allocation.runMoves`, `Allocation.runCode`, `Allocation.runPath` — an allocated program.
-/

namespace RegAlloc

variable {V : Type}

/-- What opcodes compute: from the values that are read, those that are written, by the
place of the definition. -/
abbrev Meaning (V : Type) := String → List V → Nat → V

/-- The definitions of an instruction, each with the value that it is given. -/
def Instruction.results (i : Instruction) (meaning : Meaning V) (inputs : List V) :
    List (Def × V) :=
  i.defs.zipIdx.map fun (d, k) => (d, meaning i.opcode inputs k)

theorem Instruction.map_fst_results (i : Instruction) (meaning : Meaning V) (inputs : List V) :
    (i.results meaning inputs).map (·.1) = i.defs := by
  simp [results, Function.comp_def]

namespace Graph

/-- Write values to the registers that their definitions name. -/
def writeAll (env : VReg → V) (results : List (Def × V)) : VReg → V :=
  results.foldl (fun env (d, v) => Function.update env d.register v) env

/-- Run code on virtual registers. The answer is what each instruction reads, and the
registers after the code. -/
def runCode (meaning : Meaning V) : List Instruction → (VReg → V) → List (List V) × (VReg → V)
  | [], env => ([], env)
  | i :: rest, env =>
    let inputs := i.uses.map fun use => env use.register
    let (reads, last) := runCode meaning rest (writeAll env (i.results meaning inputs))
    (inputs :: reads, last)

/-- Run the blocks of a path on virtual registers. The answer is what each instruction reads. -/
def runPath (g : Graph) (meaning : Meaning V) : List BlockId → (VReg → V) → List (List V)
  | [], _ => []
  | b :: rest, env =>
    let (reads, last) := runCode meaning (g.instructions b) env
    reads ++ g.runPath meaning rest last

end Graph

namespace Allocation

/-- Carry out moves in order. -/
def runMoves (store : Location → V) (moves : List Move) : Location → V :=
  moves.foldl (fun store m => Function.update store m.target (store m.source)) store

/-- The moves of a gap, if it has any. -/
def gapMoves (a : Allocation) (gap : Position) : List Move :=
  ((a.resolution.gaps.find? (·.position == gap)).map (·.moves)).getD []

/-- The moves of an edge, if it has any. -/
def edgeMoves (a : Allocation) (source target : BlockId) : List Move :=
  ((a.resolution.edges.find? fun e =>
    e.source == (source : Ref) && e.target == (target : Ref)).map (·.moves)).getD []

theorem runMoves_cons (store : Location → V) (m : Move) (rest : List Move) :
    runMoves store (m :: rest) =
      runMoves (Function.update store m.target (store m.source)) rest := rfl

/-- Moves leave alone what they do not lead to. -/
theorem runMoves_of_ne {l : Location} : ∀ {moves : List Move} {store : Location → V},
    (∀ m ∈ moves, m.target ≠ l) → runMoves store moves l = store l
  | [], _, _ => rfl
  | m :: rest, store, h => by
    obtain ⟨hm, hrest⟩ := List.forall_mem_cons.1 h
    exact (runMoves_of_ne hrest).trans (Function.update_of_ne hm.symm _ _)

theorem mem_gapMoves {a : Allocation} {gap : Position} {m : Move} (h : m ∈ a.gapMoves gap) :
    ∃ group ∈ a.resolution.gaps, group.position = gap ∧ m ∈ group.moves := by
  rw [gapMoves] at h
  cases hfind : a.resolution.gaps.find? (·.position == gap) with
  | none => simp [hfind] at h
  | some group =>
    rw [hfind] at h
    exact ⟨group, List.mem_of_find?_eq_some hfind, by simpa using List.find?_some hfind, h⟩

theorem mem_edgeMoves {a : Allocation} {source target : BlockId} {m : Move}
    (h : m ∈ a.edgeMoves source target) :
    ∃ group ∈ a.resolution.edges, group.source = source ∧ m ∈ group.moves := by
  rw [edgeMoves] at h
  cases hfind : a.resolution.edges.find? fun e =>
      e.source == (source : Ref) && e.target == (target : Ref) with
  | none => simp [hfind] at h
  | some group =>
    rw [hfind] at h
    have hends := List.find?_some hfind
    simp only [Bool.and_eq_true, beq_iff_eq] at hends
    exact ⟨group, List.mem_of_find?_eq_some hfind, hends.1, h⟩

/-- Write values to where their definitions are kept in a gap. -/
def writeAll (a : Allocation) (gap : Position) (store : Location → V) (results : List (Def × V)) :
    Option (Location → V) :=
  results.foldlM
    (fun store (d, v) => (a.locate? d.register gap).map fun l => Function.update store l v) store

theorem writeAll_cons {a : Allocation} {gap : Position} {store : Location → V} {d : Def} {v : V}
    (rest : List (Def × V)) {l : Location} (hl : a.locate? d.register gap = some l) :
    a.writeAll gap store ((d, v) :: rest) = a.writeAll gap (Function.update store l v) rest := by
  rw [writeAll, List.foldlM_cons]
  simp only [hl]
  rfl

/-- Run allocated code at a position. Each instruction reads its operands where they are kept
at it, and writes them where they are kept in the gap behind it, whose moves follow. -/
def runCode (a : Allocation) (meaning : Meaning V) :
    Position → List Instruction → (Location → V) → Option (List (List V) × (Location → V))
  | _, [], store => some ([], store)
  | p, i :: rest, store => do
    let sources ← i.uses.mapM fun use => a.locate? use.register p
    let inputs := sources.map store
    let written ← a.writeAll (p + 1) store (i.results meaning inputs)
    let (reads, last) ← a.runCode meaning (p + stride) rest (runMoves written (a.gapMoves (p + 1)))
    return (inputs :: reads, last)

theorem runCode_cons {a : Allocation} {meaning : Meaning V} {p : Position} {i : Instruction}
    {rest : List Instruction} {store written last : Location → V} {sources : List Location}
    {reads : List (List V)}
    (hsources : (i.uses.mapM fun use => a.locate? use.register p) = some sources)
    (hwritten : a.writeAll (p + 1) store (i.results meaning (sources.map store)) = some written)
    (hrest : a.runCode meaning (p + stride) rest (runMoves written (a.gapMoves (p + 1))) =
      some (reads, last)) :
    a.runCode meaning p (i :: rest) store = some (sources.map store :: reads, last) := by
  simp [runCode, hsources, hwritten, hrest]

/-- Run the blocks of a path after allocation, with the moves of the edges between them. -/
def runPath (a : Allocation) (meaning : Meaning V) :
    List BlockId → (Location → V) → Option (List (List V))
  | [], _ => some []
  | b :: rest, store => do
    let span ← a.order.span? b
    let (reads, last) ← a.runCode meaning span.first (a.order.graph.instructions b) store
    let moved := match rest.head? with
      | some s => runMoves last (a.edgeMoves b s)
      | none => last
    return reads ++ (← a.runPath meaning rest moved)

end Allocation

end RegAlloc
