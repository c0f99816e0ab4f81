import Mathlib.Data.List.Sort
import RegAlloc.Liveness.Analysis
import RegAlloc.Proofs.Liveness.Scan
import RegAlloc.Proofs.Sorted

/-!
# Liveness, register by register

Registers do not influence each other's lives, so each one can be scanned on its own. Here the
scans of all registers of a class are put together to what an analysis should find.

- `mem_ascending`, `pairwise_ascending` — sets of registers;
- `LinearOrder.mem_occurring` — the registers that occur;
- `LinearOrder.scans` — the scans of the registers of a class;
- `LinearOrder.readsAfterKill`, `entryIssues`, `unusedIssues` — what is wrong with a program, or
  worth a warning;
- `LinearOrder.analyzeEach` — the analysis, register by register.
-/

namespace RegAlloc

variable {r : VReg}

/-! ## Sets of registers -/

theorem mem_insertRegister {s : VReg} {rs : List VReg} :
    r ∈ insertRegister s rs ↔ r = s ∨ r ∈ rs := by
  rw [insertRegister]
  split
  · next hs => exact ⟨.inr, fun h => h.elim (fun heq => heq ▸ hs) id⟩
  · exact mem_insertBefore

theorem pairwise_insertRegister {rs : List VReg} (h : rs.Pairwise (· < ·)) :
    (insertRegister r rs).Pairwise (· < ·) := by
  unfold insertRegister
  split
  · exact h
  · next hnew =>
    refine pairwise_insertBefore h (fun y _ hlater => by simpa using hlater) (fun y hy hlater => ?_)
      fun y z => Int.lt_trans
    have hne : y ≠ r := fun heq => hnew (heq ▸ hy)
    have hle : y ≤ r := by simpa using hlater
    lia

/-- What is in an ascending list to which others are added, one by one. -/
theorem mem_foldl_insertRegister {rs live : List VReg} :
    r ∈ rs.foldl (fun l s => insertRegister s l) live ↔ r ∈ rs ∨ r ∈ live := by
  induction rs generalizing live with
  | nil => simp
  | cons s rs ih =>
    rw [List.foldl_cons, ih, mem_insertRegister, List.mem_cons]
    grind

theorem pairwise_foldl_insertRegister {rs live : List VReg} (h : live.Pairwise (· < ·)) :
    (rs.foldl (fun l s => insertRegister s l) live).Pairwise (· < ·) :=
  List.foldlRecOn (motive := List.Pairwise (· < ·)) rs _ h
    fun _ hl _ _ => pairwise_insertRegister hl

theorem mem_ascending {rs : List VReg} : r ∈ ascending rs ↔ r ∈ rs := by
  rw [ascending, mem_foldl_insertRegister]
  simp

theorem pairwise_ascending (rs : List VReg) : (ascending rs).Pairwise (· < ·) :=
  pairwise_foldl_insertRegister .nil

namespace LinearOrder

/-! ## Registers that occur -/

/-- The registers of the class that an instruction mentions. -/
theorem mem_occurring {order : LinearOrder} {regClass : Option String} :
    r ∈ order.occurring regClass ↔
      order.graph.inClass regClass r = true ∧ order.graph.mentions r = true := by
  simp only [occurring, mem_ascending, List.mem_filter, List.mem_flatMap, List.mem_append,
    List.mem_map, Graph.mentions, List.any_eq_true, Instruction.mentions, Instruction.reads,
    Instruction.writes, Bool.or_eq_true, beq_iff_eq]
  grind

theorem pairwise_occurring (order : LinearOrder) (regClass : Option String) :
    (order.occurring regClass).Pairwise (· < ·) := pairwise_ascending _

theorem nodup_occurring (order : LinearOrder) (regClass : Option String) :
    (order.occurring regClass).Nodup := (pairwise_occurring order regClass).imp Int.ne_of_lt

/-! ## The scans of a class -/

/-- The scans of all registers of a class that occur. -/
def scans (order : LinearOrder) (regClass : Option String) : List (VReg × Scan) :=
  (order.occurring regClass).map fun r => (r, order.scan r)

/-- The scanned registers that satisfy a condition. -/
def selectScanned (scans : List (VReg × Scan)) (p : Scan → Bool) : List VReg :=
  (scans.filter fun (_, scan) => p scan).map (·.1)

theorem selectScanned_scans (order : LinearOrder) (regClass : Option String) (p : Scan → Bool) :
    selectScanned (order.scans regClass) p =
      (order.occurring regClass).filter fun r => p (order.scan r) := by
  unfold selectScanned scans
  rw [List.filter_map, List.map_map]
  exact List.map_id _

/-- Looking up the scan of a register. -/
theorem lookup_scans {order : LinearOrder} {regClass : Option String} :
    (order.scans regClass).lookup r =
      if r ∈ order.occurring regClass then some (order.scan r) else none := by
  split
  · next hr =>
    have hnodup : ((order.occurring regClass).map fun s => s).Nodup := by
      simpa using nodup_occurring order regClass
    exact Table.lookup_map hnodup r hr
  · next hr =>
    refine List.lookup_eq_none_iff.2 fun entry hentry => ?_
    obtain ⟨s, hs, rfl⟩ := List.mem_map.1 hentry
    exact bne_iff_ne.2 fun heq => hr (heq ▸ hs)

/-! ## What can be wrong -/

/-- The complaint about a read by the instruction `i` at `p`, before the code `rest`: it is marked
as the last use, and the value is read again. `after` says whether its register is needed after
the code. -/
def killIssue? (order : LinearOrder) (b : BlockId) (p : Position) (i : Instruction)
    (rest : List Instruction) (use : Use) (after : Bool) : Option Issue :=
  if use.kill && !i.writes use.register && liveBefore use.register after rest then
    some (.readAfterKill use.register (order.graph.nameOf use.register) b i.index p)
  else none

theorem eq_of_killIssue? {order : LinearOrder} {b : BlockId} {p : Position} {i : Instruction}
    {rest : List Instruction} {use : Use} {after : Bool} {issue : Issue}
    (h : order.killIssue? b p i rest use after = some issue) :
    issue = .readAfterKill use.register (order.graph.nameOf use.register) b i.index p := by
  rw [killIssue?] at h
  split at h
  · cases h
    rfl
  · cases h

/-- The complaints about straight-line code at `p`, last instruction first. `needed` says of the
registers to judge whether they are needed after the code. -/
def killIssues (order : LinearOrder) (needed : VReg → Option Bool) (b : BlockId) :
    Position → List Instruction → List Issue
  | _, [] => []
  | p, i :: rest =>
    killIssues order needed b (p + stride) rest ++
      i.uses.filterMap fun use => (needed use.register).bind (order.killIssue? b p i rest use)

/-- All reads of scanned registers marked as last uses although the value is read
again, in the order in which a backward pass meets them. -/
def readsAfterKill (order : LinearOrder) (scans : List (VReg × Scan)) : List Issue :=
  order.spans.reverse.flatMap fun span =>
    let needed (r : VReg) : Option Bool :=
      (scans.lookup r).map fun scan => scan.neededAfter order span.block
    order.killIssues needed span.block span.first (order.graph.instructions span.block)

/-- The registers that are live as the program starts. -/
def entryIssues (order : LinearOrder) (scans : List (VReg × Scan)) : List Issue :=
  match order.spans.head? with
  | none => []
  | some span =>
    (selectScanned scans (order.liveInto · span)).map fun r =>
      .liveAtEntry r (order.graph.nameOf r) span.block

/-- The declared registers of a class that never occur. -/
def unusedIssues (order : LinearOrder) (regClass : Option String) : List Issue :=
  (order.graph.registers.filter fun register =>
      order.graph.inClass regClass register.id && !order.graph.mentions register.id).map
    fun register => .unused register.id register.name

/-! ## The analysis -/

/-- The lifetimes that the scans found, with ids in their order. -/
def livesOf (scans : List (VReg × Scan)) : List Lifetime :=
  scans.zipIdx.map fun ((register, scan), id) =>
    { root := { id, register, ranges := scan.track.ranges, uses := scan.track.uses } }

/-- The registers live as each block begins. -/
def liveInSets (order : LinearOrder) (scans : List (VReg × Scan)) : List (BlockId × List VReg) :=
  order.spans.map fun span => (span.block, selectScanned scans (order.liveInto · span))

/-- The values that die at each instruction. -/
def killsOf (order : LinearOrder) (scans : List (VReg × Scan)) : List (Position × List VReg) :=
  (order.slots.map fun slot =>
      (slot.position, selectScanned scans (slot.position ∈ ·.track.deaths))).filter
    fun (_, dying) => !dying.isEmpty

/-- What is found to be wrong with a program. -/
def errorsOf (order : LinearOrder) (scans : List (VReg × Scan)) : List Issue :=
  order.readsAfterKill scans ++ order.entryIssues scans

/-- Where the registers are live, according to their scans. -/
def livenessOf (order : LinearOrder) (scans : List (VReg × Scan)) : Liveness where
  lives := livesOf scans
  liveIn := order.liveInSets scans
  liveOut := order.liveOutSets (order.liveInSets scans)
  kills := order.killsOf scans

/-- What an analysis should come to. -/
def analyzeEach (order : LinearOrder) (regClass : Option String) : Outcome Issue Liveness :=
  let scans := order.scans regClass
  let warnings := order.unusedIssues regClass
  if !(order.errorsOf scans).isEmpty then .fail (order.errorsOf scans)
  else .success (order.livenessOf scans)
    { warnings := if warnings.isEmpty then none else some warnings }

end LinearOrder

end RegAlloc
