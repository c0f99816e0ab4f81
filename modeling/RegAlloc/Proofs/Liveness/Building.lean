import RegAlloc.Proofs.Liveness.Coverage
import RegAlloc.Proofs.Order.Numbering

/-!
# Building a life with every step checked

A scan joins ranges without looking whether they are empty, and takes stretches and positions
from where it stands. Here the same life is built step by step, with each range handed to
the interval that refuses an empty one, and each stretch and position looked up. In a linear
order no step is refused, and the two give the same.

- `LinearOrder.Places` — code that stands from a position on;
- `Growth` — an interval under construction, with `Growth.write`, `Growth.read` and
  `Growth.block` following the code;
- `LinearOrder.grow` — the whole order;
- `Track.growth` — the state of a scan, seen as an interval under construction;
- `Track.growth_instruction`, `Track.growth_code`, `LinearOrder.growth_block` — each step
  keeps the two alike;
- `LinearOrder.grow_eq_ok` — the whole construction returns what the scan finds.
-/

namespace RegAlloc

namespace LinearOrder

variable {order : LinearOrder} {b : BlockId} {p : Position}

/-- Code of a block stands from `p` on, one instruction after the other. -/
def Places (order : LinearOrder) (b : BlockId) (p : Position) (body : List Instruction) : Prop :=
  ∀ (k : Nat) (i : Instruction), body[k]? = some i →
    order.positionOf b i.index = .ok (p + stride * k)

theorem Places.head {i : Instruction} {rest : List Instruction}
    (h : order.Places b p (i :: rest)) : order.positionOf b i.index = .ok p := by
  simpa using h 0 i rfl

theorem Places.tail {i : Instruction} {rest : List Instruction}
    (h : order.Places b p (i :: rest)) : order.Places b (p + stride) rest := by
  intro k j hj
  rw [h (k + 1) j hj]
  congr 1
  lia

/-- The code of a block stands in its stretch. -/
theorem Regular.places (h : order.Regular) (hindexed : order.graph.Indexed) {span : Span}
    (hspan : span ∈ order.spans) :
    order.Places span.block span.first (order.graph.instructions span.block) := by
  intro k i hk
  rw [(hindexed span.block k i hk).1]
  exact h.positionOf_instruction hspan hk

end LinearOrder

/-! ## The construction -/

/-- An interval under construction, and whether its value is needed from here on. -/
structure Growth where
  live : Bool := false
  interval : Interval
  deriving DecidableEq, Repr

namespace Growth

/-- Extend the life over a range. -/
def extend (growth : Growth) (start stop : Position) : Except Violation Growth := do
  return { growth with interval := ← growth.interval.addRange start stop }

/-- Extend the life over a range if the value is needed. -/
def extendIfLive (growth : Growth) (start stop : Position) : Except Violation Growth :=
  if growth.live then growth.extend start stop else return growth

/-- Follow a write by the instruction at `p`. -/
def write (p : Position) (growth : Growth) (d : Def) : Except Violation Growth := do
  let begun ← if growth.live then pure (growth.interval.setFrom (p + 1))
    else growth.interval.addRange (p + 1) (p + 2)
  return ⟨false, begun.addUse ⟨p + 1, d.policy, .write⟩⟩

/-- Follow a read by the instruction at `p` of a block that starts at `first`. -/
def read (first p : Position) (growth : Growth) (u : Use) : Except Violation Growth := do
  let reached ← growth.interval.addRange first (p + 1)
  return ⟨true, reached.addUse ⟨p, u.policy, .read⟩⟩

/-- Follow one instruction of a block. -/
def instruction (order : LinearOrder) (r : VReg) (span : Span) (i : Instruction)
    (growth : Growth) : Except Violation Growth := do
  let p ← order.positionOf span.block i.index
  let written ← (i.defs.filter (·.register == r)).foldlM (write p) growth
  (i.uses.filter (·.register == r)).foldlM (read span.first p) written

/-- Follow a block, given whether the value is needed after it. -/
def block (order : LinearOrder) (r : VReg) (span : Span) (liveOut : Bool) (growth : Growth) :
    Except Violation Growth := do
  let opened ← extendIfLive { growth with live := liveOut } span.first (span.last + stride)
  let followed ← (order.graph.instructions span.block).foldrM (instruction order r span) opened
  match ← order.findLatchEnd span.block with
  | some stop => followed.extendIfLive span.first stop
  | none => return followed

end Growth

namespace LinearOrder

/-- Build the life of a register in the last blocks, and find which of them need it. -/
def growFrom (order : LinearOrder) (id : IntervalId) (r : VReg) :
    List BlockId → Except Violation (Growth × List (BlockId × Bool))
  | [] => return ({ interval := { id, register := r } }, [])
  | b :: later => do
    let (growth, needed) ← growFrom order id r later
    let span ← order.span b
    let followed ← growth.block order r span (Scan.neededAfter { needed } order b)
    return (followed, (b, followed.live) :: needed)

/-- Build the life of a register. -/
def grow (order : LinearOrder) (id : IntervalId) (r : VReg) : Except Violation Interval := do
  return (← order.growFrom id r order.blocks).1.interval

end LinearOrder

/-! ## Each step keeps up with the scan -/

namespace Track

variable {order : LinearOrder} {span : Span} {id : IntervalId} {r : VReg} {p : Position}

/-- A track, seen as an interval under construction. -/
def growth (id : IntervalId) (r : VReg) (t : Track) : Growth where
  live := t.live
  interval := { id, register := r, ranges := t.ranges, uses := t.uses }

theorem growth_addRange {start stop : Position} (hlt : start < stop) (t : Track) :
    (t.growth id r).interval.addRange start stop =
      .ok ((t.extend start stop).growth id r).interval := by
  rw [Interval.addRange, if_pos hlt]
  rfl

theorem growth_extend {start stop : Position} (hlt : start < stop) (t : Track) :
    (t.growth id r).extend start stop = .ok ((t.extend start stop).growth id r) := by
  rw [Growth.extend, growth_addRange hlt]
  rfl

theorem growth_extendIfLive {start stop : Position} (hlt : start < stop) (t : Track) :
    (t.growth id r).extendIfLive start stop =
      .ok ((if t.live then t.extend start stop else t).growth id r) := by
  have hlive : (t.growth id r).live = t.live := rfl
  rw [Growth.extendIfLive, hlive]
  cases t.live with
  | true => exact growth_extend hlt t
  | false => rfl

theorem growth_write (t : Track) (d : Def) :
    (t.growth id r).write p d = .ok ((write p t d).growth id r) := by
  have hlive : (t.growth id r).live = t.live := rfl
  rw [Growth.write, write, hlive]
  cases t.live with
  | true => rfl
  | false =>
    rw [if_neg Bool.false_ne_true, growth_addRange (by lia)]
    rfl

theorem growth_read {first : Position} (hfirst : first ≤ p) (t : Track) (u : Use) :
    (t.growth id r).read first p u = .ok ((read first p t u).growth id r) := by
  rw [Growth.read, growth_addRange (by lia)]
  rfl

theorem growth_instruction {i : Instruction} (hp : order.positionOf span.block i.index = .ok p)
    (hfirst : span.first ≤ p) (t : Track) :
    Growth.instruction order r span i (t.growth id r) =
      .ok ((instruction r span.first p i t).growth id r) := by
  rw [Growth.instruction, hp, instruction]
  refine bind_eq_ok.2 ⟨p, rfl, bind_eq_ok.2 ⟨_, foldlM_eq_ok_foldl (growth id r)
    (fun t d _ => growth_write t d) t, ?_⟩⟩
  exact foldlM_eq_ok_foldl (growth id r) (fun t u _ => growth_read hfirst t u) _

theorem growth_code : ∀ {body : List Instruction} {p : Position},
    order.Places span.block p body → span.first ≤ p → ∀ t : Track,
      body.foldrM (Growth.instruction order r span) (t.growth id r) =
        .ok ((code r span.first p body t).growth id r)
  | [], _, _, _, _ => rfl
  | i :: rest, p, hplaces, hfirst, t => by
    rw [List.foldrM_cons, growth_code hplaces.tail (by lia), code]
    exact growth_instruction hplaces.head hfirst _

end Track

namespace LinearOrder

variable {order : LinearOrder} {span : Span} {id : IntervalId} {r : VReg}

/-- Every latch of a loop has a stretch. -/
theorem findLatchEnd_eq_ok (h : order.Regular) (b : BlockId) :
    order.findLatchEnd b = .ok (order.latchEnd? b) := by
  refine bind_eq_ok.2 ⟨_, mapM_eq_ok_filterMap fun edge hedge => ?_, rfl⟩
  have hsource := Graph.source_lt (h.loopEdge edge (List.mem_of_mem_filter hedge))
  obtain ⟨latch, hlatch, hblock⟩ := h.exists_span hsource
  refine ⟨latch.last + stride, ?_, ?_⟩
  · rw [h.span_eq_ok.2 ⟨hlatch, hblock⟩]
    rfl
  · rw [h.span?_eq_some.2 ⟨hlatch, hblock⟩]
    rfl

/-- Following a block with every step checked is following it. -/
theorem growth_block (h : order.Regular) (hindexed : order.graph.Indexed)
    (hspan : span ∈ order.spans) (out : Bool) (t : Track) :
    (t.growth id r).block order r span out = .ok ((t.block order r span out).growth id r) := by
  -- no range is empty: a stretch has positions, and a loop ends behind the start of its header
  have hlt : span.first < span.last + stride := h.contiguous.first_lt_stop span hspan
  refine bind_eq_ok.2 ⟨_, Track.growth_extendIfLive hlt { t with live := out }, ?_⟩
  refine bind_eq_ok.2 ⟨_, Track.growth_code (h.places hindexed hspan) (Int.le_refl _) _, ?_⟩
  refine bind_eq_ok.2 ⟨_, findLatchEnd_eq_ok h span.block, ?_⟩
  rw [Track.block]
  cases hlatch : order.latchEnd? span.block with
  | some stop => exact Track.growth_extendIfLive (first_lt_latchEnd h hspan hlatch) _
  | none => rfl

/-- Building the life in the last blocks is scanning them. -/
theorem growFrom_eq_ok (h : order.Regular) (hindexed : order.graph.Indexed) :
    ∀ {spans : List Span}, (∀ span ∈ spans, span ∈ order.spans) →
      order.growFrom id r (spans.map (·.block)) =
        .ok ((order.scanSpans r spans).track.growth id r, (order.scanSpans r spans).needed)
  | [], _ => rfl
  | span :: later, hspans => by
    obtain ⟨hspan, hlater⟩ := List.forall_mem_cons.1 hspans
    rw [List.map_cons]
    refine bind_eq_ok.2 ⟨_, growFrom_eq_ok h hindexed hlater, ?_⟩
    refine bind_eq_ok.2 ⟨span, h.span_block hspan, ?_⟩
    exact bind_eq_ok.2 ⟨_, growth_block h hindexed hspan _ _, rfl⟩

/-- Building a life with every step checked returns what the scan finds. -/
theorem grow_eq_ok (h : order.Regular) (hindexed : order.graph.Indexed) (id : IntervalId)
    (r : VReg) : order.grow id r = .ok
      { id
        register := r
        ranges := (order.scan r).track.ranges
        uses := (order.scan r).track.uses } :=
  bind_eq_ok.2 ⟨_, growFrom_eq_ok h hindexed fun _ hspan => hspan, rfl⟩

end LinearOrder

end RegAlloc
