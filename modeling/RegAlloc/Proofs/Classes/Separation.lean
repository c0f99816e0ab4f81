import RegAlloc.Proofs.Allocation.Arranged
import RegAlloc.Proofs.Classes.Alike

/-!
# Classes of registers keep to themselves

After the analysis nothing reads an instruction any more. The sweep reads the stretches of the
blocks and the loops, the moves and the checks also the edges. Programs that are alike in a class
are therefore allocated alike, and the other classes have no part in what the class gets.

- `LinearOrder.AlikeIn.sweep`, `LinearOrder.AlikeIn.resolve` — the stages after the analysis;
- `Allocation.verify_withOrder` — the final check;
- `classes_separated` — the whole, from two graphs.
-/

namespace RegAlloc

namespace LinearOrder.AlikeIn

variable {c : String} {o o' : LinearOrder}

/-! ## Sweep -/

theorem sweepStep (h : o.AlikeIn c o') (pool : List String) (ends : List (VReg × Position)) :
    Sweep.step { order := o, pool, ends } = Sweep.step { order := o', pool, ends } :=
  h.agree (fun order => Sweep.step { order, pool, ends }) fun _ _ _ => rfl

theorem sweepRun (h : o.AlikeIn c o') (pool : List String) (ends : List (VReg × Position))
    (fuel : Nat) (s : Sweep) :
    Sweep.run { order := o, pool, ends } fuel s = Sweep.run { order := o', pool, ends } fuel s := by
  induction fuel generalizing s with
  | zero => rfl
  | succ fuel ih =>
    rw [Sweep.run, Sweep.run, h.sweepStep]
    simp only [ih]

theorem sweep (h : o.AlikeIn c o') (lives : List Lifetime) (pool : List String) :
    RegAlloc.sweep o lives pool = RegAlloc.sweep o' lives pool := by
  unfold RegAlloc.sweep
  dsimp only
  simp only [h.sweepRun]

/-! ## Moves -/

theorem splitGap? (h : o.AlikeIn c o') (hregular : o.Regular) (hregular' : o'.Regular) :
    o.splitGap? = o'.splitGap? := by
  have hstart : o.isBlockStart = o'.isBlockStart := by
    funext p
    rw [Bool.eq_iff_iff, hregular.isBlockStart_iff, hregular'.isBlockStart_iff, h.spans]
  funext p
  rw [LinearOrder.splitGap?, LinearOrder.splitGap?, hstart]

theorem blockAt? (h : o.AlikeIn c o') (hregular : o.Regular) (hregular' : o'.Regular) :
    o.blockAt? = o'.blockAt? := by
  funext p
  refine Option.ext fun b => ?_
  rw [hregular.blockAt?_eq_some, hregular'.blockAt?_eq_some, h.spans]

theorem span (h : o.AlikeIn c o') : o.span = o'.span := h.agree _ fun _ _ _ => rfl

theorem resolveGaps (h : o.AlikeIn c o') (hregular : o.Regular) (hregular' : o'.Regular)
    (liveness : Liveness) (scratch : Location) :
    RegAlloc.resolveGaps o liveness scratch = RegAlloc.resolveGaps o' liveness scratch := by
  have hbridge : bridge? o = bridge? o' := by
    funext r i j
    rw [bridge?, bridge?, h.splitGap? hregular hregular']
  rw [RegAlloc.resolveGaps, RegAlloc.resolveGaps, bridges, bridges, hbridge,
    h.blockAt? hregular hregular']

theorem resolveEdges (h : o.AlikeIn c o') (liveness : Liveness) (scratch : Location) :
    RegAlloc.resolveEdges o liveness scratch = RegAlloc.resolveEdges o' liveness scratch := by
  have hplacement : placementOf o.graph = placementOf o'.graph := by
    funext source target
    rw [placementOf, placementOf, h.graph.successors, (h.predecessors target).length_eq]
  have hedge : edgeMoves? o liveness scratch = edgeMoves? o' liveness scratch := by
    funext span b
    rw [edgeMoves?, edgeMoves?, h.span, hplacement]
  rw [RegAlloc.resolveEdges, RegAlloc.resolveEdges, h.spans, h.graph.successors, hedge]

theorem resolve (h : o.AlikeIn c o') (hregular : o.Regular) (hregular' : o'.Regular)
    (liveness : Liveness) (scratch : Location) :
    RegAlloc.resolve o liveness scratch = RegAlloc.resolve o' liveness scratch := by
  rw [RegAlloc.resolve, RegAlloc.resolve, h.resolveEdges, h.resolveGaps hregular hregular']

end LinearOrder.AlikeIn

/-! ## Allocations -/

namespace Allocation

variable {c : String} {a : Allocation} {order : LinearOrder}

/-- The allocation with its program replaced. -/
def withOrder (a : Allocation) (order : LinearOrder) : Allocation := { a with order }

theorem sweep_withOrder (h : a.order.AlikeIn c order) :
    (a.withOrder order).sweep = (a.sweep).map (·.withOrder order) := by
  rw [sweep, sweep, withOrder, h.sweep]
  cases RegAlloc.sweep order a.liveness.lives a.registers with
  | error v => rfl
  | ok swept => rfl

theorem resolve_withOrder (h : a.order.AlikeIn c order) (hregular : a.order.Regular)
    (hregular' : order.Regular) :
    (a.withOrder order).resolve = (a.resolve).map (·.withOrder order) := by
  rw [resolve, resolve, withOrder, h.resolve hregular hregular']
  have hscratch : scratch { a with order } = a.scratch := rfl
  rw [hscratch]
  cases RegAlloc.resolve order a.liveness a.scratch with
  | error v => rfl
  | ok resolution => rfl

theorem verify_withOrder (h : a.order.AlikeIn c order) (hregular : a.order.Regular)
    (hregular' : order.Regular) : (a.withOrder order).verify = a.verify := by
  -- the edges are checked by successors and spans only
  have hedge : (a.withOrder order).checkEdge = a.checkEdge := by
    funext span b
    rw [checkEdge, checkEdge, h.span]
    rfl
  have hedges : (a.withOrder order).checkEdges = a.checkEdges := by
    rw [checkEdges, checkEdges, hedge, h.spans, h.graph.successors]
    rfl
  -- gaps are found by the positions of blocks only
  have hbridge : (a.withOrder order).checkBridge = a.checkBridge := by
    funext r i j
    rw [checkBridge, checkBridge, h.splitGap? hregular hregular']
    rfl
  have hgaps : (a.withOrder order).checkGaps = a.checkGaps := by
    rw [checkGaps, checkGaps, hbridge]
    rfl
  rw [verify, verify, hedges, hgaps]
  rfl

theorem order_of_sweep {b : Allocation} (h : a.sweep = .ok b) : b.order = a.order := by
  obtain ⟨swept, -, hb⟩ := bind_eq_ok.1 h
  cases hb
  rfl

theorem order_of_resolve {b : Allocation} (h : a.resolve = .ok b) : b.order = a.order := by
  obtain ⟨resolution, -, hb⟩ := bind_eq_ok.1 h
  cases hb
  rfl

/-- Two allocations differ at most in the code of their programs. -/
structure SamePlan (a b : Allocation) : Prop where
  blocks : a.order.blocks = b.order.blocks
  spans : a.order.spans = b.order.spans
  liveness : a.liveness = b.liveness
  intervals : a.intervals = b.intervals
  registers : a.registers = b.registers
  slotCount : a.slotCount = b.slotCount
  scratch : a.scratch = b.scratch
  edges : a.resolution.edges = b.resolution.edges
  gaps : a.resolution.gaps = b.resolution.gaps

theorem samePlan_withOrder (h : a.order.AlikeIn c order) : a.SamePlan (a.withOrder order) :=
  ⟨congrArg (List.map _) h.spans, h.spans, rfl, rfl, rfl, rfl, rfl, rfl, rfl⟩

end Allocation

/-! ## The whole -/

/-- The stages after the analysis. -/
theorem LinearOrder.AlikeIn.place {c : String} {o o' : LinearOrder} (h : o.AlikeIn c o')
    (hregular : o.Regular) (hregular' : o'.Regular) (liveness : Liveness)
    (messages : Messages Issue) (pool : List String) (verify : Bool) :
    SameEnd Allocation.SamePlan
      (do let a ← (Allocation.start o liveness pool).sweep
          let a ← a.resolve
          if verify then a.verify
          return .success a messages)
      (do let a ← (Allocation.start o' liveness pool).sweep
          let a ← a.resolve
          if verify then a.verify
          return .success a messages) := by
  have hstart : Allocation.start o' liveness pool =
    (Allocation.start o liveness pool).withOrder o' := rfl
  rw [hstart, Allocation.sweep_withOrder h]
  -- the sweep, the resolution and the check each end alike
  cases hswept : (Allocation.start o liveness pool).sweep with
  | error v => exact .stopped v
  | ok swept =>
    have horder : swept.order = o := Allocation.order_of_sweep hswept
    dsimp only [bind, Except.bind, Except.map]
    rw [Allocation.resolve_withOrder (horder ▸ h) (horder ▸ hregular) hregular']
    cases hfound : swept.resolve with
    | error v => exact .stopped v
    | ok a =>
      have horder : a.order = o := (Allocation.order_of_resolve hfound).trans horder
      have hplan : a.SamePlan (a.withOrder o') := Allocation.samePlan_withOrder (horder ▸ h)
      dsimp only [Except.map]
      rw [Allocation.verify_withOrder (horder ▸ h) (horder ▸ hregular) hregular']
      split
      · cases a.verify with
        | error v => exact .stopped v
        | ok _ => exact .succeeded messages hplan
      · exact .succeeded messages hplan

/-- Orders that are alike in a class have that class allocated alike. -/
theorem LinearOrder.AlikeIn.allocate {c : String} {o o' : LinearOrder} (h : o.AlikeIn c o')
    (hregular : o.Regular) (hregular' : o'.Regular) (hindexed : o.graph.Indexed)
    (hindexed' : o'.graph.Indexed) (pool : List String) (verify : Bool) :
    SameEnd Allocation.SamePlan (o.allocate { registers := pool, regClass := some c, verify })
      (o'.allocate { registers := pool, regClass := some c, verify }) := by
  rw [LinearOrder.allocate, LinearOrder.allocate]
  cases hresolved : Options.resolve { registers := pool, regClass := some c, verify } with
  | failure messages => exact .failed messages
  | success resolved _ =>
    cases Options.eq_of_resolve hresolved
    dsimp only
    rw [h.analyze hregular hregular' hindexed hindexed']
    cases o'.analyze (some c) with
    | error v => exact .stopped v
    | ok outcome =>
      cases outcome with
      | failure messages => exact .failed messages
      | success liveness messages => exact h.place hregular hregular' liveness messages pool verify

/-- What a class gets does not depend on the operands of other classes: graphs that are alike in
the class end the same way, whatever the pool. -/
theorem classes_separated {c : String} {g h : Graph} (hg : g.Built) (hh : h.Built)
    (halike : g.AlikeIn c h) (pool : List String) (verify : Bool) :
    SameEnd Allocation.SamePlan (g.allocate { registers := pool, regClass := some c, verify })
      (h.allocate { registers := pool, regClass := some c, verify }) := by
  rw [Graph.allocate, Graph.allocate]
  cases hresolved : Options.resolve { registers := pool, regClass := some c, verify } with
  | failure messages => exact .failed messages
  | success resolved _ =>
    cases Options.eq_of_resolve hresolved
    have hordered := halike.linearize hg.consistent hh.consistent
    dsimp only
    generalize hx : g.linearize = x at hordered ⊢
    generalize hy : h.linearize = y at hordered ⊢
    -- the graphs are refused alike, or put in orders that agree on the class
    cases hordered with
    | stopped v => exact .stopped v
    | failed messages => exact .failed messages
    | @succeeded o o' ordered ho =>
      have hallocated := ho.allocate (LinearOrder.regular_of_linearize hg.wellFormed hx)
        (LinearOrder.regular_of_linearize hh.wellFormed hy)
        (LinearOrder.indexed_of_linearize hg.indexed hx)
        (LinearOrder.indexed_of_linearize hh.indexed hy) pool verify
      dsimp only [bind, Except.bind]
      generalize o.allocate _ = x at hallocated ⊢
      generalize o'.allocate _ = y at hallocated ⊢
      cases hallocated with
      | stopped v => exact .stopped v
      | failed messages => exact .failed _
      | succeeded messages hplan => exact .succeeded _ hplan

/-- Two values of class "float" that one register has to do for, with an instruction of any kind
while both are alive. -/
def pressed (between : InstructionSpec) : Graph := Graph.run {} [
  .createRegister {}, .createRegister { regClass := some "float" },
  .createRegister { regClass := some "float" }, .addBlock,
  .addInstruction (0 : Nat) { opcode := "a", defs := [{ register := (1 : Nat) }] },
  .addInstruction (0 : Nat) { opcode := "b", defs := [{ register := (2 : Nat) }] },
  .addInstruction (0 : Nat) between,
  .addInstruction (0 : Nat) { opcode := "c", uses := [{ register := (2 : Nat) }] },
  .addInstruction (0 : Nat) { opcode := "d", uses := [{ register := (1 : Nat) }] }]

theorem classes_separated_pressed : ∃ a b messages,
    (pressed { opcode := "x" }).allocate
      { registers := ["f0"], regClass := some "float", verify := true } =
        .ok (.success a messages) ∧
    (pressed { opcode := "y", defs := [{ register := (0 : Nat) }] }).allocate
      { registers := ["f0"], regClass := some "float", verify := true } =
        .ok (.success b messages) ∧
    a.order ≠ b.order ∧ a.slotCount = 1 ∧ a.SamePlan b := by
  have halike : (pressed { opcode := "x" }).AlikeIn "float"
      (pressed { opcode := "y", defs := [{ register := (0 : Nat) }] }) :=
    ⟨rfl, rfl, .cons ⟨rfl, .cons ⟨rfl, rfl⟩ (.cons ⟨rfl, rfl⟩ (.cons ⟨rfl, rfl⟩
      (.cons ⟨rfl, rfl⟩ (.cons ⟨rfl, rfl⟩ .nil))))⟩ .nil⟩
  have hbuilt : ∀ between, (pressed between).Built := fun _ => ⟨_, rfl⟩
  have hsame := classes_separated (hbuilt _) (hbuilt _) halike ["f0"] true
  have hallocated : ∃ a b messages messages',
      (pressed { opcode := "x" }).allocate
        { registers := ["f0"], regClass := some "float", verify := true } =
          .ok (.success a messages) ∧
      (pressed { opcode := "y", defs := [{ register := (0 : Nat) }] }).allocate
        { registers := ["f0"], regClass := some "float", verify := true } =
          .ok (.success b messages') ∧
      (a.order.graph.instructions 0).map (·.opcode) = ["a", "b", "x", "c", "d"] ∧
      (b.order.graph.instructions 0).map (·.opcode) = ["a", "b", "y", "c", "d"] ∧
      a.slotCount = 1 :=
    ⟨_, _, _, _, rfl, rfl, rfl, rfl, rfl⟩
  obtain ⟨a, b, messages, messages', ha, hb, hx, hy, hcount⟩ := hallocated
  -- the theorem says that both runs end alike, and evaluation that the graphs differ
  rw [ha, hb] at hsame
  cases hsame with
  | succeeded _ hplan =>
    refine ⟨a, b, messages, ha, hb, fun horder => ?_, hcount, hplan⟩
    rw [horder, hy] at hx
    exact absurd hx (by decide)

end RegAlloc
