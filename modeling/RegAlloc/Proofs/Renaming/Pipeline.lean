import RegAlloc.Pipeline
import RegAlloc.Proofs.Renaming.Check
import RegAlloc.Proofs.Renaming.Sweep

/-!
# An allocation under new names

The linear order and the liveness of a program know nothing of physical registers. From
there on every stage goes along with a change of names, and so does the whole.

- `Graph.linearize_rename`, `LinearOrder.analyze_rename` — the stages without registers;
- `Allocation.sweep_rename`, `Allocation.resolve_rename` — the stages with them;
- `Graph.allocate_rename` — the outcome for a renamed pool is the renamed outcome.
-/

namespace RegAlloc

variable {f : String → String}

/-! ## Before there are registers -/

namespace LinearOrder

theorem positionOf_rename (order : LinearOrder) (block : Ref) (index : Int) :
    order.positionOf block index = renamed f id (order.positionOf block index) := by
  exact renamed_bind (order.span_rename block) fun _ => renamed_ite Iff.rfl rfl rfl

theorem findLatchEnd_rename (order : LinearOrder) (b : BlockId) :
    order.findLatchEnd b = renamed f id (order.findLatchEnd b) := by
  refine renamed_bind (renamed_mapM_self (h := id) (fun edge => ?_) _) fun stops => ?_
  · exact renamed_bind (order.span_rename _) fun _ => rfl
  · rw [List.map_id]
    rfl

end LinearOrder

/-- The state of a pass, with its intervals in renamed locations. -/
def Pass.rename (f : String → String) (s : Pass) : Pass :=
  { s with intervals := s.intervals.map (Interval.rename f) }

namespace Pass

theorem changeIn_rename (r : VReg) {change : Interval → Except Violation Interval}
    (hchange : ∀ i, change (i.rename f) = renamed f (Interval.rename f) (change i))
    (intervals : List Interval) : changeIn r change (intervals.map (Interval.rename f)) =
      renamed f (List.map (Interval.rename f)) (changeIn r change intervals) := by
  induction intervals with
  | nil => rfl
  | cons i rest ih =>
    rw [List.map_cons, changeIn, changeIn]
    refine renamed_ite Iff.rfl (renamed_bind (hchange i) fun _ => rfl) ?_
    exact renamed_bind ih fun _ => rfl

theorem change_rename (s : Pass) (r : VReg) {change : Interval → Except Violation Interval}
    (hchange : ∀ i, change (i.rename f) = renamed f (Interval.rename f) (change i)) :
    (s.rename f).change r change = renamed f (Pass.rename f) (s.change r change) := by
  exact renamed_bind (changeIn_rename r hchange s.intervals) fun _ => rfl

theorem extend_rename (s : Pass) (start stop : Position) :
    (s.rename f).extend start stop = renamed f (Pass.rename f) (s.extend start stop) := by
  refine renamed_foldlM_self (fun s r => s.change_rename r fun i => ?_) s.live s
  exact i.addRange_rename start stop

theorem beginAt_rename (p : Position) (d : Def) (isLive : Bool) (i : Interval) :
    beginAt p d isLive (i.rename f) = renamed f (Interval.rename f) (beginAt p d isLive i) := by
  cases isLive with
  | true => rfl
  | false => exact renamed_bind (i.addRange_rename _ _) fun _ => rfl

theorem write_rename (p : Position) (s : Pass) (d : Def) :
    (s.rename f).write p d = renamed f (Pass.rename f) (s.write p d) := by
  exact renamed_bind (s.change_rename d.register (beginAt_rename p d _)) fun _ => rfl

theorem read_rename (g : Graph) (span : Span) (p : Position) (i : Instruction) (after : List VReg)
    (s : Pass) (u : Use) : (s.rename f).read g span p i after u =
      renamed f (Pass.rename f) (s.read g span p i after u) := by
  refine renamed_bind (s.change_rename u.register fun i => ?_) fun _ => rfl
  exact renamed_bind (i.addRange_rename _ _) fun _ => rfl

theorem instruction_rename (order : LinearOrder) (regClass : Option String) (span : Span)
    (i : Instruction) (s : Pass) : (s.rename f).instruction order regClass span i =
      renamed f (Pass.rename f) (s.instruction order regClass span i) := by
  refine renamed_bind (order.positionOf_rename _ _) fun p => ?_
  refine renamed_bind (renamed_foldlM_self (fun s d => s.write_rename p d) _ s) fun written => ?_
  exact renamed_foldlM_self (fun s u => s.read_rename _ _ _ _ _ u) _ written

theorem closeLoop_rename (order : LinearOrder) (span : Span) (s : Pass) :
    (s.rename f).closeLoop order span = renamed f (Pass.rename f) (s.closeLoop order span) := by
  refine renamed_bind (order.findLatchEnd_rename _) fun latch => ?_
  cases latch with
  | none => rfl
  | some stop => exact renamed_bind (s.extend_rename _ _) fun _ => rfl

theorem block_rename (order : LinearOrder) (regClass : Option String) (b : BlockId) (s : Pass) :
    (s.rename f).block order regClass b = renamed f (Pass.rename f) (s.block order regClass b) := by
  refine renamed_bind (order.span_rename _) fun span => ?_
  refine renamed_bind (extend_rename { s with live := s.liveAfter order b } _ _) fun begun => ?_
  refine renamed_bind (renamed_foldrM_self (fun i s => s.instruction_rename _ _ _ i) _ begun)
    fun followed => ?_
  exact renamed_bind (followed.closeLoop_rename _ _) fun _ => rfl

end Pass

namespace LinearOrder

/-- Intervals that are only just created have no locations yet. -/
theorem createIntervals_rename (order : LinearOrder) (regClass : Option String) :
    (order.createIntervals regClass).map (Interval.rename f) = order.createIntervals regClass := by
  unfold createIntervals
  rw [List.map_map]
  rfl

theorem pass_rename (order : LinearOrder) (regClass : Option String) :
    order.pass regClass = renamed f (Pass.rename f) (order.pass regClass) := by
  have hpass := renamed_foldrM_self (Pass.block_rename (f := f) order regClass) order.blocks
    { intervals := order.createIntervals regClass }
  rwa [Pass.rename, order.createIntervals_rename] at hpass

theorem unusedWarnings_rename (order : LinearOrder) (regClass : Option String)
    (intervals : List Interval) :
    order.unusedWarnings regClass (intervals.map (Interval.rename f)) =
      order.unusedWarnings regClass intervals := by
  simp only [unusedWarnings, List.any_map, Function.comp_def, Interval.rename_register]

theorem analyze_rename (order : LinearOrder) (regClass : Option String) :
    order.analyze regClass =
      renamed f (Outcome.map (Liveness.rename f)) (order.analyze regClass) := by
  refine renamed_bind (order.pass_rename regClass) fun s => renamed_ite Iff.rfl rfl ?_
  simp only [Pass.rename, unusedWarnings_rename, List.map_map, renamed_pure, Outcome.map,
    Liveness.rename]
  rfl

end LinearOrder

theorem Graph.linearize_rename (g : Graph) : g.linearize = renamed f id g.linearize := by
  unfold linearize
  cases g.entry with
  | none => rfl
  | some entry => exact renamed_ite Iff.rfl rfl (renamed_ite Iff.rfl rfl rfl)

/-! ## With registers -/

namespace Allocation

theorem start_rename (order : LinearOrder) (liveness : Liveness) (pool : List String) :
    start order (liveness.rename f) (pool.map f) = (start order liveness pool).rename f := by
  exact congrArg (fun intervals => Allocation.mk order _ intervals _ 0 {})
    (roots_rename liveness.lives)

theorem sweep_rename (hf : Function.Injective f) (a : Allocation) :
    (a.rename f).sweep = renamed f (Allocation.rename f) a.sweep := by
  exact renamed_bind (RegAlloc.sweep_rename hf a.order a.liveness.lives a.registers) fun _ => rfl

theorem resolve_rename (hf : Function.Injective f) (a : Allocation) :
    (a.rename f).resolve = renamed f (Allocation.rename f) a.resolve := by
  exact renamed_bind (RegAlloc.resolve_rename hf a.order a.liveness a.scratch) fun _ => rfl

end Allocation

/-- Options that can be used are used as they are. -/
theorem Options.resolve_eq {options : Options} (h : options.isAcceptable = true) :
    options.resolve = .ok options := by
  rw [resolve, if_pos h]

/-- The result of an allocation, with registers under new names. -/
abbrev renamedOutcome (f : String → String) :
    Except Violation (Outcome Issue Allocation) → Except Violation (Outcome Issue Allocation) :=
  renamed f (Outcome.map (Allocation.rename f))

section

variable {options : Options} {pool : List String} (hf : Function.Injective f)
  (hpool : options.registers.map f = pool) (haccepted : options.isAcceptable = true)
  (haccepted' : ({ options with registers := pool } : Options).isAcceptable = true)
  (hslots : options.verify = true → ∀ n, f (Location.slot n).text = (Location.slot n).text)

include hf hpool haccepted haccepted' hslots

theorem LinearOrder.allocate_rename (order : LinearOrder) :
    order.allocate { options with registers := pool } =
      renamedOutcome f (order.allocate options) := by
  unfold allocate
  rw [Options.resolve_eq haccepted, Options.resolve_eq haccepted']
  refine renamed_bind (order.analyze_rename options.regClass) fun analysed => ?_
  cases analysed with
  | failure messages => rfl
  | success liveness messages =>
    dsimp only [Outcome.map]
    rw [← hpool, Allocation.start_rename]
    refine renamed_bind (Allocation.sweep_rename hf _) fun swept =>
      renamed_bind (Allocation.resolve_rename hf swept) fun a => ?_
    -- only the check compares texts, so only here must slots keep theirs
    by_cases hverify : options.verify = true
    · simp only [hverify, if_true]
      have hrelabelling : Relabelling f := ⟨hf, hslots hverify⟩
      exact renamed_bind (hrelabelling.verify a) fun _ => rfl
    · simp only [hverify]
      rfl

/-- The outcome for a renamed pool is the renamed outcome. Only where the result is checked
do the texts of slots matter. -/
theorem Graph.allocate_rename (g : Graph) :
    g.allocate { options with registers := pool } = renamedOutcome f (g.allocate options) := by
  unfold allocate
  rw [Options.resolve_eq haccepted, Options.resolve_eq haccepted']
  refine renamed_bind g.linearize_rename fun ordered => ?_
  cases ordered with
  | failure messages => rfl
  | success order messages =>
    refine renamed_bind (order.allocate_rename hf hpool haccepted haccepted' hslots)
      fun outcome => ?_
    cases outcome <;> rfl

end

end RegAlloc
