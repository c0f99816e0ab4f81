import Mathlib.Data.List.Nodup
import RegAlloc.Proofs.Liveness.Agreement
import RegAlloc.Proofs.Sweep.Whole

/-!
# The lifetimes that the analysis finds

Every register that occurs has one lifetime. It is not empty, its uses are in order and
lie within it, and nothing has been split or placed yet: it is what a sweep can be given.

- `LinearOrder.analyze_eq_success_iff` — when an analysis succeeds, and what it returns;
- `LinearOrder.mem_livesOf` — the lifetimes are those of the registers that occur;
- `LinearOrder.used_root` — the uses of a lifetime lie within it;
- `LinearOrder.rooted_lives` — a sweep can be given them;
- `Analysed` — a graph with its order and its lifetimes.
-/

namespace RegAlloc

/-- A lifetime is found by its register. -/
theorem Lifetime.find?_register {lives : List Lifetime} (hsingle : (lives.map (·.register)).Nodup)
    {life : Lifetime} (hlife : life ∈ lives) : Lifetime.find? lives life.register = some life := by
  rw [Lifetime.find?]
  cases hfind : lives.find? (·.register == life.register) with
  | none => simpa using List.find?_eq_none.1 hfind life hlife
  | some found =>
    have hregister : found.register = life.register := by simpa using List.find?_some hfind
    rw [List.inj_on_of_nodup_map hsingle (List.mem_of_find?_eq_some hfind) hlife hregister]

namespace LinearOrder

variable {order : LinearOrder} {regClass : Option String} {liveness : Liveness}

/-- When an analysis succeeds, and what it returns. -/
theorem analyze_eq_success_iff (hregular : order.Regular) (hindexed : order.graph.Indexed)
    {messages : Messages Issue} : order.analyze regClass = .ok (.success liveness messages) ↔
      order.errorsOf (order.scans regClass) = [] ∧
      liveness = order.livenessOf (order.scans regClass) ∧
      messages =
        { warnings := if (order.unusedIssues regClass).isEmpty then none
            else some (order.unusedIssues regClass) } := by
  rw [analyze_eq hregular hindexed, analyzeEach, Except.ok.injEq]
  cases order.errorsOf (order.scans regClass) with
  | nil =>
    simp only [List.isEmpty_nil, Bool.not_true, Bool.false_eq_true, if_false, true_and]
    rw [Outcome.success.injEq, eq_comm, eq_comm (b := messages)]
  | cons issue issues =>
    simp [Outcome.fail]

/-! ## Registers that occur -/

/-- A register is mentioned exactly when an instruction that stands somewhere mentions it. -/
theorem mentions_iff (h : order.Regular) {r : VReg} : order.graph.mentions r = true ↔
    ∃ p i, order.Stands p i ∧ i.mentions r = true := by
  rw [Graph.mentions_iff]
  constructor
  · rintro ⟨b, i, hi, hr⟩
    obtain ⟨k, hk, rfl⟩ := List.mem_iff_getElem.1 hi
    obtain ⟨span, hspan, rfl⟩ := h.exists_span (Graph.lt_of_mem_instructions hi)
    exact ⟨_, _, ⟨span, hspan, k, List.getElem?_eq_getElem hk, rfl⟩, hr⟩
  · rintro ⟨p, i, ⟨span, -, k, hk, -⟩, hr⟩
    exact ⟨span.block, i, List.mem_of_getElem? hk, hr⟩

/-- A register that occurs is declared. -/
theorem declared_of_occurring (h : order.Regular) {r : VReg} (hr : r ∈ order.occurring regClass) :
    ∃ k : Nat, r = k ∧ k < order.graph.registers.length := by
  obtain ⟨b, i, hi, hmentions⟩ := Graph.mentions_iff.1 (mem_occurring.1 hr).2
  exact h.wellFormed.declared b i hi r hmentions

/-- An instruction that mentions a register uses it. -/
theorem exists_usedBy {r : VReg} {i : Instruction} (p : Position) (h : i.mentions r = true) :
    ∃ u, Track.UsedBy r p i u := by
  rw [Instruction.mentions, Bool.or_eq_true] at h
  rcases h with h | h
  · simp only [Instruction.reads, List.any_eq_true, beq_iff_eq] at h
    obtain ⟨use, huse, hr⟩ := h
    exact ⟨_, .inr ⟨use, huse, hr, rfl⟩⟩
  · simp only [Instruction.writes, List.any_eq_true, beq_iff_eq] at h
    obtain ⟨d, hd, hr⟩ := h
    exact ⟨_, .inl ⟨d, hd, hr, rfl⟩⟩

/-! ## Lifetimes -/

/-- The lifetimes are those of the registers that occur. -/
theorem mem_livesOf {life : Lifetime} (h : life ∈ livesOf (order.scans regClass)) :
    life.register ∈ order.occurring regClass ∧ life.children = [] ∧ ∃ id : Nat, life.root =
      { id
        register := life.register
        ranges := (order.scan life.register).track.ranges
        uses := (order.scan life.register).track.uses } := by
  simp only [livesOf, List.mem_map] at h
  obtain ⟨⟨⟨r, scan⟩, id⟩, hmem, rfl⟩ := h
  have hscan := List.fst_mem_of_mem_zipIdx hmem
  simp only [scans, List.mem_map, Prod.mk.injEq] at hscan
  obtain ⟨r', hr, rfl, rfl⟩ := hscan
  exact ⟨hr, rfl, id, rfl⟩

theorem registers_livesOf (order : LinearOrder) (regClass : Option String) :
    (livesOf (order.scans regClass)).map (·.register) = order.occurring regClass := by
  have hfst : (livesOf (order.scans regClass)).map (·.register) =
      ((order.scans regClass).zipIdx.map Prod.fst).map Prod.fst := by
    simp only [livesOf, List.map_map]
    rfl
  rw [hfst, List.zipIdx_map_fst, scans, List.map_map]
  exact List.map_id _

/-- The uses of a lifetime are in order and lie within it. -/
theorem used_root (h : order.Regular) {life : Lifetime}
    (hlife : life ∈ livesOf (order.scans regClass)) : life.root.Used := by
  obtain ⟨-, -, id, hroot⟩ := mem_livesOf hlife
  rw [hroot]
  refine ⟨sorted_scan .., fun u hu => ?_⟩
  obtain ⟨p, i, hi, hused⟩ := (mem_uses_scan ..).1 hu
  exact covers_of_usedBy h hi hused

/-- A sweep can be given the lifetimes that the analysis finds. -/
theorem rooted_lives (h : order.Regular) :
    Sweep.Rooted ((livesOf (order.scans regClass)).map (·.root)) := by
  constructor
  · intro i hi
    obtain ⟨life, hlife, rfl⟩ := List.mem_map.1 hi
    -- a register that occurs is used somewhere, so something is covered
    obtain ⟨hoccurs, -, id, hroot⟩ := mem_livesOf hlife
    obtain ⟨p, j, hj, hmentions⟩ := (mentions_iff h).1 (mem_occurring.1 hoccurs).2
    obtain ⟨u, hu⟩ := exists_usedBy p hmentions
    have hcovers := covers_of_usedBy h hj hu
    rw [hroot]
    refine ⟨ordered_scan h _, fun hnil => ?_⟩
    simp only at hnil
    simp [hnil, -Ranges.covers_iff] at hcovers
  · exact List.forall_mem_map.2 fun life hlife => used_root h hlife
  · rw [List.map_map]
    have hregisters := registers_livesOf order regClass
    have hnodup := nodup_occurring order regClass
    rw [← hregisters] at hnodup
    exact hnodup
  · intro i hi
    obtain ⟨life, hlife, rfl⟩ := List.mem_map.1 hi
    obtain ⟨-, -, id, hroot⟩ := mem_livesOf hlife
    rw [hroot]
  · intro i hi
    obtain ⟨life, hlife, rfl⟩ := List.mem_map.1 hi
    obtain ⟨-, -, id, hroot⟩ := mem_livesOf hlife
    rw [hroot]

end LinearOrder

/-- A graph that was built, put in order and analysed with success. -/
structure Analysed (g : Graph) (regClass : Option String) (order : LinearOrder)
    (liveness : Liveness) : Prop where
  built : g.Built
  ordered : ∃ messages, g.linearize = .ok (.success order messages)
  analysed : ∃ messages, order.analyze regClass = .ok (.success liveness messages)

namespace Analysed

variable {g : Graph} {regClass : Option String} {order : LinearOrder} {liveness : Liveness}

theorem regular (h : Analysed g regClass order liveness) : order.Regular :=
  LinearOrder.regular_of_linearize h.built.wellFormed h.ordered.choose_spec

theorem indexed (h : Analysed g regClass order liveness) : order.graph.Indexed :=
  LinearOrder.indexed_of_linearize h.built.indexed h.ordered.choose_spec

theorem errors_eq_nil (h : Analysed g regClass order liveness) :
    order.errorsOf (order.scans regClass) = [] :=
  ((LinearOrder.analyze_eq_success_iff h.regular h.indexed).1 h.analysed.choose_spec).1

theorem liveness_eq (h : Analysed g regClass order liveness) :
    liveness = order.livenessOf (order.scans regClass) :=
  ((LinearOrder.analyze_eq_success_iff h.regular h.indexed).1 h.analysed.choose_spec).2.1

theorem lives_eq (h : Analysed g regClass order liveness) :
    liveness.lives = LinearOrder.livesOf (order.scans regClass) := by
  rw [h.liveness_eq]
  rfl

theorem rooted (h : Analysed g regClass order liveness) :
    Sweep.Rooted (liveness.lives.map (·.root)) :=
  h.lives_eq ▸ LinearOrder.rooted_lives h.regular

end Analysed

end RegAlloc
