import RegAlloc.Proofs.Allocation.Arranged

/-!
# A sweep serves every operand

A sweep divides lives into pieces and gives each of them a place. No position of a life is
lost or held twice, and every operand finds its register where its policy asks for it.

- `Arranged.locate?_of_used` — an operand is found in a place that suits it;
- `Arranged.countP_pieces`, `Arranged.mem_piecesOf` — the pieces of a register divide its life;
- `sweep_serves_operands` — what a sweep returns, as a whole.
-/

namespace RegAlloc

variable {a : Allocation} {regClass : Option String}

namespace Allocation.Arranged

/-- An operand is found, and in a register of the pool if it needs one. -/
theorem locate?_of_used (h : a.Arranged regClass) {p : Position} {instruction : Instruction}
    (hstands : a.order.Stands p instruction) {r : VReg}
    (hclass : a.order.graph.inClass regClass r = true) {u : UsePoint}
    (hused : Track.UsedBy r p instruction u) :
    ∃ l, a.locate? r u.position = some l ∧
      (u.policy = .register → ∃ name ∈ a.registers, l = .register name) := by
  obtain ⟨life, hlife, rfl, i, hi, hu, hcovers⟩ := h.exists_used hstands hclass hused
  obtain ⟨l, hl, hlocate⟩ := h.locate?_of_covers hlife hi hcovers
  obtain ⟨l', hl', hsuits⟩ := h.served i (h.mem_of_piece hlife hi)
  cases hl.symm.trans hl'
  refine ⟨l, hlocate, fun hpolicy => ?_⟩
  cases l with
  | register name => exact ⟨name, hsuits, rfl⟩
  | slot n => exact absurd hpolicy (hsuits u hu)

/-- The pieces of a register that cover a position are one or none. -/
theorem countP_pieces (h : a.Arranged regClass) {r : VReg} (hr : r ∈ a.order.occurring regClass)
    (p : Position) : (a.piecesOf r).countP (·.covers p) =
      if Ranges.covers (a.order.scan r).track.ranges p then 1 else 0 := by
  obtain ⟨life, hlife, rfl⟩ := (h.occurs r).1 hr
  rw [piecesOf, h.life?_register hlife, Option.map_some, Option.getD_some,
    (h.laid life hlife).countP_covers]
  congr 1
  rw [List.any_eq_true, h.covers life hlife]

/-- Every piece is listed with its register. -/
theorem mem_piecesOf (h : a.Arranged regClass) {i : Interval} :
    i ∈ a.intervals ↔ i ∈ a.piecesOf i.register := by
  rw [h.mem_intervals]
  constructor
  · rintro ⟨life, hlife, hi⟩
    rwa [(h.laid life hlife).register i hi, piecesOf, h.life?_register hlife]
  · intro hi
    rw [piecesOf] at hi
    cases hlife : a.liveness.life? i.register with
    | none => simp [hlife] at hi
    | some life => exact ⟨life, List.mem_of_find?_eq_some hlife, by simpa [hlife] using hi⟩

end Allocation.Arranged

/-- A sweep that returns serves every operand and loses nothing: all pieces have a place, they
divide the lives between them, every operand is found where its policy allows, and pieces are
numbered in order. -/
theorem sweep_serves_operands {g : Graph} {order : LinearOrder} {liveness : Liveness}
    (hall : Analysed g regClass order liveness) {pool : List String}
    (h : (Allocation.start order liveness pool).sweep = .ok a) :
    (∀ i ∈ a.intervals, ∃ l, i.location = some l) ∧
    (∀ i, i ∈ a.intervals ↔ i ∈ a.piecesOf i.register) ∧
    (∀ life ∈ liveness.lives, ∀ p, (a.piecesOf life.register).countP (·.covers p) =
      if life.root.covers p then 1 else 0) ∧
    (∀ p instruction, order.Stands p instruction →
      (∀ use ∈ instruction.uses, order.graph.inClass regClass use.register = true →
        ∃ l, a.locate? use.register p = some l ∧
          (use.policy = .register → ∃ name ∈ pool, l = .register name)) ∧
      ∀ d ∈ instruction.defs, order.graph.inClass regClass d.register = true →
        ∃ l, a.locate? d.register (p + 1) = some l ∧
          (d.policy = .register → ∃ name ∈ pool, l = .register name)) ∧
    a.intervals.map (·.id) = (List.range a.intervals.length).map Int.ofNat := by
  have harranged := hall.arranged h
  rw [Allocation.sweep, bind_eq_ok] at h
  obtain ⟨swept, -, ⟨⟩⟩ := h
  refine ⟨fun i hi => harranged.exists_location hi, fun i => harranged.mem_piecesOf,
    fun life hlife p => ?_, fun p instruction hstands => ⟨fun use huse hclass => ?_,
      fun d hd hclass => ?_⟩, harranged.numbered⟩
  · rw [hall.lives_eq] at hlife
    obtain ⟨hoccurs, -, id, hroot⟩ := LinearOrder.mem_livesOf hlife
    rw [harranged.countP_pieces hoccurs, hroot]
    rfl
  · exact harranged.locate?_of_used hstands hclass (.inr ⟨use, huse, rfl, rfl⟩)
  · exact harranged.locate?_of_used hstands hclass (.inl ⟨d, hd, rfl, rfl⟩)

/-- A loop over two values that are rewritten, with one register for both. -/
def evicted : Graph := Graph.run {} [
  .createRegister {}, .createRegister {}, .createRegister { regClass := some "float" },
  .addBlock, .addBlock,
  .addInstruction (0 : Nat)
    { opcode := "a", defs := [{ register := (0 : Nat) }, { register := (2 : Nat) }] },
  .addInstruction (0 : Nat) { opcode := "b", defs := [{ register := (1 : Nat) }] },
  .addInstruction (1 : Nat)
    { opcode := "c"
      uses := [{ register := (1 : Nat) }, { register := (0 : Nat), policy := .any }]
      defs := [{ register := (1 : Nat) }] },
  .addInstruction (1 : Nat) { opcode := "d", uses := [{ register := (2 : Nat) }] },
  .addInstruction (1 : Nat)
    { opcode := "e"
      uses := [{ register := (0 : Nat) }]
      defs := [{ register := (0 : Nat), policy := .any }] },
  .addEdge (0 : Nat) (1 : Nat), .addEdge (1 : Nat) (1 : Nat)]

theorem sweep_serves_operands_evicted : ∃ order liveness a,
    Analysed evicted (some "general") order liveness ∧
      (Allocation.start order liveness ["r0"]).sweep = .ok a ∧ a.slotCount = 2 ∧
      (∀ life ∈ liveness.lives, ∀ p, (a.piecesOf life.register).countP (·.covers p) =
        if life.root.covers p then 1 else 0) ∧
      ∀ p instruction, order.Stands p instruction →
        (∀ use ∈ instruction.uses, order.graph.inClass (some "general") use.register = true →
          ∃ l, a.locate? use.register p = some l ∧
            (use.policy = .register → ∃ name ∈ ["r0"], l = .register name)) ∧
        ∀ d ∈ instruction.defs, order.graph.inClass (some "general") d.register = true →
          ∃ l, a.locate? d.register (p + 1) = some l ∧
            (d.policy = .register → ∃ name ∈ ["r0"], l = .register name) := by
  have hswept : ∃ order liveness a, Analysed evicted (some "general") order liveness ∧
      (Allocation.start order liveness ["r0"]).sweep = .ok a ∧ a.slotCount = 2 :=
    ⟨_, _, _, ⟨⟨_, rfl⟩, ⟨_, rfl⟩, ⟨_, rfl⟩⟩, rfl, rfl⟩
  obtain ⟨order, liveness, a, hall, h, hcount⟩ := hswept
  obtain ⟨-, -, hpieces, hoperands, -⟩ := sweep_serves_operands hall h
  exact ⟨order, liveness, a, hall, h, hcount, hpieces, hoperands⟩

end RegAlloc
