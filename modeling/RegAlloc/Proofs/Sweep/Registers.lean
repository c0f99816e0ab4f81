import RegAlloc.Proofs.Liveness.Lifetimes

/-!
# Registers are exclusive

At no position are two pieces in the same register, and while a sweep runs its
bookkeeping is never found to be wrong.

- `Sweep.apart_placed` — in every state that a run comes through, the placed pieces do
  not share a register;
- `registers_exclusive` — the same for the result of a sweep, with the reasons for which
  it may fail.
-/

namespace RegAlloc

namespace Sweep

variable {setup : Setup} {roots : List Interval}

/-- The pieces that a run has placed do not share a register. -/
theorem apart_placed (h : Rooted roots) {s : Sweep} (hreach : Reaches setup (opening roots) s) :
    s.placed.Pairwise Interval.Apart := by
  obtain ⟨p, hopening⟩ := sound_opening setup h
  obtain ⟨p', hsound⟩ := sound_of_reaches hopening hreach
  have hsub : (s.done ++ (s.active ++ s.inactive)).Sublist (s.done ++ s.pending) :=
    (List.sublist_append_right ..).append_left _
  exact s.placed_perm.pairwise (hsound.holding.apart.sublist hsub) Interval.Apart.symm

end Sweep

/-- No two pieces of a sweep are in the same register at a common position. A sweep that
fails does so for want of a register or of room to split, and never because an interval
holds no register, finds its register taken, or does not resume. -/
theorem registers_exclusive {g : Graph} {regClass : Option String} {order : LinearOrder}
    {liveness : Liveness} (h : Analysed g regClass order liveness) (pool : List String) :
    (∀ swept, sweep order liveness.lives pool = .ok swept →
      swept.intervals.Pairwise fun i j => ∀ name p, i.location = some (.register name) →
        j.location = some (.register name) → i.covers p = true → j.covers p = false) ∧
    ∀ v, sweep order liveness.lives pool = .error v →
      (∀ i, v ≠ .notInRegister i) ∧ (∀ i p name, v ≠ .registerTaken i p name) ∧
        (∀ i, v ≠ .neverResumes i) ∧ v ≠ .sweepUnfinished := by
  have hsweep : Ensures (sweep order liveness.lives pool) _ _ := Sweep.sweep_ensures h.rooted
  constructor
  · intro swept hswept
    obtain ⟨s, hreach, -, rfl⟩ := hsweep.of_eq_ok hswept
    exact Sweep.apart_placed h.rooted hreach
  · intro v hv
    have hblocked := hsweep.of_eq_error hv
    refine ⟨?_, ?_, ?_, ?_⟩ <;> intros <;> rintro rfl <;> exact hblocked

/-- Two values that are alive together. -/
def twoValues : Graph := Graph.run {} [
  .createRegister {}, .createRegister {}, .addBlock,
  .addInstruction (0 : Nat) { opcode := "a", defs := [{ register := (0 : Nat) }] },
  .addInstruction (0 : Nat) { opcode := "b", defs := [{ register := (1 : Nat) }] },
  .addInstruction (0 : Nat) { opcode := "c", uses := [{ register := (1 : Nat) }] },
  .addInstruction (0 : Nat) { opcode := "d" },
  .addInstruction (0 : Nat) { opcode := "e", uses := [{ register := (0 : Nat) }] }]

theorem registers_exclusive_twoValues : ∃ order liveness swept,
    Analysed twoValues none order liveness ∧ sweep order liveness.lives ["r0"] = .ok swept ∧
      swept.intervals.Pairwise fun i j => ∀ name p, i.location = some (.register name) →
        j.location = some (.register name) → i.covers p = true → j.covers p = false := by
  have h : Analysed twoValues none _ _ := ⟨⟨_, rfl⟩, ⟨_, rfl⟩, ⟨_, rfl⟩⟩
  exact ⟨_, _, _, h, rfl, (registers_exclusive h ["r0"]).1 _ rfl⟩

end RegAlloc
