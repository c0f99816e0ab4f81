import RegAlloc.Proofs.Allocation.Arranged
import RegAlloc.Proofs.Sweep.Demand
import RegAlloc.Proofs.Sweep.Registers

/-!
# Pressure on the pool

Values go to memory exactly if somewhere more of them are alive than there are registers.
An interval that comes back from a hole may find its register promised to another one and is
cut then, but a cut leaves as many intervals that cover a position as there were. So where an
interval is taken, those that are active and the one in hand are no more than the values
alive there, and a register is free.

- `Liveness.pressure` — the number of values alive at a position;
- `countP_covers_le` — intervals of different registers, counted at a position;
- `Sweep.exists_free` — a register is free while the pressure is low;
- `Sweep.slotCount_of_reaches` — then no slot is ever used;
- `Sweep.countP_roots_le` — without slots, values alive together are in different registers;
- `memory_iff_pressure` — both directions for a sweep.
-/

namespace RegAlloc

/-- The number of values that are alive at a position. -/
def Liveness.pressure (liveness : Liveness) (p : Position) : Nat :=
  liveness.lives.countP (·.root.covers p)

theorem Liveness.countP_roots (liveness : Liveness) (p : Position) :
    (liveness.lives.map (·.root)).countP (·.covers p) = liveness.pressure p :=
  List.countP_map

/-- If every interval of one list that covers a position has one of the same register in
another, then there are at least as many there, as long as no register occurs twice in the
first. -/
theorem countP_covers_le {l l' : List Interval} {p : Position}
    (hnodup : (l.map (·.register)).Nodup)
    (hmatch : ∀ i ∈ l, i.covers p = true →
      ∃ j ∈ l', j.register = i.register ∧ j.covers p = true) :
    l.countP (·.covers p) ≤ l'.countP (·.covers p) := by
  have hsub : (l.filter (·.covers p)).map (·.register) ⊆
      (l'.filter (·.covers p)).map (·.register) := by
    refine List.forall_mem_map.2 fun i hi => ?_
    obtain ⟨hi, hcovers⟩ := List.mem_filter.1 hi
    obtain ⟨j, hj, hregister, hjcovers⟩ := hmatch i hi hcovers
    exact List.mem_map.2 ⟨j, List.mem_filter.2 ⟨hj, hjcovers⟩, hregister⟩
  have hle := (hnodup.sublist (List.filter_sublist.map _)).length_le_of_subset hsub
  rw [List.length_map, List.length_map] at hle
  rw [List.countP_eq_length_filter, List.countP_eq_length_filter]
  exact hle

namespace Sweep

variable {setup : Setup} {roots : List Interval} {s : Sweep} {current : Interval}

/-! ## Low pressure -/

/-- Where an interval is taken, a register is free unless more values than there are
registers are alive. -/
theorem exists_free (hpool : setup.pool.Nodup)
    (hfew : ∀ p, roots.countP (·.covers p) ≤ setup.pool.length)
    (h : Sound setup roots ⟨current.start, [current], none, s⟩)
    (hactive : ∀ i ∈ s.active, i.covers current.start = true) :
    ∃ name ∈ setup.pool, s.isFree name = true := by
  by_contra hnone
  have htaken : ∀ name ∈ setup.pool, s.isFree name = false := by
    intro name hname
    rw [Bool.eq_false_iff]
    exact fun hfree => hnone ⟨name, hname, hfree⟩
  have hmem : ∀ i ∈ current :: s.active, i ∈ [current] ++ s.pending := fun i hi =>
    (active_sublist s current).subset hi
  have hcovers : ∀ i ∈ current :: s.active, i.covers current.start = true :=
    List.forall_mem_cons.2 ⟨Interval.covers_start (h.shaped (by simp)), hactive⟩
  -- everybody who holds a register is of another root that covers the position
  have hcrowd : (current :: s.active).countP (·.covers current.start) ≤
      roots.countP (·.covers current.start) := by
    refine countP_covers_le (nodup_registers h) fun i hi hcov => ?_
    exact (h.tiling.covers i.register current.start).1
      ⟨i, List.mem_append_right _ (hmem i hi), rfl, hcov⟩
  rw [List.countP_eq_length.2 hcovers, List.length_cons] at hcrowd
  have hlow := hfew current.start
  have hlength := length_pool_le hpool htaken
  omega

/-- Taking a register uses no slot. -/
theorem slotCount_assign (s : Sweep) (current : Interval) (name : String) (p : Position) :
    Ensures (s.assign current name p) (·.slotCount = s.slotCount) fun _ => True := by
  rw [assign]
  refine Ensures.bind (P := fun s' : Sweep => s'.slotCount = s.slotCount) ?_ fun s' h => h
  refine Ensures.foldlM (fun _ (s' : Sweep) => s'.slotCount = s.slotCount)
    (fun rival rest s' h => ?_) rfl
  rw [displace]
  cases rival.nextRangeStart? p with
  | none => trivial
  | some resume =>
    refine Ensures.bind (P := fun _ => True) ?_ fun _ _ => h
    cases rival.split resume s'.nextId <;> trivial

/-- While the pressure is low, a step takes a register that is free, and uses no slot. -/
theorem slotCount_step {s' : Sweep} (hpool : setup.pool.Nodup)
    (hfew : ∀ p, roots.countP (·.covers p) ≤ setup.pool.length)
    (h : Sound setup roots ⟨current.start, [current], none, s⟩)
    (hstep : step setup s current = .ok s') : s'.slotCount = s.slotCount := by
  obtain ⟨free, hmem, hfree⟩ :=
    exists_free hpool hfew h.advance fun i hi => mem_active_advanced hi
  rw [step_eq h] at hstep
  cases hchoose : (s.ready setup current.start).choose current
      (setup.pool.filter (s.ready setup current.start).isFree) with
  | none =>
    have hnil := List.filter_eq_nil_iff.1 (choose_eq_none.1 hchoose) free hmem
    exact absurd hfree hnil
  | some name =>
    rw [hchoose] at hstep
    exact (slotCount_assign (s.ready setup current.start) current name _).of_eq_ok hstep

variable {order : LinearOrder} {pool : List String}

/-- While the pressure is low, no state that a run comes through has used a slot. -/
theorem slotCount_of_reaches (hrooted : Rooted roots) (hpool : pool.Nodup)
    (hfew : ∀ p, roots.countP (·.covers p) ≤ pool.length)
    (hreach : Reaches (setupOf order roots pool) (opening roots) s) : s.slotCount = 0 := by
  obtain ⟨p, hopening⟩ := sound_opening (setupOf order roots pool) hrooted
  induction hreach with
  | refl => rfl
  | tail hreach hnext ih =>
    obtain ⟨p', hsound⟩ := sound_of_reaches hopening hreach
    obtain ⟨current, rest, hline, hstep⟩ := hnext
    exact (slotCount_step hpool hfew (hsound.take hline) hstep).trans ih

/-- While the pressure is low, no step is stuck. -/
theorem not_getsStuck (hrooted : Rooted roots) (hpool : pool.Nodup)
    (hfew : ∀ p, roots.countP (·.covers p) ≤ pool.length) :
    ¬ GetsStuck (setupOf order roots pool) (opening roots) := by
  rintro ⟨s, current, rest, hreach, hline, htaken, -⟩
  obtain ⟨p, hopening⟩ := sound_opening (setupOf order roots pool) hrooted
  obtain ⟨p', hsound⟩ := sound_of_reaches hopening hreach
  obtain ⟨name, hname, hfree⟩ := exists_free hpool hfew (hsound.take hline).advance
    fun i hi => mem_active_advanced hi
  rw [htaken name hname] at hfree
  cases hfree

/-! ## No slots -/

/-- A sweep that has used no slot leaves every piece in a register. -/
theorem register_of_placed (hrooted : Rooted roots)
    (hreach : Reaches (setupOf order roots pool) (opening roots) s) (hslots : s.slotCount = 0) :
    ∀ i ∈ s.placed, ∃ name ∈ pool, i.location = some (.register name) := by
  intro i hi
  obtain ⟨l, hl, hserved⟩ := served_placed hrooted hreach i hi
  cases l with
  | register name => exact ⟨name, hserved, hl⟩
  | slot slot =>
    obtain ⟨n, -, hlt⟩ := counted_placed hrooted hreach i hi slot hl
    omega

/-- Pieces in registers that cover a common position are no more than there are registers. -/
theorem countP_placed_le (hrooted : Rooted roots)
    (hreach : Reaches (setupOf order roots pool) (opening roots) s) (hslots : s.slotCount = 0)
    (p : Position) : s.placed.countP (·.covers p) ≤ pool.length := by
  have hregister := register_of_placed hrooted hreach hslots
  -- two pieces that cover `p` are in different registers
  have hnodup : ((s.placed.filter (·.covers p)).map (·.location)).Nodup := by
    refine List.pairwise_map.2 (((apart_placed hrooted hreach).filter _).imp_of_mem ?_)
    intro i j hi hj hapart hsame
    obtain ⟨hi, hicovers⟩ := List.mem_filter.1 hi
    obtain ⟨hj, hjcovers⟩ := List.mem_filter.1 hj
    obtain ⟨name, -, hl⟩ := hregister i hi
    rw [hapart name p hl (hsame ▸ hl) hicovers] at hjcovers
    cases hjcovers
  have hsub : (s.placed.filter (·.covers p)).map (·.location) ⊆
      pool.map fun name => some (Location.register name) := by
    refine List.forall_mem_map.2 fun i hi => ?_
    obtain ⟨name, hname, hl⟩ := hregister i (List.mem_filter.1 hi).1
    exact List.mem_map.2 ⟨name, hname, hl.symm⟩
  have hle := hnodup.length_le_of_subset hsub
  rw [List.length_map, List.length_map] at hle
  rw [List.countP_eq_length_filter]
  exact hle

/-- So are the values that are alive there. -/
theorem countP_roots_le (hrooted : Rooted roots)
    (hreach : Reaches (setupOf order roots pool) (opening roots) s) (hempty : s.waiting = [])
    (hslots : s.slotCount = 0) (p : Position) : roots.countP (·.covers p) ≤ pool.length := by
  have htiling := tiling_of_reaches hrooted hreach hempty
  calc roots.countP (·.covers p)
      ≤ s.placed.countP (·.covers p) := countP_covers_le hrooted.single fun root hroot hcovers => by
        obtain ⟨i, hi, hregister, hicovers⟩ :=
          (htiling.covers root.register p).2 ⟨root, hroot, rfl, hcovers⟩
        exact ⟨i, s.placed_perm.mem_iff.1 hi, hregister, hicovers⟩
    _ ≤ pool.length := countP_placed_le hrooted hreach hslots p

end Sweep

/-- If nowhere more values are alive than there are registers, a sweep returns, uses no slot
and leaves every piece in a register. Whenever it returns without a slot, nowhere more values
are alive than there are registers. -/
theorem memory_iff_pressure {g : Graph} {regClass : Option String} {order : LinearOrder}
    {liveness : Liveness} (h : Analysed g regClass order liveness) {pool : List String}
    (hpool : pool.Nodup) :
    ((∀ p, liveness.pressure p ≤ pool.length) →
      ∃ swept, sweep order liveness.lives pool = .ok swept ∧ swept.slotCount = 0 ∧
        ∀ i ∈ swept.intervals, ∃ name ∈ pool, i.location = some (.register name)) ∧
    ∀ swept, sweep order liveness.lives pool = .ok swept → swept.slotCount = 0 →
      ∀ p, liveness.pressure p ≤ pool.length := by
  have hrooted := h.rooted
  constructor
  · intro hlow
    have hfew : ∀ p, (liveness.lives.map (·.root)).countP (·.covers p) ≤ pool.length := fun p =>
      (liveness.countP_roots p).symm ▸ hlow p
    obtain ⟨swept, hswept⟩ :=
      (Sweep.returns_iff hrooted).2 (Sweep.not_getsStuck hrooted hpool hfew)
    obtain ⟨s, hreach, -, rfl⟩ := (Sweep.sweep_ensures hrooted).of_eq_ok hswept
    have hslots := Sweep.slotCount_of_reaches hrooted hpool hfew hreach
    exact ⟨_, hswept, hslots, Sweep.register_of_placed hrooted hreach hslots⟩
  · intro swept hswept hslots p
    obtain ⟨s, hreach, hempty, rfl⟩ := (Sweep.sweep_ensures hrooted).of_eq_ok hswept
    rw [← liveness.countP_roots]
    exact Sweep.countP_roots_le hrooted hreach hempty hslots p

/-- Three values, never more than two of them alive. The first comes back from a hole when
its register has gone to the third. -/
def relay : Graph := Graph.run {} [
  .createRegister {}, .createRegister {}, .createRegister {}, .addBlock,
  .addInstruction (0 : Nat) { opcode := "a", defs := [{ register := (0 : Nat) }] },
  .addInstruction (0 : Nat) { opcode := "b", defs := [{ register := (1 : Nat) }] },
  .addInstruction (0 : Nat) { opcode := "c", uses := [{ register := (0 : Nat) }] },
  .addInstruction (0 : Nat) { opcode := "d", defs := [{ register := (2 : Nat) }] },
  .addInstruction (0 : Nat) { opcode := "e", uses := [{ register := (1 : Nat) }] },
  .addInstruction (0 : Nat) { opcode := "f", defs := [{ register := (0 : Nat) }] },
  .addInstruction (0 : Nat) { opcode := "g", uses := [{ register := (0 : Nat) },
    { register := (2 : Nat) }] }]

/-- The pieces of the first value are in different registers, and no value goes to memory. -/
theorem memory_iff_pressure_relay : ∃ order liveness,
    Analysed relay none order liveness ∧ ["r0", "r1"].Nodup ∧
      (∀ p, liveness.pressure p ≤ ["r0", "r1"].length) ∧
      ∃ swept, sweep order liveness.lives ["r0", "r1"] = .ok swept ∧ swept.slotCount = 0 ∧
        ∀ i ∈ swept.intervals, ∃ name ∈ ["r0", "r1"], i.location = some (.register name) := by
  obtain ⟨order, liveness, h, hranges⟩ : ∃ order liveness, Analysed relay none order liveness ∧
      liveness.lives.map (·.root.ranges) = [[⟨1, 5⟩, ⟨11, 13⟩], [⟨3, 9⟩], [⟨7, 13⟩]] :=
    ⟨_, _, ⟨⟨_, rfl⟩, ⟨_, rfl⟩, ⟨_, rfl⟩⟩, rfl⟩
  have hlow : ∀ p, liveness.pressure p ≤ 2 := by
    intro p
    have hcount : liveness.pressure p =
        (liveness.lives.map (·.root.ranges)).countP (Ranges.covers · p) := by
      rw [List.countP_map]
      rfl
    rw [hcount, hranges]
    simp only [List.countP_cons, List.countP_nil, Ranges.covers_cons, Ranges.covers_nil,
      Bool.or_false, Bool.or_eq_true, Range.covers_iff]
    lia
  exact ⟨order, liveness, h, by decide, hlow, (memory_iff_pressure h (by decide)).1 hlow⟩

end RegAlloc
