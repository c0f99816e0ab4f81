import RegAlloc.Proofs.Allocation.Arranged

/-!
# One home for every value

A value that goes to memory gets a home slot, and gives it up only when it has died. Until
then it goes to the same slot every time, and afterwards it never goes to memory again: a
piece that is stored is alive at the position that the sweep has reached. Since a new home
is the lowest slot that is free, no slot is left out.

- `Midway.InSlot` — a value has been sent to a slot;
- `Homed` — the invariant: one slot for each value, its home as long as the value is alive,
  and every slot that is counted is used;
- `Homed.stored`, `Homed.act`, `Homed.ready` — storing a piece, every act and moving on
  keep it;
- `home_slots_exact` — the slots of the pieces that a sweep leaves.
-/

namespace RegAlloc

/-- Two intervals that are in one slot, if both are in slots. -/
def Interval.SameSlot (i j : Interval) : Prop :=
  ∀ a b, i.location = some (.slot a) → j.location = some (.slot b) → a = b

namespace Sweep

variable {setup : Setup} {roots : List Interval} {m m' : Midway}

/-- Slots below the lowest free one are homes. -/
theorem mem_of_lt_lowestFreeSlot {homes : List (VReg × Nat)} {n : Nat}
    (h : n < lowestFreeSlot homes) : n ∈ homes.map (·.2) := by
  rw [lowestFreeSlot] at h
  cases hfind : (List.range homes.length).find? fun slot => slot ∉ homes.map (·.2) with
  | none =>
    rw [hfind] at h
    simpa using List.find?_eq_none.1 hfind n (List.mem_range.2 h)
  | some slot =>
    rw [hfind] at h
    have hbefore := (List.find?_range_eq_some.1 hfind).2.2 n h
    simpa using hbefore

/-- Finding a home keeps the others, gives no value a second one and leaves out no slot. -/
theorem homeSlot_single {s s' : Sweep} {r : VReg} {slot : Nat} (h : s.homeSlot r = (s', slot))
    (hsingle : (s.homes.map (·.1)).Nodup) (hhomes : ∀ home ∈ s.homes, home.2 < s.slotCount) :
    (r, slot) ∈ s'.homes ∧ s.homes ⊆ s'.homes ∧ (s'.homes.map (·.1)).Nodup ∧
      ∀ n < s'.slotCount, n < s.slotCount ∨ n = slot := by
  have hmem := (homeSlot_cases h).1
  rw [homeSlot] at h
  split at h
  -- the register has a home already
  · cases h
    exact ⟨hmem, List.Subset.refl _, hsingle, fun n hn => .inl hn⟩
  · next hnone =>
    cases h
    refine ⟨hmem, List.subset_append_left .., ?_, fun n hn => ?_⟩
    · rw [List.map_append]
      refine List.nodup_append.2 ⟨hsingle, by simp, fun x hx y hy heq => ?_⟩
      cases List.mem_singleton.1 hy
      obtain ⟨home, hhome, rfl⟩ := List.mem_map.1 hx
      simpa [heq] using List.lookup_eq_none_iff.1 hnone home hhome
    · -- if the lowest free slot were beyond the count, the count would be a home
      by_contra hbeyond
      have hlow : s.slotCount < lowestFreeSlot s.homes := by
        have hn : n < max s.slotCount (lowestFreeSlot s.homes + 1) := hn
        omega
      obtain ⟨home, hhome, heq⟩ := List.mem_map.1 (mem_of_lt_lowestFreeSlot hlow)
      exact absurd (hhomes home hhome) (by omega)

/-- An interval that holds a register is in no slot. -/
theorem Sound.location_ne_slot (h : Sound setup roots m) {i : Interval}
    (hi : i ∈ m.sweep.active ++ m.sweep.inactive) (slot : Int) :
    i.location ≠ some (.slot slot) := by
  obtain ⟨-, name, -, hreg⟩ := h.begun i hi
  simp [hreg]

/-- A finished piece, or one in hand, of a register is in a slot. -/
def Midway.InSlot (m : Midway) (r : VReg) (slot : Int) : Prop :=
  ∃ i ∈ m.sweep.done ++ m.hand, i.register = r ∧ i.location = some (.slot slot)

/-- Every value has one slot, its home as long as it is alive, and no slot is left out. -/
structure Homed (setup : Setup) (m : Midway) : Prop where
  counted : Counted m
  single : (m.sweep.homes.map (·.1)).Nodup
  alive : ∀ r slot, m.InSlot r slot → m.position < lifeEnd setup r →
    ∃ n : Nat, slot = n ∧ (r, n) ∈ m.sweep.homes
  same : ∀ r a b, m.InSlot r a → m.InSlot r b → a = b
  used : ∀ n < m.sweep.slotCount, ∃ r, m.InSlot r n

namespace Homed

/-- A change that sends no value to a slot. -/
theorem of_inSlot_iff (h : Homed setup m) (hcounted : Counted m')
    (hhomes : m'.sweep.homes = m.sweep.homes) (hcount : m'.sweep.slotCount = m.sweep.slotCount)
    (hposition : m'.position = m.position)
    (hsame : ∀ r slot, m'.InSlot r slot ↔ m.InSlot r slot) : Homed setup m' := by
  refine ⟨hcounted, hhomes ▸ h.single, fun r slot hslot hlt => ?_, fun r a b ha hb => ?_,
    fun n hn => ?_⟩
  · rw [hposition] at hlt
    rw [hhomes]
    exact h.alive r slot ((hsame r slot).1 hslot) hlt
  · exact h.same r a b ((hsame r a).1 ha) ((hsame r b).1 hb)
  · obtain ⟨r, hr⟩ := h.used n (hcount ▸ hn)
    exact ⟨r, (hsame r n).2 hr⟩

/-- Sending a value that is alive to its home. -/
theorem stored (h : Homed setup m) (hcounted : Counted m') {s : Sweep} {r : VReg} {slot : Nat}
    (hhomes : s.homes = m.sweep.homes) (hcount : s.slotCount = m.sweep.slotCount)
    (hhome : s.homeSlot r = (m'.sweep, slot)) (halive : m.position < lifeEnd setup r)
    (hposition : m'.position = m.position)
    (hinSlot : ∀ x a, m'.InSlot x a ↔ m.InSlot x a ∨ (r = x ∧ slot = a)) : Homed setup m' := by
  obtain ⟨hmem, hsub, hsingle, hused⟩ := homeSlot_single hhome (hhomes ▸ h.single)
    (hhomes ▸ hcount ▸ h.counted.homes)
  rw [hhomes] at hsub
  -- whatever was stored of it before is at home
  have hhere : ∀ a, m.InSlot r a → a = slot := by
    intro a ha
    obtain ⟨n, rfl, hn⟩ := h.alive r a ha halive
    have hpair := List.inj_on_of_nodup_map hsingle (hsub hn) hmem rfl
    exact congrArg Nat.cast (congrArg Prod.snd hpair)
  refine ⟨hcounted, hsingle, fun x a hx hlt => ?_, fun x a b ha hb => ?_, fun n hn => ?_⟩
  · rcases (hinSlot x a).1 hx with hx | ⟨rfl, rfl⟩
    · obtain ⟨n, rfl, hn⟩ := h.alive x a hx (hposition ▸ hlt)
      exact ⟨n, rfl, hsub hn⟩
    · exact ⟨slot, rfl, hmem⟩
  · rcases (hinSlot x a).1 ha with ha | ⟨rfl, rfl⟩
    · rcases (hinSlot x b).1 hb with hb | ⟨rfl, rfl⟩
      · exact h.same x a b ha hb
      · exact hhere a ha
    · rcases (hinSlot r b).1 hb with hb | ⟨-, rfl⟩
      · exact (hhere b hb).symm
      · rfl
  · rcases hused n hn with hn | rfl
    · obtain ⟨x, hx⟩ := h.used n (hcount ▸ hn)
      exact ⟨x, (hinSlot x n).2 (.inl hx)⟩
    · exact ⟨r, (hinSlot r n).2 (.inr ⟨rfl, rfl⟩)⟩

variable {order : LinearOrder} {pool : List String}

/-- Every act leaves every value with one slot. -/
theorem act (hrooted : Rooted roots) (hsound : Sound (setupOf order roots pool) roots m)
    (h : Homed (setupOf order roots pool) m) (hact : Act (setupOf order roots pool) m m') :
    Homed (setupOf order roots pool) m' := by
  have hcounted := h.counted.act hsound hact
  -- a piece that reaches beyond the position is of a value that is alive
  have halive : ∀ i ∈ m.hand, i.covers m.position = true →
      m.position < lifeEnd (setupOf order roots pool) i.register := by
    intro i hi hcovers
    have hshaped := hsound.shaped (List.mem_append_left _ hi)
    have hlt := Interval.lt_stop hshaped hcovers
    have hle : i.stop ≤ lifeEnd (setupOf order roots pool) i.register :=
      stop_le_lifeEnd hrooted hsound.tiling (by simp [hi])
    lia
  cases hact with
  -- nobody is picked up from a slot
  | @pick p hand picked promised s active inactive _ _ hperm =>
    refine h.of_inSlot_iff hcounted rfl rfl rfl fun r slot => ?_
    have hnone : ¬ ∃ i ∈ picked, i.register = r ∧ i.location = some (.slot slot) :=
      fun ⟨i, hi, _, hloc⟩ => hsound.location_ne_slot (hperm.mem_iff.2 (by simp [hi])) slot hloc
    simp [Midway.InSlot, or_and_right, exists_or, hnone]
  | @displace p q rival hand promised s _ _ _ _ hplaced =>
    obtain ⟨name, -, hreg⟩ := hplaced
    refine h.of_inSlot_iff hcounted rfl rfl rfl fun r slot => ?_
    simp [Midway.InSlot, finishFront, Sweep.enqueue, or_and_right, exists_or, hreg]
  | @store p current s s' slot hstart hunplaced hhome =>
    -- whatever goes to memory is alive at the position
    have hcovers := Interval.covers_start (hsound.shaped (i := current) (by simp))
    refine h.stored hcounted rfl rfl hhome (halive current (by simp) (hstart ▸ hcovers)) rfl
      fun x a => ?_
    rw [homeSlot_frame hhome]
    simp [Midway.InSlot, or_and_right, exists_or, hunplaced]
  | @leaveWhole p i current name s s' slot hcurrent hreg hcovers _ _ hhome =>
    refine h.stored hcounted rfl rfl hhome (halive i (by simp) hcovers) rfl fun x a => ?_
    rw [homeSlot_frame hhome]
    simp [Midway.InSlot, or_and_right, exists_or, hreg, or_comm, or_left_comm]
  | @leave p q i current name s s' slot _ hreg hcovers _ _ _ _ _ hhome =>
    refine h.stored hcounted (s := s.finishFront i q) rfl rfl hhome (halive i (by simp) hcovers)
      rfl fun x a => ?_
    rw [homeSlot_frame hhome]
    simp [Midway.InSlot, finishFront, or_and_right, exists_or, hreg, or_comm, or_left_comm]
  | @finish p i hand promised s slot _ =>
    -- the same pieces are in slots as before
    refine h.of_inSlot_iff hcounted rfl rfl rfl fun r slot => ?_
    simp [Midway.InSlot]
  | @reload p q limit use i hand promised s slot _ _ _ _ _ _ _ _ =>
    refine h.of_inSlot_iff hcounted rfl rfl rfl fun r slot => ?_
    simp [Midway.InSlot, finishFront, Sweep.enqueue, or_and_right, exists_or]
  | @settle p current name promised s _ hunplaced =>
    refine h.of_inSlot_iff hcounted rfl rfl rfl fun r slot => ?_
    simp [Midway.InSlot, or_and_right, exists_or, hunplaced]

/-- A value gives up its home when it has died. -/
theorem ready {p : Position} {s : Sweep} {current : Interval} {rest : List Interval}
    (hsound : Sound setup roots ⟨p, [], none, s⟩) (h : Homed setup ⟨p, [], none, s⟩)
    (hline : s.waiting = current :: rest) :
    Homed setup
      ⟨current.start, [current], none, { s with waiting := rest }.ready setup current.start⟩ := by
  obtain ⟨hp, hunplaced⟩ := hsound.ahead current (by simp [hline])
  obtain ⟨ended, hdone, -, hperm⟩ := advanced_perm { s with waiting := rest } current.start
  have hsame (r : VReg) (slot : Int) : Midway.InSlot ⟨current.start, [current], none,
      { s with waiting := rest }.ready setup current.start⟩ r slot ↔
      Midway.InSlot ⟨p, [], none, s⟩ r slot := by
    -- whoever has ended was in a register
    have hnone : ¬ ∃ i ∈ ended, i.register = r ∧ i.location = some (.slot slot) :=
      fun ⟨i, hi, _, hloc⟩ => hsound.location_ne_slot (hperm.mem_iff.2 (by simp [hi])) slot hloc
    have hdone' : ({ s with waiting := rest }.ready setup current.start).done = s.done ++ ended :=
      hdone
    simp [Midway.InSlot, hdone', or_and_right, exists_or, hnone, hunplaced]
  refine ⟨h.counted.ready hsound hline, h.single.sublist (List.filter_sublist.map _),
    fun r slot hslot hlt => ?_, fun r a b ha hb => ?_, fun n hn => ?_⟩
  -- a home is given up only when its value has died
  · obtain ⟨n, hn, hmem⟩ := h.alive r slot ((hsame r slot).1 hslot) (Int.lt_of_le_of_lt hp hlt)
    exact ⟨n, hn, List.mem_filter.2 ⟨hmem, decide_eq_true hlt⟩⟩
  · exact h.same r a b ((hsame r a).1 ha) ((hsame r b).1 hb)
  · obtain ⟨r, hr⟩ := h.used n hn
    exact ⟨r, (hsame r n).2 hr⟩

end Homed

/-- In every state that a run comes through, every value has one home. -/
theorem homed_of_reaches {order : LinearOrder} {pool : List String} (hrooted : Rooted roots)
    {s : Sweep} (hreach : Reaches (setupOf order roots pool) (opening roots) s) :
    ∃ p, Sound (setupOf order roots pool) roots ⟨p, [], none, s⟩ ∧
      Homed (setupOf order roots pool) ⟨p, [], none, s⟩ := by
  obtain ⟨p, hopening⟩ := sound_opening (setupOf order roots pool) hrooted
  have hstart : Homed (setupOf order roots pool) ⟨p, [], none, opening roots⟩ := by
    refine ⟨⟨by simp [opening], by simp [opening]⟩, by simp [opening], ?_, ?_, ?_⟩ <;>
      simp [Midway.InSlot, opening]
  exact invariant_of_reaches (I := Homed (setupOf order roots pool))
    (fun _ _ _ _ hsound h => h.ready hsound) (fun _ _ hsound h => h.act hrooted hsound)
    hopening hstart hreach

/-- What is in a slot at the end of a run has been sent there. -/
theorem inSlot_iff_placed {p : Position} {s : Sweep} (hsound : Sound setup roots ⟨p, [], none, s⟩)
    {r : VReg} {slot : Int} : Midway.InSlot ⟨p, [], none, s⟩ r slot ↔
      ∃ i ∈ s.placed, i.register = r ∧ i.location = some (.slot slot) := by
  constructor
  · rintro ⟨i, hi, hloc⟩
    rw [List.append_nil] at hi
    exact ⟨i, s.placed_perm.mem_iff.1 (List.mem_append_left _ hi), hloc⟩
  · rintro ⟨i, hi, hreg, hloc⟩
    rcases List.mem_append.1 (s.placed_perm.mem_iff.2 hi) with hi | hi
    · exact ⟨i, List.mem_append_left _ hi, hreg, hloc⟩
    · exact absurd hloc (hsound.location_ne_slot hi slot)

end Sweep

/-- After a sweep every value has at most one slot, and the slots of the pieces are those
below the count, so the slot at the count is nobody's. Two pieces of a life that touch are
not in two different slots, nor are the pieces that are compared at the ends of an edge. -/
theorem home_slots_exact {g : Graph} {regClass : Option String} {order : LinearOrder}
    {liveness : Liveness} (h : Analysed g regClass order liveness) {pool : List String}
    {swept : Swept} (hswept : sweep order liveness.lives pool = .ok swept) :
    (∀ i ∈ swept.intervals, ∀ j ∈ swept.intervals, i.register = j.register → i.SameSlot j) ∧
    (∀ n : Int, (∃ i ∈ swept.intervals, i.location = some (.slot n)) ↔
      0 ≤ n ∧ n < swept.slotCount) ∧
    (∀ life ∈ swept.lives, ∀ i j, (i, j) ∈ life.neighbours → i.touches j = true →
      i.SameSlot j) ∧
    (∀ life ∈ swept.lives, ∀ exit first i j, life.pieceBefore? exit = some i →
      life.pieceAt? first = some j → i.SameSlot j) := by
  have hsweep : (Allocation.start order liveness pool).sweep = .ok _ :=
    bind_eq_ok.2 ⟨swept, hswept, rfl⟩
  have harranged := h.arranged hsweep
  obtain ⟨s, hreach, -, rfl⟩ := (Sweep.sweep_ensures h.rooted).of_eq_ok hswept
  obtain ⟨p, hsound, hhomed⟩ := Sweep.homed_of_reaches h.rooted hreach
  have hsame : ∀ i ∈ s.placed, ∀ j ∈ s.placed, i.register = j.register → i.SameSlot j := by
    intro i hi j hj heq a b ha hb
    exact hhomed.same j.register a b ((Sweep.inSlot_iff_placed hsound).2 ⟨i, hi, heq, ha⟩)
      ((Sweep.inSlot_iff_placed hsound).2 ⟨j, hj, rfl, hb⟩)
  -- the pieces of a life are pieces of its register
  have hlife : ∀ life ∈ liveness.lives.map (Sweep.collect s.placed), ∀ i ∈ life.pieces,
      ∀ j ∈ life.pieces, i.SameSlot j := by
    intro life hlife i hi j hj
    refine hsame i ((harranged.mem_intervals i).2 ⟨life, hlife, hi⟩) j
      ((harranged.mem_intervals j).2 ⟨life, hlife, hj⟩) ?_
    exact ((harranged.laid life hlife).register i hi).trans
      ((harranged.laid life hlife).register j hj).symm
  refine ⟨hsame, fun n => ⟨?_, ?_⟩, fun life hmem i j hij _ => ?_,
    fun life hmem exit first i j hi hj => ?_⟩
  -- the slots in use are those that were counted
  · rintro ⟨i, hi, hloc⟩
    obtain ⟨j, hj, -, hloc⟩ := (Sweep.inSlot_iff_placed hsound).2 ⟨i, hi, rfl, hloc⟩
    obtain ⟨k, rfl, hk⟩ := hhomed.counted.pieces j hj n hloc
    exact ⟨Int.natCast_nonneg k, Int.ofNat_lt.2 hk⟩
  · rintro ⟨hnonneg, hlt⟩
    obtain ⟨k, rfl⟩ := Int.eq_ofNat_of_zero_le hnonneg
    obtain ⟨r, hr⟩ := hhomed.used k (Int.ofNat_lt.1 hlt)
    obtain ⟨i, hi, -, hloc⟩ := (Sweep.inSlot_iff_placed hsound).1 hr
    exact ⟨i, hi, hloc⟩
  · obtain ⟨hi, hj⟩ := List.of_mem_zip hij
    exact hlife life hmem i hi j (List.mem_cons_of_mem _ hj)
  · have hlaid := harranged.laid life hmem
    exact hlife life hmem i (hlaid.of_pieceBefore? hi).1 j (hlaid.pieceAt?_eq_some.1 hj).1

/-- A value that makes room twice, and is loaded again each time. -/
def spilledTwice : Graph := Graph.run {} [
  .createRegister {}, .createRegister {}, .createRegister {}, .addBlock,
  .addInstruction (0 : Nat) { opcode := "a", defs := [{ register := (0 : Nat) }] },
  .addInstruction (0 : Nat) { opcode := "b", defs := [{ register := (1 : Nat) }] },
  .addInstruction (0 : Nat) { opcode := "c", uses := [{ register := (1 : Nat) }] },
  .addInstruction (0 : Nat) { opcode := "d" },
  .addInstruction (0 : Nat) { opcode := "e", uses := [{ register := (0 : Nat) }] },
  .addInstruction (0 : Nat) { opcode := "f", defs := [{ register := (2 : Nat) }] },
  .addInstruction (0 : Nat) { opcode := "g", uses := [{ register := (2 : Nat) }] },
  .addInstruction (0 : Nat) { opcode := "h" },
  .addInstruction (0 : Nat) { opcode := "i", uses := [{ register := (0 : Nat) }] }]

theorem home_slots_exact_spilledTwice : ∃ order liveness swept,
    Analysed spilledTwice none order liveness ∧ sweep order liveness.lives ["r0"] = .ok swept ∧
    (swept.intervals.filter (·.location.any (· matches .slot _))).length = 2 ∧
    (∀ i ∈ swept.intervals, ∀ j ∈ swept.intervals, i.register = j.register → i.SameSlot j) ∧
    ∀ n : Int, (∃ i ∈ swept.intervals, i.location = some (.slot n)) ↔ 0 ≤ n ∧ n < 1 := by
  have h : Analysed spilledTwice none _ _ := ⟨⟨_, rfl⟩, ⟨_, rfl⟩, ⟨_, rfl⟩⟩
  obtain ⟨hsame, hused, -⟩ := home_slots_exact h (rfl : sweep _ _ ["r0"] = .ok _)
  exact ⟨_, _, _, h, rfl, rfl, hsame, hused⟩

end RegAlloc
