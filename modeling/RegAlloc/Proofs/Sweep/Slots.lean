import Mathlib.Data.List.Pairwise
import RegAlloc.Proofs.Liveness.Lifetimes
import RegAlloc.Table

/-!
# Who is in which slot

A value keeps its home slot until its life has ended by the position that the sweep has
reached, and no two values have the same home at once. A piece that is stored from that
position on therefore finds its slot empty. But an interval that has to leave a register
may be stored from an earlier position, and there the slot may still be in use.

- `SlotApart` — two pieces that do not share a slot;
- `Housing` — the invariant: pieces in slots are at home, or their value has died;
- `Counted`, `counted_of_reaches` — every slot that is used has been counted;
- `ReusesEarly` — a step that stores a piece where its slot is still in use;
- `slots_exclusive_iff` — slots are exclusive exactly when no step does that.
-/

namespace RegAlloc

/-- Two pieces that are not in the same slot at a common position. -/
def Interval.SlotApart (i j : Interval) : Prop :=
  ∀ slot p, i.location = some (.slot slot) → j.location = some (.slot slot) →
    i.covers p = true → j.covers p = false

theorem Interval.SlotApart.symm {i j : Interval} (h : i.SlotApart j) : j.SlotApart i := by
  intro slot p hj hi hjp
  rw [Bool.eq_false_iff]
  intro hip
  simp [h slot p hi hj hip] at hjp

/-- Pieces at one place that have no common position share no slot. -/
theorem Interval.slotApart_of_meets {i j : Interval} (hi : Ranges.Ascending i.ranges)
    (hj : Ranges.Ascending j.ranges) (h : i.location = j.location → i.meets j = false) :
    i.SlotApart j := fun _ p hislot hjslot =>
  (meets_eq_false_iff hi hj).1 (h (hislot.trans hjslot.symm)) p

/-- An interval that is in no slot shares none. -/
theorem Interval.slotApart_of_ne {i : Interval} (h : ∀ slot, i.location ≠ some (.slot slot))
    (j : Interval) : i.SlotApart j :=
  fun slot _ hi => absurd hi (h slot)

namespace Sweep

variable {setup : Setup} {roots : List Interval}

/-- Where the life of a register ends. -/
def lifeEnd (setup : Setup) (r : VReg) : Position := (setup.ends.lookup r).getD 0

/-! ## Homes -/

theorem lowestFreeSlot_not_mem (homes : List (VReg × Nat)) :
    lowestFreeSlot homes ∉ homes.map (·.2) := by
  rw [lowestFreeSlot]
  cases hfind : (List.range homes.length).find? fun slot => slot ∉ homes.map (·.2) with
  | some slot => simpa using List.find?_some hfind
  | none =>
    -- all lower slots are taken, so there is no home left for this one
    rw [List.find?_eq_none] at hfind
    intro hmem
    have hsub : List.range (homes.length + 1) ⊆ homes.map (·.2) := by
      intro slot hslot
      rw [List.mem_range] at hslot
      rcases Nat.lt_or_eq_of_le (Nat.le_of_lt_succ hslot) with hlt | rfl
      · simpa using hfind slot (List.mem_range.2 hlt)
      · exact hmem
    have hlength := (List.subperm_of_subset List.nodup_range hsub).length_le
    rw [List.length_range, List.length_map] at hlength
    omega

/-- A home is found among the known ones, or is a new one. -/
theorem homeSlot_cases {s s' : Sweep} {r : VReg} {slot : Nat} (h : s.homeSlot r = (s', slot)) :
    (r, slot) ∈ s'.homes ∧ (s'.homes = s.homes ∨
      s'.homes = s.homes ++ [(r, slot)] ∧ slot ∉ s.homes.map (·.2)) := by
  rw [homeSlot] at h
  split at h
  · next found hfound =>
    cases h
    obtain ⟨_, _, hsplit, -⟩ := List.lookup_eq_some_iff.1 hfound
    exact ⟨by simp [hsplit], .inl rfl⟩
  · cases h
    exact ⟨by simp, .inr ⟨rfl, lowestFreeSlot_not_mem _⟩⟩

/-- An interval that is at home if it is in a slot. -/
def AtHome (homes : List (VReg × Nat)) (i : Interval) : Prop :=
  ∀ slot, i.location = some (.slot slot) → ∃ n : Nat, slot = n ∧ (i.register, n) ∈ homes

/-- Pieces in slots are at home, or were finished before and their value has died. -/
structure Housing (setup : Setup) (before : List Interval) (m : Midway) : Prop where
  slots : (m.sweep.homes.map (·.2)).Nodup
  done : ∀ i ∈ m.sweep.done, AtHome m.sweep.homes i ∨
    (i ∈ before ∧ lifeEnd setup i.register ≤ m.position)
  hand : ∀ i ∈ m.hand, AtHome m.sweep.homes i

theorem AtHome.mono {homes homes' : List (VReg × Nat)} {i : Interval} (h : AtHome homes i)
    (hsub : homes ⊆ homes') : AtHome homes' i := by
  intro slot hloc
  obtain ⟨n, hn, hmem⟩ := h slot hloc
  exact ⟨n, hn, hsub hmem⟩

/-- An interval in a register is not away from home. -/
theorem atHome_of_register {homes : List (VReg × Nat)} {i : Interval} {name : String}
    (h : i.location = some (.register name)) : AtHome homes i := by
  intro slot hloc
  simp [h] at hloc

namespace Housing

variable {before : List Interval} {m m' : Midway} {p : Position} {i : Interval}
  {hand : List Interval} {promised promised' : Option (String × Interval)} {s s' : Sweep}

/-- Finishing a piece that is at home. -/
theorem finish (h : Housing setup before ⟨p, i :: hand, promised, s⟩) {k : Interval}
    (hk : AtHome s.homes k) (hhomes : s'.homes = s.homes) (hdone : s'.done = s.done ++ [k]) :
    Housing setup before ⟨p, hand, promised, s'⟩ := by
  refine ⟨hhomes ▸ h.slots, fun j hj => ?_, fun j hj => hhomes ▸ h.hand j (by simp [hj])⟩
  simp only [hhomes, hdone, List.mem_append, List.mem_singleton] at hj ⊢
  rcases hj with hj | rfl
  · exact h.done j hj
  · exact .inl hk

/-- Finding a home for an interval in hand. -/
theorem toSlot {slot : Nat} (h : Housing setup before ⟨p, i :: hand, promised, s⟩)
    (hhome : s.homeSlot i.register = (s', slot)) :
    Housing setup before
      ⟨p, { i with location := some (.slot slot) } :: hand, promised', s'⟩ := by
  obtain ⟨hmem, hhomes⟩ := homeSlot_cases hhome
  have hsub : s.homes ⊆ s'.homes := by
    rcases hhomes with heq | ⟨heq, -⟩ <;> simp [heq]
  have hdone : s'.done = s.done := by rw [homeSlot_frame hhome]
  constructor
  · have hslots := h.slots
    -- the home is an old one, or a slot that nobody has
    rcases hhomes with heq | ⟨heq, hnew⟩
    · simpa only [heq] using hslots
    · simp only [heq, List.map_append, List.map_cons, List.map_nil]
      exact List.nodup_append.2 ⟨hslots, by simp, fun a ha b hb => by
        cases List.mem_singleton.1 hb
        exact fun hab => hnew (hab ▸ ha)⟩
  -- homes are only added
  · intro j hj
    exact (h.done j (hdone ▸ hj)).imp_left fun hat => hat.mono hsub
  · intro j hj
    rcases List.mem_cons.1 hj with rfl | hj
    · rintro _ ⟨⟩
      exact ⟨slot, rfl, hmem⟩
    · exact (h.hand j (by simp [hj])).mono hsub

/-- Every act keeps the pieces at home. -/
theorem act (h : Housing setup before m) (hsound : Sound setup roots m) (hact : Act setup m m') :
    Housing setup before m' := by
  cases hact with
  | @pick p hand picked promised s active inactive _ _ hperm =>
    refine ⟨h.slots, h.done, fun i hi => ?_⟩
    rcases List.mem_append.1 hi with hi | hi
    -- whoever is picked up is in a register, not in a slot
    · obtain ⟨-, name, -, hreg⟩ := hsound.begun i (hperm.mem_iff.2 (by simp [hi]))
      exact atHome_of_register hreg
    · exact h.hand i hi
  | @displace p q rival hand promised s _ _ _ _ =>
    have hrival : AtHome s.homes rival := h.hand rival (by simp)
    exact h.finish (k := rival.keepBefore q) hrival rfl rfl
  | store _ _ hhome => exact h.toSlot hhome
  | leaveWhole _ _ _ _ _ hhome => exact h.toSlot hhome
  | @leave p q i current name s s' slot _ hreg _ _ _ _ _ _ hhome =>
    -- the front is in its register, and only the rest moves into the slot
    have hfront : Housing setup before
        ⟨p, [i.cutOff q s.nextId, current], none, s.finishFront i q⟩ := by
      have hfinished : Housing setup before ⟨p, [current], none, s.finishFront i q⟩ :=
        h.finish (k := i.keepBefore q) (atHome_of_register hreg) rfl rfl
      refine ⟨hfinished.slots, hfinished.done, fun j hj => ?_⟩
      rcases List.mem_cons.1 hj with rfl | hj
      · intro slot hloc
        simp at hloc
      · exact hfinished.hand j hj
    exact hfront.toSlot (i := i.cutOff q s.nextId) hhome
  | @finish p i hand promised s slot _ =>
    exact h.finish (k := i) (h.hand i (by simp)) rfl rfl
  | @reload p q limit use i hand promised s slot _ _ _ _ _ _ _ _ =>
    have hi : AtHome s.homes i := h.hand i (by simp)
    exact h.finish (k := i.keepBefore q) hi rfl rfl
  | settle => exact ⟨h.slots, h.done, by simp⟩

theorem acts (h : Housing setup before m) (hsound : Sound setup roots m)
    (hacts : Acts setup m m') : Housing setup before m' := by
  induction hacts with
  | refl => exact h
  | tail hacts hact ih => exact ih.act (hsound.acts hacts) hact

end Housing

/-! ## Steps -/

/-- Nothing that is finished is taken back. -/
theorem done_of_act {m m' : Midway} (hact : Act setup m m') : m.sweep.done <+: m'.sweep.done := by
  cases hact with
  | store _ _ hhome => exact homeSlot_frame hhome ▸ List.prefix_refl _
  | leaveWhole _ _ _ _ _ hhome => exact homeSlot_frame hhome ▸ List.prefix_refl _
  | leave _ _ _ _ _ _ _ _ hhome =>
    rw [homeSlot_frame hhome]
    exact List.prefix_append ..
  | pick => exact List.prefix_refl _
  | settle => exact List.prefix_refl _
  | displace => exact List.prefix_append ..
  | finish => exact List.prefix_append ..
  | reload => exact List.prefix_append ..

theorem done_of_acts {m m' : Midway} (hacts : Acts setup m m') :
    m.sweep.done <+: m'.sweep.done := by
  induction hacts with
  | refl => exact List.prefix_refl _
  | tail _ hact ih => exact ih.trans (done_of_act hact)

theorem done_of_next {p : Position} {s s' : Sweep} (h : Sound setup roots ⟨p, [], none, s⟩)
    (hnext : Next setup s s') : s.done <+: s'.done := by
  obtain ⟨current, rest, hline, hstep⟩ := hnext
  obtain ⟨ended, hdone, -⟩ := advanced_perm { s with waiting := rest } current.start
  have hready : s.done <+: ({ s with waiting := rest }.ready setup current.start).done :=
    hdone ▸ List.prefix_append ..
  exact hready.trans (done_of_acts (acts_of_step h hline hstep))

/-- A value gives up its home only when it has died. -/
theorem Housing.ready {p : Position} {s : Sweep} {current : Interval} {rest : List Interval}
    (h : Housing setup s.done ⟨p, [], none, s⟩) (hsound : Sound setup roots ⟨p, [], none, s⟩)
    (hline : s.waiting = current :: rest) :
    Housing setup s.done
      ⟨current.start, [current], none, { s with waiting := rest }.ready setup current.start⟩ := by
  have hp : p ≤ current.start := (hsound.ahead current (by simp [hline])).1
  obtain ⟨ended, hdone, -, hperm⟩ := advanced_perm { s with waiting := rest } current.start
  refine ⟨h.slots.sublist ((List.filter_sublist).map _), fun i hi => ?_, fun i hi => ?_⟩
  · have hi : i ∈ s.done ++ ended := hdone ▸ hi
    rcases List.mem_append.1 hi with hi | hi
    -- a home is given up only when the value has died
    · by_cases hdead : lifeEnd setup i.register ≤ current.start
      · exact .inr ⟨hi, hdead⟩
      · rcases h.done i hi with hat | ⟨-, hdead'⟩
        · refine .inl fun slot hloc => ?_
          -- the value is alive, so its home is not given up
          obtain ⟨n, hn, hmem⟩ := hat slot hloc
          refine ⟨n, hn, List.mem_filter.2 ⟨hmem, ?_⟩⟩
          simpa [lifeEnd] using hdead
        · exact absurd (Int.le_trans hdead' hp) hdead
    · obtain ⟨-, name, -, hreg⟩ := hsound.begun i (hperm.mem_iff.2 (by simp [hi]))
      exact .inl (atHome_of_register hreg)
  · cases List.mem_singleton.1 hi
    intro slot hloc
    simp [(hsound.ahead current (by simp [hline])).2] at hloc

/-- Every step leaves the pieces at home. -/
theorem Housing.step {p : Position} {s s' : Sweep} {current : Interval} {rest : List Interval}
    (h : Housing setup s.done ⟨p, [], none, s⟩) (hsound : Sound setup roots ⟨p, [], none, s⟩)
    (hline : s.waiting = current :: rest)
    (hstep : step setup { s with waiting := rest } current = .ok s') :
    Housing setup s.done ⟨current.start, [], none, s'⟩ :=
  (h.ready hsound hline).acts (hsound.take hline).advance (acts_of_step hsound hline hstep)

/-! ## Counting slots -/

/-- All slots that are in use, or that a piece is in, have been counted. -/
structure Counted (m : Midway) : Prop where
  homes : ∀ home ∈ m.sweep.homes, home.2 < m.sweep.slotCount
  pieces : ∀ i ∈ m.sweep.done ++ m.hand, ∀ slot, i.location = some (.slot slot) →
    ∃ n : Nat, slot = n ∧ n < m.sweep.slotCount

/-- Finding a home counts it. -/
theorem homeSlot_counted {s s' : Sweep} {r : VReg} {slot : Nat} (h : s.homeSlot r = (s', slot))
    (hhomes : ∀ home ∈ s.homes, home.2 < s.slotCount) :
    s.slotCount ≤ s'.slotCount ∧ slot < s'.slotCount ∧
      ∀ home ∈ s'.homes, home.2 < s'.slotCount := by
  rw [homeSlot] at h
  split at h
  · next found hfound =>
    cases h
    obtain ⟨_, _, hsplit, -⟩ := List.lookup_eq_some_iff.1 hfound
    exact ⟨Nat.le_refl _, hhomes (r, slot) (by simp [hsplit]), hhomes⟩
  · cases h
    refine ⟨Nat.le_max_left .., Nat.le_max_right .., fun home hhome => ?_⟩
    rcases List.mem_append.1 hhome with hhome | hhome
    · exact Nat.lt_of_lt_of_le (hhomes home hhome) (Nat.le_max_left ..)
    · cases List.mem_singleton.1 hhome
      exact Nat.le_max_right ..

namespace Counted

variable {m m' : Midway} {p : Position} {i : Interval} {hand : List Interval}
  {promised promised' : Option (String × Interval)} {s s' : Sweep}

/-- A change that brings no piece to a slot. -/
theorem of_subset (h : Counted m) (hcount : m'.sweep.slotCount = m.sweep.slotCount)
    (hhomes : m'.sweep.homes ⊆ m.sweep.homes)
    (hpieces : ∀ i ∈ m'.sweep.done ++ m'.hand, ∀ slot, i.location = some (.slot slot) →
      ∃ j ∈ m.sweep.done ++ m.hand, j.location = i.location) : Counted m' := by
  refine ⟨fun home hhome => hcount ▸ h.homes home (hhomes hhome), fun i hi slot hloc => ?_⟩
  obtain ⟨j, hj, heq⟩ := hpieces i hi slot hloc
  exact hcount ▸ h.pieces j hj slot (heq.trans hloc)

/-- Finding a home for an interval in hand. -/
theorem toSlot {slot : Nat} {r : VReg} (h : Counted ⟨p, i :: hand, promised, s⟩)
    (hhome : s.homeSlot r = (s', slot)) :
    Counted ⟨p, { i with location := some (.slot slot) } :: hand, promised', s'⟩ := by
  obtain ⟨hle, hlt, hhomes⟩ := homeSlot_counted hhome h.homes
  have hdone : s'.done = s.done := by rw [homeSlot_frame hhome]
  refine ⟨hhomes, fun j hj other hloc => ?_⟩
  simp only [hdone, List.mem_append, List.mem_cons] at hj
  rcases hj with hj | rfl | hj
  · obtain ⟨n, hn, hcount⟩ := h.pieces j (by simp [hj]) other hloc
    exact ⟨n, hn, Nat.lt_of_lt_of_le hcount hle⟩
  · cases hloc
    exact ⟨slot, rfl, hlt⟩
  · obtain ⟨n, hn, hcount⟩ := h.pieces j (by simp [hj]) other hloc
    exact ⟨n, hn, Nat.lt_of_lt_of_le hcount hle⟩

/-- Every act counts the slots that it uses. -/
theorem act (h : Counted m) (hsound : Sound setup roots m) (hact : Act setup m m') :
    Counted m' := by
  cases hact with
  | @pick p hand picked promised s active inactive _ _ hperm =>
    refine h.of_subset rfl (List.Subset.refl _) fun i hi slot hloc => ?_
    simp only [List.mem_append] at hi
    -- only a piece in a slot counts, and nobody is picked up from a slot
    rcases hi with hi | hi | hi
    · exact ⟨i, by simp [hi], rfl⟩
    · obtain ⟨-, name, -, hreg⟩ := hsound.begun i (hperm.mem_iff.2 (by simp [hi]))
      simp [hreg] at hloc
    · exact ⟨i, by simp [hi], rfl⟩
  | @displace p q rival hand promised s _ _ _ _ =>
    refine h.of_subset rfl (List.Subset.refl _) fun i hi slot hloc => ?_
    simp only [finishFront, enqueue, List.mem_append, List.mem_singleton] at hi
    rcases hi with (hi | rfl) | hi
    · exact ⟨i, by simp [hi], rfl⟩
    · exact ⟨rival, by simp, rfl⟩
    · exact ⟨i, by simp [hi], rfl⟩
  | store _ _ hhome => exact h.toSlot hhome
  | leaveWhole _ _ _ _ _ hhome => exact h.toSlot hhome
  | @leave p q i current name s s' slot _ hreg _ _ _ _ _ _ hhome =>
    have hfront : Counted ⟨p, [i.cutOff q s.nextId, current], none, s.finishFront i q⟩ := by
      refine h.of_subset rfl (List.Subset.refl _) fun j hj slot hloc => ?_
      simp only [finishFront, List.mem_append, List.mem_cons, List.not_mem_nil, or_false] at hj
      -- the front has the location of the whole piece, and the rest has none yet
      rcases hj with (hj | rfl) | rfl | rfl
      · exact ⟨j, by simp [hj], rfl⟩
      · exact ⟨i, by simp, rfl⟩
      · simp at hloc
      · exact ⟨j, by simp, rfl⟩
    exact hfront.toSlot hhome
  | @finish p i hand promised s slot _ =>
    refine h.of_subset rfl (List.Subset.refl _) fun j hj slot hloc => ⟨j, ?_, rfl⟩
    simpa using hj
  | @reload p q limit use i hand promised s slot _ _ _ _ _ _ _ _ =>
    refine h.of_subset rfl (List.Subset.refl _) fun j hj slot hloc => ?_
    simp only [finishFront, enqueue, List.mem_append, List.mem_singleton] at hj
    rcases hj with (hj | rfl) | hj
    · exact ⟨j, by simp [hj], rfl⟩
    · exact ⟨i, by simp, rfl⟩
    · exact ⟨j, by simp [hj], rfl⟩
  | settle =>
    refine h.of_subset rfl (List.Subset.refl _) fun j hj slot hloc => ⟨j, ?_, rfl⟩
    simp only [List.append_nil] at hj
    simp [hj]

/-- Moving on brings no piece to a slot. -/
theorem ready (h : Counted ⟨p, [], none, s⟩) (hsound : Sound setup roots ⟨p, [], none, s⟩)
    {current : Interval} {rest : List Interval} (hline : s.waiting = current :: rest) :
    Counted
      ⟨current.start, [current], none, { s with waiting := rest }.ready setup current.start⟩ := by
  obtain ⟨ended, hdone, -, hperm⟩ := advanced_perm { s with waiting := rest } current.start
  refine h.of_subset rfl (List.filter_subset_self _) fun i hi slot hloc => ?_
  have hi : i ∈ s.done ++ ended ++ [current] := by
    rw [← hdone]
    exact hi
  simp only [List.mem_append, List.mem_singleton] at hi
  rcases hi with (hi | hi) | rfl
  · exact ⟨i, by simp [hi], rfl⟩
  · -- it was in a register
    obtain ⟨-, name, -, hreg⟩ := hsound.begun i (hperm.mem_iff.2 (by simp [hi]))
    simp [hreg] at hloc
  · simp [(hsound.ahead i (by simp [hline])).2] at hloc

end Counted

/-- In every state that a run comes through, the slots of all pieces are counted. -/
theorem counted_of_reaches {p : Position} {s s' : Sweep}
    (hsound : Sound setup roots ⟨p, [], none, s⟩) (h : Counted ⟨p, [], none, s⟩)
    (hreach : Reaches setup s s') : ∃ p', Counted ⟨p', [], none, s'⟩ :=
  (invariant_of_reaches (I := Counted) (fun _ _ _ _ hsound h => h.ready hsound)
    (fun _ _ hsound h => h.act hsound) hsound h hreach).imp fun _ hp' => hp'.2

/-! ## Slots in use -/

/-- A step that stores a piece from a position before the one it has reached, in a slot
that still holds another value there. That value has died by the position reached, which
is why its slot was free to be given away. -/
def ReusesEarly (setup : Setup) (s s' : Sweep) : Prop :=
  ∃ current, s.waiting.head? = some current ∧ ∃ i ∈ s'.done, ∃ j ∈ s.done, i ∉ s.done ∧
    i.start < current.start ∧ lifeEnd setup j.register ≤ current.start ∧
    ∃ slot p, i.location = some (.slot slot) ∧ j.location = some (.slot slot) ∧
      i.covers p = true ∧ j.covers p = true

/-- What a root covers lies before the end of its life. -/
theorem lt_lifeEnd {order : LinearOrder} {pool : List String} (hrooted : Rooted roots)
    {root : Interval} (hroot : root ∈ roots) {q : Position} (hcovers : root.covers q = true) :
    q < lifeEnd (setupOf order roots pool) root.register := by
  have hlookup : (roots.map fun i => (i.register, i.stop)).lookup root.register = some root.stop :=
    Table.lookup_map hrooted.single root hroot
  simpa [lifeEnd, setupOf, hlookup] using Interval.lt_stop (hrooted.shaped root hroot) hcovers

/-- A piece ends with the life of its register at the latest. -/
theorem stop_le_lifeEnd {order : LinearOrder} {pool : List String} (hrooted : Rooted roots)
    {finished pending : List Interval} (h : Tiling roots finished pending) {i : Interval}
    (hi : i ∈ finished ++ pending) : i.stop ≤ lifeEnd (setupOf order roots pool) i.register := by
  obtain ⟨root, hroot, hreg, hcovers⟩ :=
    (h.covers i.register (i.stop - 1)).1 ⟨i, hi, rfl, Interval.covers_last (h.shaped i hi)⟩
  have hlt : i.stop - 1 < lifeEnd (setupOf order roots pool) root.register :=
    lt_lifeEnd hrooted hroot hcovers
  rw [hreg] at hlt
  lia

/-- A step that reuses no slot early leaves no two pieces in one slot. -/
theorem slotApart_of_step {order : LinearOrder} {pool : List String} (hrooted : Rooted roots)
    {p : Position} {s s' : Sweep} {current : Interval} {rest : List Interval}
    (hsound : Sound (setupOf order roots pool) roots ⟨p, [], none, s⟩)
    (hhousing : Housing (setupOf order roots pool) s.done ⟨p, [], none, s⟩)
    (hapart : s.done.Pairwise Interval.SlotApart) (hline : s.waiting = current :: rest)
    (hstep : step (setupOf order roots pool) { s with waiting := rest } current = .ok s')
    (hearly : ¬ ReusesEarly (setupOf order roots pool) s s') :
    s'.done.Pairwise Interval.SlotApart := by
  have hsound' : Sound (setupOf order roots pool) roots ⟨current.start, [], none, s'⟩ :=
    (hsound.take hline).advance.acts (acts_of_step hsound hline hstep)
  have hhousing' := hhousing.step hsound hline hstep
  have : Std.Symm Interval.SlotApart := ⟨fun _ _ => Interval.SlotApart.symm⟩
  -- a piece at home and a piece of a dead value
  have hmixed : ∀ a ∈ s'.done, ∀ b ∈ s.done, a.register ≠ b.register →
      lifeEnd (setupOf order roots pool) b.register ≤ current.start → a.SlotApart b := by
    intro a ha b hb hne hdead slot q haloc hbloc haq
    by_cases hold : a ∈ s.done
    · exact hapart.forall hold hb (fun heq => hne (heq ▸ rfl)) slot q haloc hbloc haq
    · rw [Bool.eq_false_iff]
      intro hbq
      have hashaped := hsound'.tiling.shaped a (by simp [ha])
      have hbshaped := hsound.tiling.shaped b (by simp [hb])
      have := Interval.start_le hashaped haq
      have := Interval.lt_stop hbshaped hbq
      have : b.stop ≤ lifeEnd (setupOf order roots pool) b.register :=
        stop_le_lifeEnd hrooted hsound.tiling (by simp [hb])
      exact hearly ⟨current, by simp [hline], a, ha, b, hb, hold, by lia, hdead, slot, q, haloc,
        hbloc, haq, hbq⟩
  -- pieces of one register, two values at home, or one of them dead
  refine hsound'.tiling.ordered.imp_of_mem fun {a b} ha hb hordered => ?_
  by_cases hreg : a.register = b.register
  · -- pieces of one register come one after the other
    intro slot q _ _ haq
    rw [Bool.eq_false_iff]
    intro hbq
    have := hordered hreg
    have := Interval.lt_stop (hsound'.tiling.shaped a (by simp [ha])) haq
    have := Interval.start_le (hsound'.tiling.shaped b (by simp [hb])) hbq
    lia
  · rcases hhousing'.done b hb with hbhome | ⟨hbold, hdead⟩
    · rcases hhousing'.done a ha with hahome | ⟨haold, hdead⟩
      · -- two values never have the same home
        intro slot q haloc hbloc
        obtain ⟨n, rfl, han⟩ := hahome slot haloc
        obtain ⟨n', hn', hbn⟩ := hbhome n hbloc
        cases Int.ofNat.inj hn'
        have := List.inj_on_of_nodup_map hhousing'.slots han hbn rfl
        exact absurd (congrArg Prod.fst this) hreg
      · exact (hmixed b hb a haold (Ne.symm hreg) hdead).symm
    · exact hmixed a ha b hbold hreg hdead

/-! ## Runs -/

/-- In every state that a run comes through, the pieces are at home. -/
theorem housing_of_reaches {p : Position} {s : Sweep} (hopening : Sound setup roots
    ⟨p, [], none, opening roots⟩) (hreach : Reaches setup (opening roots) s) :
    ∃ p', Sound setup roots ⟨p', [], none, s⟩ ∧ Housing setup s.done ⟨p', [], none, s⟩ := by
  induction hreach with
  | refl => exact ⟨p, hopening, by simp [opening], by simp [opening], by simp⟩
  | @tail s s' _ hnext ih =>
    obtain ⟨p', hsound, hhousing⟩ := ih
    have hold := done_of_next hsound hnext
    obtain ⟨current, rest, hline, hstep⟩ := hnext
    have hhousing' := hhousing.step hsound hline hstep
    refine ⟨current.start, (hsound.take hline).advance.acts (acts_of_step hsound hline hstep),
      hhousing'.slots, fun i hi => ?_, hhousing'.hand⟩
    exact (hhousing'.done i hi).imp_right (And.imp_left (hold.subset ·))

theorem done_of_reaches {p : Position} {s s' : Sweep} (h : Sound setup roots ⟨p, [], none, s⟩)
    (hreach : Reaches setup s s') : s.done <+: s'.done := by
  induction hreach with
  | refl => exact List.prefix_refl _
  | tail hreach hnext ih =>
    obtain ⟨p', h'⟩ := sound_of_reaches h hreach
    exact ih.trans (done_of_next h' hnext)

/-- A slot that was reused early is shared at the end of the run. -/
theorem not_slotApart_of_reusesEarly {p : Position} {s s' last : Sweep}
    (hsound : Sound setup roots ⟨p, [], none, s⟩) (hnext : Next setup s s')
    (hlast : Reaches setup s' last) (hearly : ReusesEarly setup s s') :
    ¬ last.placed.Pairwise Interval.SlotApart := by
  intro hapart
  obtain ⟨-, -, i, hi, j, hj, hnew, -, -, slot, q, hiloc, hjloc, hiq, hjq⟩ := hearly
  obtain ⟨p', hsound'⟩ := sound_of_next hsound hnext
  have hrest := done_of_reaches hsound' hlast
  have hold := done_of_next hsound hnext
  have : Std.Symm Interval.SlotApart := ⟨fun _ _ => Interval.SlotApart.symm⟩
  have hij : i.SlotApart j := hapart.forall (last.placed_perm.mem_iff.1 (by simp [hrest.subset hi]))
    (last.placed_perm.mem_iff.1 (by simp [hrest.subset (hold.subset hj)]))
    fun heq => hnew (heq ▸ hj)
  simp [hij slot q hiloc hjloc hiq] at hjq

/-- A run in which no slot is reused early leaves no two pieces in one slot. -/
theorem slotApart_placed {order : LinearOrder} {pool : List String} (hrooted : Rooted roots)
    {last : Sweep} (hlast : Reaches (setupOf order roots pool) (opening roots) last)
    (hnone : ∀ s s', Reaches (setupOf order roots pool) (opening roots) s →
      Next (setupOf order roots pool) s s' → ¬ ReusesEarly (setupOf order roots pool) s s') :
    last.placed.Pairwise Interval.SlotApart := by
  obtain ⟨p, hopening⟩ := sound_opening (setupOf order roots pool) hrooted
  have hdone : last.done.Pairwise Interval.SlotApart := by
    -- the invariant of every step, as long as no slot is given on too early
    induction hlast with
    | refl => exact .nil
    | @tail s s' hs hnext ih =>
      obtain ⟨p', hsound, hhousing⟩ := housing_of_reaches hopening hs
      have hearly := hnone s s' hs hnext
      obtain ⟨current, rest, hline, hstep⟩ := hnext
      exact slotApart_of_step hrooted hsound hhousing ih hline hstep hearly
  -- what is not finished is in a register
  obtain ⟨p', hsound⟩ := sound_of_reaches hopening hlast
  have hheld : ∀ i ∈ last.active ++ last.inactive, ∀ j, i.SlotApart j := by
    intro i hi
    obtain ⟨-, name, -, hreg⟩ := hsound.begun i hi
    exact Interval.slotApart_of_ne (by simp [hreg])
  have hrest : (last.active ++ last.inactive).Pairwise Interval.SlotApart := by
    have hpending := (hsound.holding.apart.sublist (List.sublist_append_right ..)).sublist
      ((List.sublist_append_right ..).trans (List.sublist_append_right ..))
    exact hpending.imp_of_mem fun {a b} ha _ _ => hheld a ha b
  exact last.placed_perm.pairwise
    (List.pairwise_append.2 ⟨hdone, hrest, fun i _ j hj => (hheld j hj i).symm⟩)
    Interval.SlotApart.symm

end Sweep

/-- Two pieces of a sweep share a slot at some position exactly when some step of its run
stores a piece from an earlier position on than the step has reached, in a slot which a
value that has died since then still occupies there. -/
theorem slots_exclusive_iff {g : Graph} {regClass : Option String} {order : LinearOrder}
    {liveness : Liveness} (h : Analysed g regClass order liveness) {pool : List String}
    {swept : Swept} (hswept : sweep order liveness.lives pool = .ok swept) :
    (swept.intervals.Pairwise fun i j => ∀ slot p, i.location = some (.slot slot) →
      j.location = some (.slot slot) → i.covers p = true → j.covers p = false) ↔
    ∀ s s', Sweep.Reaches (Sweep.setupOf order (liveness.lives.map (·.root)) pool)
        (Sweep.opening (liveness.lives.map (·.root))) s →
      Sweep.Next (Sweep.setupOf order (liveness.lives.map (·.root)) pool) s s' →
      ¬ Sweep.ReusesEarly (Sweep.setupOf order (liveness.lives.map (·.root)) pool) s s' := by
  obtain ⟨last, hlast, hempty, rfl⟩ := (Sweep.sweep_ensures h.rooted).of_eq_ok hswept
  constructor
  · intro hapart s s' hs hnext hearly
    obtain ⟨p, hopening⟩ := Sweep.sound_opening _ h.rooted
    obtain ⟨p', hsound⟩ := Sweep.sound_of_reaches hopening hs
    exact Sweep.not_slotApart_of_reusesEarly hsound hnext
      (Sweep.reaches_last hlast hempty (hs.tail hnext)) hearly hapart
  · exact Sweep.slotApart_placed h.rooted hlast

/-- Values of which one dies where another has to make room for a third. -/
def handover : Graph := Graph.run {} [
  .createRegister {}, .createRegister {}, .createRegister {}, .addBlock,
  .addInstruction (0 : Nat) { opcode := "a", defs := [{ register := (0 : Nat) }] },
  .addInstruction (0 : Nat) { opcode := "b", defs := [{ register := (1 : Nat) }] },
  .addInstruction (0 : Nat)
    { opcode := "c"
      uses := [{ register := (0 : Nat), policy := .any }]
      defs := [{ register := (2 : Nat) }] },
  .addInstruction (0 : Nat) { opcode := "d", uses := [{ register := (2 : Nat) }] },
  .addInstruction (0 : Nat) { opcode := "e", uses := [{ register := (1 : Nat), policy := .any }] }]

/-- Values of which one is kept in memory, and another one after it has died. -/
def successive : Graph := Graph.run {} [
  .createRegister {}, .createRegister {}, .createRegister {}, .createRegister {}, .addBlock,
  .addInstruction (0 : Nat) { opcode := "a", defs := [{ register := (0 : Nat) }] },
  .addInstruction (0 : Nat) { opcode := "b", defs := [{ register := (1 : Nat) }] },
  .addInstruction (0 : Nat) { opcode := "c", uses := [{ register := (1 : Nat) }] },
  .addInstruction (0 : Nat) { opcode := "d", uses := [{ register := (0 : Nat) }] },
  .addInstruction (0 : Nat) { opcode := "e", defs := [{ register := (2 : Nat) }] },
  .addInstruction (0 : Nat) { opcode := "f", defs := [{ register := (3 : Nat) }] },
  .addInstruction (0 : Nat) { opcode := "g", uses := [{ register := (3 : Nat) }] },
  .addInstruction (0 : Nat) { opcode := "h", uses := [{ register := (2 : Nat), policy := .any }] }]

/-- The two sides at a sweep of each kind: one that reuses a slot too early, and one in which a
slot is reused by a later value and stays exclusive. -/
theorem slots_exclusive_iff_handover : (∃ order liveness swept,
    Analysed handover none order liveness ∧ sweep order liveness.lives ["r0"] = .ok swept ∧
    ((swept.intervals.Pairwise fun i j => ∀ slot p, i.location = some (.slot slot) →
      j.location = some (.slot slot) → i.covers p = true → j.covers p = false) ↔
    ∀ s s', Sweep.Reaches (Sweep.setupOf order (liveness.lives.map (·.root)) ["r0"])
        (Sweep.opening (liveness.lives.map (·.root))) s →
      Sweep.Next (Sweep.setupOf order (liveness.lives.map (·.root)) ["r0"]) s s' →
      ¬ Sweep.ReusesEarly (Sweep.setupOf order (liveness.lives.map (·.root)) ["r0"]) s s')) ∧
    ∃ order liveness swept,
      Analysed successive none order liveness ∧ sweep order liveness.lives ["r0"] = .ok swept ∧
      (swept.intervals.filter (·.location == some (.slot 0))).map (·.register) = [0, 2] ∧
      (swept.intervals.Pairwise fun i j => ∀ slot p, i.location = some (.slot slot) →
        j.location = some (.slot slot) → i.covers p = true → j.covers p = false) ∧
      ∀ s s', Sweep.Reaches (Sweep.setupOf order (liveness.lives.map (·.root)) ["r0"])
          (Sweep.opening (liveness.lives.map (·.root))) s →
        Sweep.Next (Sweep.setupOf order (liveness.lives.map (·.root)) ["r0"]) s s' →
        ¬ Sweep.ReusesEarly (Sweep.setupOf order (liveness.lives.map (·.root)) ["r0"]) s s' := by
  -- in the first run a slot is given on too early, in the second it is not
  constructor
  · have h : Analysed handover none _ _ := ⟨⟨_, rfl⟩, ⟨_, rfl⟩, ⟨_, rfl⟩⟩
    exact ⟨_, _, _, h, rfl, slots_exclusive_iff h rfl⟩
  · have hswept : ∃ order liveness swept,
        Analysed successive none order liveness ∧ sweep order liveness.lives ["r0"] = .ok swept ∧
        (swept.intervals.filter (·.location == some (.slot 0))).map (·.register) = [0, 2] ∧
        swept.intervals.map (fun i => (i.location, i.ranges)) =
          [(some (.register "r0"), [⟨1, 2⟩]), (some (.register "r0"), [⟨3, 5⟩]),
            (some (.register "r0"), [⟨9, 10⟩]), (some (.register "r0"), [⟨11, 13⟩]),
            (some (.slot 0), [⟨2, 5⟩]), (some (.register "r0"), [⟨5, 7⟩]),
            (some (.slot 0), [⟨10, 15⟩])] := by
      have h : Analysed successive none _ _ := ⟨⟨_, rfl⟩, ⟨_, rfl⟩, ⟨_, rfl⟩⟩
      exact ⟨_, _, _, h, rfl, rfl, rfl⟩
    obtain ⟨order, liveness, swept, h, hswept, hslot, hplaces⟩ := hswept
    -- the pieces are compared as lists of ranges, by evaluation
    have hascending : ∀ place ∈ swept.intervals.map (fun i => (i.location, i.ranges)),
        Ranges.Ascending place.2 := by
      rw [hplaces]
      decide
    have hapart : (swept.intervals.map fun i => (i.location, i.ranges)).Pairwise fun x y =>
        x.1 = y.1 → (Ranges.firstCommon? x.2 y.2).isSome = false := by
      rw [hplaces]
      decide
    have hexclusive : swept.intervals.Pairwise Interval.SlotApart :=
      (List.pairwise_map.1 hapart).imp_of_mem fun hi hj hmeets =>
        Interval.slotApart_of_meets (hascending _ (List.mem_map_of_mem hi))
          (hascending _ (List.mem_map_of_mem hj)) hmeets
    exact ⟨order, liveness, swept, h, hswept, hslot, hexclusive,
      (slots_exclusive_iff h hswept).1 hexclusive⟩

/-- Here two values share a slot. -/
theorem slots_shared_handover : ∃ order liveness swept,
    Analysed handover none order liveness ∧ sweep order liveness.lives ["r0"] = .ok swept ∧
    ¬ swept.intervals.Pairwise fun i j => ∀ slot p, i.location = some (.slot slot) →
      j.location = some (.slot slot) → i.covers p = true → j.covers p = false := by
  have h : Analysed handover none _ _ := ⟨⟨_, rfl⟩, ⟨_, rfl⟩, ⟨_, rfl⟩⟩
  refine ⟨_, _, _, h, rfl, fun hapart => ?_⟩
  have hclash := List.pairwise_iff_getElem.1 hapart 3 4 (by decide) (by decide) (by decide)
  have : (true : Bool) = false := hclash 0 4 rfl rfl rfl
  cases this

end RegAlloc
