import RegAlloc.Proofs.Sweep.Seams
import RegAlloc.Proofs.Sweep.Slots

/-!
# A slot that is left is not written at once

A slot is given to another value only when its owner has died, and a value in memory is not
written before the position at which it went there. So where a piece in a slot ends and its
value lives on, no other value is written to that slot.

- `Interval.LeftBy` — a slot that a value leaves in good order for another one;
- `Vacated` — the invariant, with the housing of slots that it rests on;
- `leftBy_placed` — what holds when a sweep is over.
-/

namespace RegAlloc

/-- Where a piece in a slot ends and its value lives on, the other piece in that slot is not
written. -/
def Interval.LeftBy (roots : List Interval) (i j : Interval) : Prop :=
  i.register ≠ j.register → ∀ slot, i.location = some (.slot slot) →
    j.location = some (.slot slot) →
    (∃ root ∈ roots, root.register = i.register ∧ root.covers i.stop = true) →
      ¬ j.WrittenAt i.stop

/-- The front of a piece ends where its value does, or not before the cut. -/
theorem Tiling.le_stop_of_covers {roots finished pending : List Interval} {i : Interval}
    (h : Tiling roots finished (i :: pending)) {q : Position} (hstart : i.start < q)
    (hlater : ∃ root ∈ roots, root.register = i.register ∧
      root.covers (i.keepBefore q).stop = true) : q ≤ (i.keepBefore q).stop := by
  have hi : i.Shaped := h.shaped i (by simp)
  have hkept := Interval.shaped_keepBefore hi hstart
  have hlt := Interval.start_lt_stop hkept
  rw [Interval.start_keepBefore hi hstart] at hlt
  obtain ⟨x, hx, hreg, hcovers⟩ := (h.covers _ _).2 hlater
  have hxlt := Interval.lt_stop (h.shaped x hx) hcovers
  refine Int.not_lt.1 fun hstop => ?_
  rcases List.mem_append.1 hx with hx | hx
  · have := h.before x hx i (by simp) hreg
    lia
  rcases List.mem_cons.1 hx with rfl | hx
  · have := Interval.lt_stop hkept (Interval.covers_keepBefore.2 ⟨hcovers, hstop⟩)
    lia
  · exact h.register_ne hx hreg.symm

/-- A piece that is finished as it is ends with its value. -/
theorem Tiling.not_covers_stop {roots finished pending : List Interval} {i : Interval}
    (h : Tiling roots finished (i :: pending)) :
    ¬ ∃ root ∈ roots, root.register = i.register ∧ root.covers i.stop = true := by
  intro hlater
  obtain ⟨x, hx, hreg, hcovers⟩ := (h.covers _ _).2 hlater
  have hxlt := Interval.lt_stop (h.shaped x hx) hcovers
  have hilt := Interval.start_lt_stop (h.shaped i (by simp))
  rcases List.mem_append.1 hx with hx | hx
  · have := h.before x hx i (by simp) hreg
    lia
  rcases List.mem_cons.1 hx with rfl | hx
  · lia
  · exact h.register_ne hx hreg.symm

namespace Sweep

/-- Slots are left in good order, and a piece in hand that is in a slot is not written before
the position that has been reached. -/
structure Vacated (setup : Setup) (roots : List Interval) (m : Midway) : Prop where
  housing : ∃ before, Housing setup before m
  hand : ∀ i ∈ m.hand, ∀ slot, i.location = some (.slot slot) → ∀ q, i.WrittenAt q →
    m.position ≤ q
  done : ∀ i ∈ m.sweep.done, ∀ j ∈ m.sweep.done, i.LeftBy roots j

variable {order : LinearOrder} {pool : List String} {roots : List Interval}

section

variable {setup : Setup} {m : Midway} {p : Position} {i current : Interval}

/-- Values are written in gaps. -/
theorem odd_of_writtenAt
    (hwrites : ∀ root ∈ roots, ∀ u ∈ root.uses, u.access = .write → u.position % stride = 1)
    (hsound : Sound setup roots m) (hi : i ∈ m.hand) {u : UsePoint} (hu : u ∈ i.uses)
    (hwrite : u.access = .write) : u.position % stride = 1 := by
  obtain ⟨root, hroot, -, hroot'⟩ :=
    (hsound.tiling.uses i.register u).1 ⟨i, by simp [hi], rfl, hu⟩
  exact hwrites root hroot u hroot' hwrite

/-- A write from the position on by which a register has to be vacated is not before the
position that has been reached. -/
theorem le_of_evictBy_le (hodd : ∀ u ∈ current.uses, u.access = .write → u.position % stride = 1)
    {q : Position} (hq : q % stride = 1) (hle : evictBy current p ≤ q) : p ≤ q := by
  rcases evictBy_cases current p with ⟨heq, -⟩ | ⟨heq, use, hhead, hwrite, hposition⟩
  · lia
  · have := hodd use (List.mem_of_head? hhead) hwrite
    lia

end

namespace Vacated

variable {setup : Setup} {m m' : Midway} {p : Position} {i k : Interval} {hand : List Interval}
  {promised promised' : Option (String × Interval)} {s s' : Sweep}

/-- Finishing a piece that is in a register. -/
theorem done_of_register (h : Vacated setup roots m) {name : String}
    (hk : k.location = some (.register name)) (hdone : s'.done = m.sweep.done ++ [k]) :
    ∀ i ∈ s'.done, ∀ j ∈ s'.done, i.LeftBy roots j := by
  intro i hi j hj hne slot hislot hjslot
  simp only [hdone, List.mem_append, List.mem_singleton] at hi hj
  rcases hi with hi | rfl
  · rcases hj with hj | rfl
    · exact h.done i hi j hj hne slot hislot hjslot
    · simp [hk] at hjslot
  · simp [hk] at hislot

/-- Finishing a piece in a slot that is cut no earlier than the position reached. -/
theorem done_of_slot (hrooted : Rooted roots)
    (h : Vacated (setupOf order roots pool) roots ⟨p, i :: hand, promised, s⟩)
    (hsound : Sound (setupOf order roots pool) roots ⟨p, i :: hand, promised, s⟩)
    (hreg : k.register = i.register) (hloc : k.location = i.location) (huses : k.uses ⊆ i.uses)
    (hstop : (∃ root ∈ roots, root.register = k.register ∧ root.covers k.stop = true) →
      p ≤ k.stop) (hdone : s'.done = s.done ++ [k]) :
    ∀ a ∈ s'.done, ∀ b ∈ s'.done, a.LeftBy roots b := by
  obtain ⟨before, hhousing⟩ := h.housing
  -- another value that was in the slot has died
  have hdead : ∀ y ∈ s.done, y.register ≠ k.register → ∀ slot, y.location = some (.slot slot) →
      k.location = some (.slot slot) → lifeEnd (setupOf order roots pool) y.register ≤ p := by
    intro y hy hne slot hyslot hkslot
    -- two values at home are in different slots
    rcases hhousing.done y hy with hhome | ⟨-, hdead⟩
    · obtain ⟨n, hn, hyhome⟩ := hhome slot hyslot
      obtain ⟨n', hn', hkhome⟩ := hhousing.hand i (by simp) slot (hloc ▸ hkslot)
      cases Int.ofNat.inj (hn.symm.trans hn')
      have hsame := List.inj_on_of_nodup_map hhousing.slots hyhome hkhome rfl
      exact absurd ((congrArg Prod.fst hsame).trans hreg.symm) hne
    · exact hdead
  intro a ha b hb hne slot haslot hbslot hlater hwritten
  simp only [hdone, List.mem_append, List.mem_singleton] at ha hb
  rcases ha with ha | rfl
  · rcases hb with hb | rfl
    · exact h.done a ha b hb hne slot haslot hbslot hlater hwritten
    · -- the value that lives on would have died before the other one went to memory
      have hend := hdead a ha hne slot haslot hbslot
      obtain ⟨root, hroot, hrootreg, hcovers⟩ := hlater
      have hlt : a.stop < lifeEnd (setupOf order roots pool) root.register :=
        lt_lifeEnd hrooted hroot hcovers
      rw [hrootreg] at hlt
      obtain ⟨u, hu, hwrite⟩ := hwritten
      have : p ≤ a.stop := h.hand i (by simp) slot (hloc ▸ hbslot) a.stop ⟨u, huses hu, hwrite⟩
      lia
  · rcases hb with hb | rfl
    · -- the value that is written would still be alive
      have hend := hdead b hb hne.symm slot hbslot haslot
      have hle : b.stop ≤ lifeEnd (setupOf order roots pool) b.register :=
        stop_le_lifeEnd hrooted hsound.tiling (by simp [hb])
      obtain ⟨u, hu, hposition, -⟩ := hwritten
      have hlt := Interval.lt_stop (hsound.tiling.shaped b (by simp [hb]))
        ((hsound.tiling.used b (by simp [hb])).covered u hu)
      have := hstop hlater
      lia
    · exact hne rfl

/-- Every act leaves slots in good order. -/
theorem act (hrooted : Rooted roots)
    (hwrites : ∀ root ∈ roots, ∀ u ∈ root.uses, u.access = .write → u.position % stride = 1)
    (h : Vacated (setupOf order roots pool) roots m)
    (hsound : Sound (setupOf order roots pool) roots m)
    (hact : Act (setupOf order roots pool) m m') : Vacated (setupOf order roots pool) roots m' := by
  have hhousing := h.housing.imp fun before hbefore => hbefore.act hsound hact
  have hodd : ∀ i ∈ m.hand, ∀ u ∈ i.uses, u.access = .write → u.position % stride = 1 :=
    fun i hi u hu => odd_of_writtenAt hwrites hsound hi hu
  cases hact with
  | @pick p hand picked promised s active inactive _ _ hperm =>
    -- whoever is picked up is in a register
    refine ⟨hhousing, fun i hi slot hloc => ?_, h.done⟩
    rcases List.mem_append.1 hi with hi | hi
    · obtain ⟨-, name, -, hreg⟩ := hsound.begun i (hperm.mem_iff.2 (by simp [hi]))
      simp [hreg] at hloc
    · exact h.hand i hi slot hloc
  | @displace p q rival hand promised s _ _ _ _ hplaced =>
    obtain ⟨name, -, hloc⟩ := hplaced
    -- a piece in a register leaves no slot
    exact ⟨hhousing, fun i hi => h.hand i (by simp [hi]),
      h.done_of_register (k := rival.keepBefore q) hloc rfl⟩
  | @store p current s s' slot hstart _ hhome =>
    refine ⟨hhousing, fun i hi _ _ q hwritten => ?_, by
      rw [homeSlot_frame hhome]
      exact h.done⟩
    -- the stored piece starts at `p`, and is written behind that
    cases List.mem_singleton.1 hi
    obtain ⟨u, hu, rfl, -⟩ := hwritten
    have hu : u ∈ current.uses := hu
    exact hstart ▸ Interval.start_le (hsound.shaped (i := current) (by simp))
      ((hsound.used (i := current) (by simp)).covered u hu)
  | @leaveWhole p i current name s s' slot _ _ _ hlimit _ hhome =>
    refine ⟨hhousing, fun j hj slot' hloc' q hwritten => ?_, by
      rw [homeSlot_frame hhome]
      exact h.done⟩
    -- a write is at an odd position, so from the limit on means from `p` on
    rcases List.mem_cons.1 hj with rfl | hj
    · obtain ⟨u, hu, rfl, hwrite⟩ := hwritten
      have hu : u ∈ i.uses := hu
      have hge := Interval.start_le (hsound.shaped (i := i) (by simp))
        ((hsound.used (i := i) (by simp)).covered u hu)
      exact le_of_evictBy_le (hodd current (by simp)) (hodd i (by simp) u hu hwrite)
        (Int.le_trans hlimit hge)
    · exact h.hand j (List.mem_cons_of_mem _ hj) slot' hloc' q hwritten
  | @leave p q i current name s s' slot _ hloc _ _ _ _ _ _ hhome hquiet _ =>
    refine ⟨hhousing, fun j hj slot' hloc' x hwritten => ?_, by
      rw [homeSlot_frame hhome]
      exact h.done_of_register (k := i.keepBefore q) hloc rfl⟩
    -- the rest is written from the limit on
    rcases List.mem_cons.1 hj with rfl | hj
    · obtain ⟨u, hu, rfl, hwrite⟩ := hwritten
      obtain ⟨hu, hge⟩ := Interval.mem_uses_cutOff.1 (show u ∈ (i.cutOff q s.nextId).uses from hu)
      exact le_of_evictBy_le (hodd current (by simp)) (hodd i (by simp) u hu hwrite)
        (hquiet u hu hge)
    · exact h.hand j (List.mem_cons_of_mem _ hj) slot' hloc' x hwritten
  | @finish p i hand promised s slot hloc _ =>
    -- the value ends with its last piece
    exact ⟨hhousing, fun j hj => h.hand j (by simp [hj]),
      h.done_of_slot hrooted hsound rfl rfl (List.Subset.refl _)
        (fun hlater => absurd hlater hsound.tiling.not_covers_stop) rfl⟩
  | @reload p q limit use i hand promised s slot hloc _ _ _ hq _ hstart _ _ =>
    -- the value lives on, and is needed again behind `p`
    exact ⟨hhousing, fun j hj => h.hand j (by simp [hj]),
      h.done_of_slot (k := i.keepBefore q) hrooted hsound rfl rfl
        (fun u hu => (Interval.mem_uses_keepBefore.1 hu).1)
        (fun hlater => Int.le_trans hq (hsound.tiling.le_stop_of_covers hstart hlater)) rfl⟩
  | settle => exact ⟨hhousing, by simp, h.done⟩

/-- Moving on to the next interval leaves slots in good order. -/
theorem ready {current : Interval} {rest : List Interval} (h : Vacated setup roots ⟨p, [], none, s⟩)
    (hsound : Sound setup roots ⟨p, [], none, s⟩) (hline : s.waiting = current :: rest) :
    Vacated setup roots
      ⟨current.start, [current], none, { s with waiting := rest }.ready setup current.start⟩ := by
  obtain ⟨before, hhousing⟩ := h.housing
  have hhousing' : Housing setup s.done ⟨p, [], none, s⟩ :=
    ⟨hhousing.slots, fun i hi => (hhousing.done i hi).imp_right fun hdead => ⟨hi, hdead.2⟩,
      hhousing.hand⟩
  refine ⟨⟨_, hhousing'.ready hsound hline⟩, fun i hi slot hloc => ?_,
    fun i hi j hj hne slot hislot hjslot => ?_⟩
  · cases List.mem_singleton.1 hi
    simp [(hsound.ahead current (by simp [hline])).2] at hloc
  · rcases hsound.mem_done_ready hi with hi | ⟨name, -, hreg⟩
    · rcases hsound.mem_done_ready hj with hj | ⟨name, -, hreg⟩
      · exact h.done i hi j hj hne slot hislot hjslot
      · simp [hreg] at hjslot
    · simp [hreg] at hislot

end Vacated

/-- Pieces that a sweep leaves in slots leave them in good order. -/
theorem leftBy_placed (hrooted : Rooted roots)
    (hwrites : ∀ root ∈ roots, ∀ u ∈ root.uses, u.access = .write → u.position % stride = 1)
    {s : Sweep} (hreach : Reaches (setupOf order roots pool) (opening roots) s) :
    ∀ i ∈ s.placed, ∀ j ∈ s.placed, i.LeftBy roots j := by
  obtain ⟨p, hopening⟩ := sound_opening (setupOf order roots pool) hrooted
  have hstart : Vacated (setupOf order roots pool) roots ⟨p, [], none, opening roots⟩ :=
    ⟨⟨[], by simp [opening], by simp [opening], by simp⟩, by simp, by simp [opening]⟩
  -- the invariant holds at the start, and every act preserves it
  obtain ⟨p', hsound, hvacated⟩ := invariant_of_reaches
    (I := Vacated (setupOf order roots pool) roots)
    (fun _ _ _ _ hsound h hline => h.ready hsound hline)
    (fun _ _ hsound h => h.act hrooted hwrites hsound) hopening hstart hreach
  -- a piece in a slot is finished
  have hslot : ∀ i ∈ s.placed, ∀ slot, i.location = some (.slot slot) → i ∈ s.done := by
    intro i hi slot hloc
    rcases List.mem_append.1 (s.placed_perm.mem_iff.2 hi) with hi | hi
    · exact hi
    · obtain ⟨-, name, -, hreg⟩ := hsound.begun i hi
      simp [hreg] at hloc
  intro i hi j hj hne slot hislot hjslot
  exact hvacated.done i (hslot i hi slot hislot) j (hslot j hj slot hjslot) hne slot hislot hjslot

end Sweep

end RegAlloc
