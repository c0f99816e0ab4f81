import Mathlib.Data.List.Sort
import RegAlloc.Proofs.Sweep.Whole

/-!
# A sweep serves every use

Whatever a sweep finishes has a place that suits its uses: a register of the pool, or memory
for as long as nothing needs the value in a register. What it cuts off gets the next free
number, so that the pieces are numbered without gaps.

- `Interval.Served` — a piece in a place that suits its uses;
- `Serving` — the invariant: finished pieces are served, and those in hand that are in a
  register are in one of the pool;
- `Numbered` — the invariant: the numbers given so far are those up to the next one;
- `nodup_ids` — no number is given twice;
- `served_placed`, `ids_placed` — what holds when a sweep is over.
-/

namespace RegAlloc

/-- A piece that is in a register of the pool, or in memory with no use that needs a register. -/
def Interval.Served (pool : List String) (i : Interval) : Prop :=
  ∃ l, i.location = some l ∧
    match l with
    | .register name => name ∈ pool
    | .slot _ => ∀ u ∈ i.uses, u.policy ≠ .register

namespace Sweep

variable {setup : Setup} {roots : List Interval}

/-! ## Places that suit -/

/-- Finished pieces are served, and a register that a piece in hand is in is in the pool. -/
structure Serving (setup : Setup) (m : Midway) : Prop where
  done : ∀ i ∈ m.sweep.done, i.Served setup.pool
  hand : ∀ i ∈ m.hand, ∀ name, i.location = some (.register name) → name ∈ setup.pool

namespace Serving

variable {m m' : Midway} {p : Position} {i : Interval} {hand : List Interval}
  {promised promised' : Option (String × Interval)} {s s' : Sweep}

/-- Finishing a piece that is served. -/
theorem finish (h : Serving setup ⟨p, i :: hand, promised, s⟩) {k : Interval}
    (hk : k.Served setup.pool) (hdone : s'.done = s.done ++ [k]) :
    Serving setup ⟨p, hand, promised', s'⟩ := by
  refine ⟨fun j hj => ?_, fun j hj => h.hand j (by simp [hj])⟩
  simp only [hdone, List.mem_append, List.mem_singleton] at hj
  rcases hj with hj | rfl
  · exact h.done j hj
  · exact hk

/-- Sending an interval in hand to memory. -/
theorem toSlot {slot : Nat} {r : VReg} (h : Serving setup ⟨p, i :: hand, promised, s⟩)
    (hhome : s.homeSlot r = (s', slot)) :
    Serving setup ⟨p, { i with location := some (.slot slot) } :: hand, promised', s'⟩ := by
  have hdone : s'.done = s.done := by rw [homeSlot_frame hhome]
  refine ⟨fun j hj => h.done j (hdone ▸ hj), fun j hj name hloc => ?_⟩
  rcases List.mem_cons.1 hj with rfl | hj
  · cases hloc
  · exact h.hand j (by simp [hj]) name hloc

/-- Every act keeps uses served. -/
theorem act (h : Serving setup m) (hsound : Sound setup roots m) (hact : Act setup m m') :
    Serving setup m' := by
  cases hact with
  | @pick p hand picked promised s active inactive _ _ hperm =>
    refine ⟨h.done, fun i hi name hloc => ?_⟩
    rcases List.mem_append.1 hi with hi | hi
    -- whoever is picked up is in a register of the pool
    · obtain ⟨-, other, hother, hreg⟩ := hsound.begun i (hperm.mem_iff.2 (by simp [hi]))
      cases hreg.symm.trans hloc
      exact hother
    · exact h.hand i hi name hloc
  | @displace p q rival hand promised s _ _ _ _ hplaced =>
    obtain ⟨name, hname, hloc⟩ := hplaced
    exact h.finish (k := rival.keepBefore q) ⟨_, hloc, hname⟩ rfl
  | store _ _ hhome => exact h.toSlot hhome
  | leaveWhole _ _ _ _ _ hhome => exact h.toSlot hhome
  | @leave p q i current name s s' slot _ hloc _ _ _ _ _ _ hhome _ _ =>
    have hfront : Serving setup ⟨p, [i.cutOff q s.nextId, current], none, s.finishFront i q⟩ := by
      -- the front was served by its register, and the rest has no location yet
      have hfinished : Serving setup ⟨p, [current], none, s.finishFront i q⟩ :=
        h.finish (k := i.keepBefore q) ⟨_, hloc, h.hand i (by simp) name hloc⟩ rfl
      refine ⟨hfinished.done, fun j hj name' hloc' => ?_⟩
      rcases List.mem_cons.1 hj with rfl | hj
      · simp at hloc'
      · exact hfinished.hand j hj name' hloc'
    exact hfront.toSlot hhome
  | @finish p i hand promised s slot hloc hunused => exact h.finish ⟨_, hloc, hunused⟩ rfl
  | @reload p q limit use i hand promised s slot hloc _ _ _ _ hle _ _ hunused =>
    refine h.finish (k := i.keepBefore q) ⟨_, hloc, fun u hu hpolicy => ?_⟩ rfl
    -- what is kept in memory ends before the next required use
    obtain ⟨hu, hlt⟩ := Interval.mem_uses_keepBefore.1 hu
    have := hunused u hu hpolicy
    lia
  | settle => exact ⟨h.done, by simp⟩

/-- Moving on to the next interval keeps uses served. -/
theorem ready {current : Interval} {rest : List Interval}
    (h : Serving setup ⟨p, [], none, s⟩) (hsound : Sound setup roots ⟨p, [], none, s⟩)
    (hline : s.waiting = current :: rest) :
    Serving setup
      ⟨current.start, [current], none, { s with waiting := rest }.ready setup current.start⟩ := by
  refine ⟨fun i hi => ?_, fun i hi name hloc => ?_⟩
  · rcases hsound.mem_done_ready hi with hi | ⟨name, hname, hloc⟩
    · exact h.done i hi
    · exact ⟨_, hloc, hname⟩
  · cases List.mem_singleton.1 hi
    simp [(hsound.ahead current (by simp [hline])).2] at hloc

end Serving

/-! ## Numbers of pieces -/

/-- The first numbers. -/
def ids (n : Nat) : List IntervalId := (List.range n).map Int.ofNat

theorem ids_succ (n : Nat) : ids (n + 1) = ids n ++ [Int.ofNat n] := by
  simp [ids, List.range_succ]

/-- The numbers given so far are those up to the next one. -/
def Numbered (m : Midway) : Prop :=
  ((m.sweep.done ++ (m.hand ++ m.sweep.pending)).map (·.id)).Perm (ids m.sweep.nextId)

/-- A cut gives the next number to what is cut off. -/
theorem perm_ids_cut {finished pending : List Interval} {i : Interval} {n : Nat}
    (h : ((finished ++ i :: pending).map (·.id)).Perm (ids n)) (q : Position) (rest : Interval)
    (hrest : rest.id = n) :
    ((finished ++ [i.keepBefore q] ++ rest :: pending).map (·.id)).Perm (ids (n + 1)) := by
  have hkept : (i.keepBefore q).id = i.id := rfl
  have hmiddle : (finished ++ [i.keepBefore q] ++ rest :: pending).Perm
      (rest :: (finished ++ i.keepBefore q :: pending)) := by
    simpa using (List.perm_middle : (finished ++ [i.keepBefore q] ++ rest :: pending).Perm _)
  calc ((finished ++ [i.keepBefore q] ++ rest :: pending).map (·.id)).Perm
        ((rest :: (finished ++ i.keepBefore q :: pending)).map (·.id)) := hmiddle.map _
    _ = (n : Int) :: (finished ++ i :: pending).map (·.id) := by simp [hrest, hkept]
    _ |>.Perm ((n : Int) :: ids n) := h.cons _
    _ |>.Perm (ids n ++ [(n : Int)]) := (List.perm_append_singleton ..).symm
    _ = ids (n + 1) := (ids_succ n).symm

/-- Every act numbers what it cuts off. -/
theorem Numbered.act {m m' : Midway} (h : Numbered m) (hact : Act setup m m') : Numbered m' := by
  cases hact with
  | pick _ _ hperm => exact ((((perm_pick _ hperm).symm.append_left _).map _)).trans h
  | @displace p q rival hand promised s =>
    -- a cut gives the next number to the rest
    have hcut := perm_ids_cut h q (rival.cutOff q s.nextId) rfl
    exact (((perm_enqueue _ hand (s.finishFront rival q)).symm.append_left _).map _).trans hcut
  | @store p current s s' slot _ _ hhome =>
    rw [homeSlot_frame hhome]
    simpa [Numbered, pending] using h
  | @leaveWhole p i current name s s' slot _ _ _ _ _ hhome =>
    rw [homeSlot_frame hhome]
    simpa [Numbered, pending] using h
  | @leave p q i current name s s' slot _ _ _ _ _ _ _ _ hhome =>
    rw [homeSlot_frame hhome]
    exact perm_ids_cut h q { i.cutOff q s.nextId with location := some (.slot slot) } rfl
  | finish => simpa [Numbered, pending] using h
  | @reload p q limit use i hand promised s =>
    have hcut := perm_ids_cut h q (i.cutOff q s.nextId) rfl
    exact (((perm_enqueue _ hand (s.finishFront i q)).symm.append_left _).map _).trans hcut
  | @settle p current name promised s =>
    have hperm := perm_settle { current with location := some (.register name) } s
    refine ((hperm.symm.append_left _).map _).trans ?_
    simpa [Numbered] using h

/-- Moving on to the next interval gives no numbers. -/
theorem Numbered.ready {p : Position} {s : Sweep} {current : Interval} {rest : List Interval}
    (h : Numbered ⟨p, [], none, s⟩) (hline : s.waiting = current :: rest) :
    Numbered
      ⟨current.start, [current], none, { s with waiting := rest }.ready setup current.start⟩ := by
  obtain ⟨ended, hdone, -, hperm⟩ := perm_ready setup [current] { s with waiting := rest }
    current.start
  have hnext : ({ s with waiting := rest }.ready setup current.start).nextId = s.nextId := rfl
  rw [Numbered, hdone, List.append_assoc, hnext]
  refine ((hperm.symm.append_left _).map _).trans ?_
  simpa [Numbered, pending, hline] using h

/-! ## Runs -/

variable {order : LinearOrder} {pool : List String} {s : Sweep}

/-- Every piece that a sweep leaves is served. -/
theorem served_placed (hrooted : Rooted roots)
    (hreach : Reaches (setupOf order roots pool) (opening roots) s) :
    ∀ i ∈ s.placed, i.Served pool := by
  obtain ⟨p, hopening⟩ := sound_opening (setupOf order roots pool) hrooted
  obtain ⟨p', hsound, hserving⟩ := invariant_of_reaches (I := Serving (setupOf order roots pool))
    (fun _ _ _ _ hsound h hline => h.ready hsound hline) (fun _ _ hsound h => h.act hsound)
    hopening ⟨by simp [opening], by simp⟩ hreach
  intro i hi
  rcases List.mem_append.1 (s.placed_perm.mem_iff.2 hi) with hi | hi
  · exact hserving.done i hi
  · obtain ⟨-, name, hname, hloc⟩ := hsound.begun i hi
    exact ⟨_, hloc, hname⟩

theorem listedBefore_trans (i j k : Interval) (hij : listedBefore i j = true)
    (hjk : listedBefore j k = true) : listedBefore i k = true := by
  simp only [listedBefore, Bool.or_eq_true, Bool.and_eq_true, decide_eq_true_eq, beq_iff_eq,
    bne_iff_ne] at *
  grind

/-- In every state that a run comes through, the numbers given are those up to the next one. -/
theorem numbered_of_reaches (hrooted : Rooted roots) (hids : roots.map (·.id) = ids roots.length)
    (hreach : Reaches setup (opening roots) s) :
    ((s.done ++ s.pending).map (·.id)).Perm (ids s.nextId) := by
  obtain ⟨p, hopening⟩ := sound_opening setup hrooted
  have hstart : Numbered ⟨p, [], none, opening roots⟩ := by
    have hline := (sortBy_perm takenBefore roots).map (·.id)
    simpa [Numbered, pending, opening, ← hids] using hline
  obtain ⟨p', -, hnumbered⟩ := invariant_of_reaches (I := Numbered)
    (fun _ _ _ _ _ h hline => h.ready hline) (fun _ _ _ h => h.act) hopening hstart hreach
  exact hnumbered

/-- No two intervals share a number, whether they wait or are placed. -/
theorem nodup_ids (hrooted : Rooted roots) (hids : roots.map (·.id) = ids roots.length)
    (hreach : Reaches setup (opening roots) s) :
    ((s.waiting ++ s.placed).map (·.id)).Nodup := by
  have hnodup : (ids s.nextId).Nodup := List.nodup_range.map fun _ _ => Int.ofNat.inj
  have hperm : (s.waiting ++ s.placed).Perm (s.done ++ s.pending) :=
    (s.placed_perm.symm.append_left _).trans (List.perm_append_comm_assoc ..)
  exact ((hperm.map _).trans (numbered_of_reaches hrooted hids hreach)).nodup_iff.2 hnodup

/-- The pieces that a sweep leaves are listed by their numbers, from zero on. -/
theorem ids_placed (hrooted : Rooted roots) (hids : roots.map (·.id) = ids roots.length)
    (hreach : Reaches (setupOf order roots pool) (opening roots) s) (hempty : s.waiting = []) :
    s.placed.map (·.id) = ids s.placed.length := by
  have hperm : (s.placed.map (·.id)).Perm (ids s.nextId) := by
    -- everybody who was numbered has been placed, since nobody waits
    refine (s.placed_perm.symm.map _).trans ?_
    simpa [pending, hempty] using numbered_of_reaches hrooted hids hreach
  have hlength : s.placed.length = s.nextId := by
    simpa [ids] using hperm.length_eq
  -- the pieces are listed by number, and no two share one
  have hnodup : ((s.done ++ s.active ++ s.inactive).map (·.id)).Nodup := by
    have hlisted : (s.done ++ s.active ++ s.inactive).Perm s.placed := (sortBy_perm ..).symm
    refine (hlisted.map _).nodup_iff.2 ?_
    simpa [hempty] using nodup_ids hrooted hids hreach
  have hsorted : s.placed.Pairwise fun i j => listedBefore i j = true := by
    refine pairwise_sortBy listedBefore_trans ((List.pairwise_map.1 hnodup).imp fun hne => ?_)
    simp only [listedBefore, Bool.or_eq_true, decide_eq_true_eq]
    rcases Int.lt_or_gt_of_ne hne with hlt | hgt
    · exact .inl (.inl hlt)
    · exact .inr (.inl hgt)
  rw [hlength]
  refine hperm.eq_of_pairwise' (r := (· ≤ ·)) ?_ ?_
  · refine List.pairwise_map.2 (hsorted.imp fun h => ?_)
    simp only [listedBefore, Bool.or_eq_true, Bool.and_eq_true, decide_eq_true_eq, beq_iff_eq] at h
    lia
  · exact List.pairwise_map.2 (List.pairwise_lt_range.imp fun h => by simp; lia)

end Sweep

end RegAlloc
