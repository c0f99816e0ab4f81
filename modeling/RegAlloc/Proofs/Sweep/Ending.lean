import Mathlib.Data.Int.Interval
import Mathlib.Data.Set.Card
import RegAlloc.Proofs.Sweep.Whole

/-!
# Every sweep ends

A step may put several pieces back in line, some of them where the sweep stands, so neither
the position nor the length of the line shows that a run ends. What shows it is an account of
the covered positions: a cut divides them, nothing ever joins them again, and whatever was
taken off the line keeps at least one of them for good. Nothing else is asked of the intervals:
their ranges may touch, their uses may lie anywhere, and several may share a register.

- `Ranges.ncard_covers` — the size of disjoint ranges is the number of positions that they
  cover;
- `Sweep.Balanced` — the account, and `Balanced.cut`, `Balanced.take_iff` what changes it;
- `Sweep.step_inBalance` — every step keeps the account;
- `Sweep.Takes` — what has come of taking a number of intervals off the line;
- `sweep_ends` — a run takes at most as many intervals as there are covered positions.
-/

namespace RegAlloc

/-! ## Counting positions -/

namespace Range

theorem finite_covers (r : Range) : {p | r.covers p = true}.Finite := by
  refine (Set.finite_Ico r.start r.stop).subset fun p hp => ?_
  exact covers_iff.1 hp

/-- The size of a range is the number of positions that it covers. -/
theorem ncard_covers (r : Range) : {p | r.covers p = true}.ncard = r.size := by
  have hcovers : {p | r.covers p = true} = (Finset.Ico r.start r.stop : Set Position) := by
    ext p
    simp [covers_iff]
  rw [hcovers, Set.ncard_coe_finset, Int.card_Ico, size]

end Range

namespace Ranges

theorem setOf_covers_cons (r : Range) (rs : List Range) :
    {p | covers (r :: rs) p = true} = {p | r.covers p = true} ∪ {p | covers rs p = true} := by
  ext p
  simp

theorem finite_covers (rs : List Range) : {p | covers rs p = true}.Finite := by
  induction rs with
  | nil => simp
  | cons r rs ih =>
    rw [setOf_covers_cons]
    exact r.finite_covers.union ih

/-- The size of disjoint ranges is the number of positions that they cover. -/
theorem ncard_covers {rs : List Range} (h : Ascending rs) :
    {p | covers rs p = true}.ncard = size rs := by
  induction rs with
  | nil => simp [size]
  | cons r rs ih =>
    obtain ⟨hfirst, hrest⟩ := List.pairwise_cons.1 h.apart
    have hdisjoint : Disjoint {p | r.covers p = true} {p | covers rs p = true} := by
      refine Set.disjoint_left.2 fun p hp hcovers => ?_
      obtain ⟨s, hs, hstart, -⟩ := covers_iff.1 hcovers
      have hapart : r.stop ≤ s.start := hfirst s hs
      have hlt : p < r.stop := (Range.covers_iff.1 hp).2
      lia
    rw [setOf_covers_cons, Set.ncard_union_eq hdisjoint r.finite_covers (finite_covers rs),
      r.ncard_covers, ih ⟨fun s hs => h.nonempty s (by simp [hs]), hrest⟩, size_cons]

theorem size_before_cons (r : Range) (rs : List Range) (p : Position) :
    size (before (r :: rs) p) = (min r.stop p - r.start).toNat + size (before rs p) := by
  cases hr : r.before? p with
  | none =>
    have hle : p ≤ r.start := before?_eq_none hr
    have hzero : (min r.stop p - r.start).toNat = 0 := by lia
    simp [before, hr, hzero]
  | some s =>
    have hsize : s.size = (min r.stop p - r.start).toNat := by
      rw [Range.before?] at hr
      split at hr
      · cases hr
        rw [Range.size, min_eq_left (by assumption)]
      · split at hr <;> cases hr
        rw [Range.size, min_eq_right (by lia)]
    simp [size_cons, hsize, before, hr]

/-- A cut divides the positions. -/
theorem size_before_add_onward (rs : List Range) (p : Position) :
    size (before rs p) + size (onward rs p) = size rs := by
  induction rs with
  | nil => rfl
  | cons r rs ih =>
    rw [size_before_cons, size_onward_cons, size_cons, Range.size]
    omega

end Ranges

namespace Interval

/-- An interval with ranges, none of them empty. -/
structure Solid (i : Interval) : Prop where
  nonempty : i.ranges ≠ []
  solid : ∀ r ∈ i.ranges, r.start < r.stop

variable {i : Interval} {p : Position}

theorem Solid.one_le_size (h : i.Solid) : 1 ≤ Ranges.size i.ranges := by
  obtain ⟨r, rest, hr⟩ := List.exists_cons_of_ne_nil h.nonempty
  have hlt : r.start < r.stop := h.solid r (by simp [hr])
  rw [hr, Ranges.size_cons, Range.size]
  lia

/-- What is kept before a cut is not empty, since the first range starts before it. -/
theorem Solid.keepBefore (h : i.Solid) (hp : i.start < p) : (i.keepBefore p).Solid where
  nonempty hnil := by
    -- the first range starts before the cut, so some of it is kept
    obtain ⟨r, rest, hr⟩ := List.exists_cons_of_ne_nil h.nonempty
    have hstart : i.start = r.start := by simp [start, start?, hr]
    have hnone : r.before? p = none :=
      List.filterMap_eq_nil_iff.1 hnil r (by simp [hr])
    have := Ranges.before?_eq_none hnone
    lia
  solid s hs := by
    obtain ⟨r, hr, hbefore⟩ := List.mem_filterMap.1 hs
    have hlt := h.solid r hr
    -- a range is kept whole or cut short
    rw [Range.before?] at hbefore
    split at hbefore
    · cases hbefore
      exact hlt
    · split at hbefore <;> cases hbefore
      show r.start < p
      lia

/-- What is cut off is not empty, since the last range stops behind the cut. -/
theorem Solid.cutOff (h : i.Solid) (hp : p < i.stop) (id : IntervalId) :
    (i.cutOff p id).Solid where
  nonempty hnil := by
    -- the last range stops behind the cut, so some of it goes to the rest
    have hlast := List.getLast?_eq_some_getLast h.nonempty
    have hstop : i.stop = (i.ranges.getLast h.nonempty).stop := by simp [stop, stop?, hlast]
    have hnone := List.filterMap_eq_nil_iff.1 hnil _ (List.getLast_mem h.nonempty)
    have := Ranges.onward?_eq_none hnone
    lia
  solid s hs := by
    obtain ⟨r, hr, honward⟩ := List.mem_filterMap.1 hs
    have hlt := h.solid r hr
    -- a range goes to the rest whole, from the cut on or not at all
    rw [Range.onward?] at honward
    split at honward
    · cases honward
    · split at honward <;> cases honward
      · exact hlt
      · show p < r.stop
        lia

end Interval

namespace Sweep

/-! ## The account -/

/-- The account of a sweep: what waits and what is held have together the positions that there
were at the start, and at least `count` intervals are held. -/
structure Balanced (total count : Nat) (line held : List Interval) : Prop where
  solid : ∀ i ∈ line ++ held, i.Solid
  conserved : coverage line + coverage held = total
  counted : count ≤ held.length

theorem length_le_coverage {l : List Interval} (h : ∀ i ∈ l, i.Solid) : l.length ≤ coverage l := by
  induction l with
  | nil => exact Nat.le_refl _
  | cons i l ih =>
    obtain ⟨hi, hl⟩ := List.forall_mem_cons.1 h
    have hone := hi.one_le_size
    have hrest := ih hl
    rw [List.length_cons, coverage_cons]
    omega

namespace Balanced

variable {total count : Nat} {line line' held held' : List Interval} {i : Interval}

/-- Everything that is held has a position of its own. -/
theorem count_le (h : Balanced total count line held) : count ≤ total := by
  have hlength := length_le_coverage fun i hi => h.solid i (List.mem_append_right _ hi)
  have hcounted := h.counted
  have hconserved := h.conserved
  omega

theorem perm (h : Balanced total count line held) (hline : line.Perm line')
    (hheld : held.Perm held') : Balanced total count line' held' where
  solid i hi := h.solid i ((hline.append hheld).mem_iff.2 hi)
  conserved := by
    rw [← coverage_perm hline, ← coverage_perm hheld]
    exact h.conserved
  counted := hheld.length_eq ▸ h.counted

theorem relocate (h : Balanced total count line (i :: held)) (location : Option Location) :
    Balanced total count line ({ i with location } :: held) where
  solid j hj := by
    have hi : i.Solid := h.solid i (by simp)
    rcases List.mem_append.1 hj with hj | hj
    · exact h.solid j (by simp [hj])
    · rcases List.mem_cons.1 hj with rfl | hj
      · exact ⟨hi.nonempty, hi.solid⟩
      · exact h.solid j (by simp [hj])
  conserved := h.conserved
  counted := h.counted

/-- Taking an interval off the line counts, and putting one back is the reverse. -/
theorem take_iff :
    Balanced total (count + 1) line (i :: held) ↔ Balanced total count (i :: line) held := by
  have hmem : ∀ j, j ∈ line ++ i :: held ↔ j ∈ (i :: line) ++ held := fun _ =>
    List.perm_middle.mem_iff
  -- on both sides the interval is counted once, in the line or in hand
  constructor
  · intro h
    have hconserved := h.conserved
    have hcounted := h.counted
    rw [coverage_cons] at hconserved
    rw [List.length_cons] at hcounted
    refine ⟨fun j hj => h.solid j ((hmem j).2 hj), ?_, by omega⟩
    rw [coverage_cons]
    omega
  · intro h
    have hconserved := h.conserved
    have hcounted := h.counted
    rw [coverage_cons] at hconserved
    refine ⟨fun j hj => h.solid j ((hmem j).1 hj), ?_, ?_⟩
    · rw [coverage_cons]
      omega
    · rw [List.length_cons]
      omega

/-- A cut makes one more interval, and divides the positions between the two. -/
theorem cut (h : Balanced total count line (i :: held)) {q : Position} (hstart : i.start < q)
    (hstop : q < i.stop) (id : IntervalId) :
    Balanced total (count + 1) line (i.cutOff q id :: i.keepBefore q :: held) where
  solid j hj := by
    have hi : i.Solid := h.solid i (by simp)
    simp only [List.mem_append, List.mem_cons] at hj
    rcases hj with hj | rfl | rfl | hj
    · exact h.solid j (by simp [hj])
    · exact hi.cutOff hstop id
    · exact hi.keepBefore hstart
    · exact h.solid j (by simp [hj])
  conserved := by
    have hsize : Ranges.size (i.keepBefore q).ranges + Ranges.size (i.cutOff q id).ranges =
        Ranges.size i.ranges := Ranges.size_before_add_onward i.ranges q
    have hconserved := h.conserved
    simp only [coverage_cons] at hconserved ⊢
    omega
  counted := Nat.succ_le_succ h.counted

theorem weaken (h : Balanced total (count + 1) line held) : Balanced total count line held :=
  ⟨h.solid, h.conserved, Nat.le_of_succ_le h.counted⟩

end Balanced

/-- A sweep with intervals in hand keeps the account: it holds those and the ones placed. -/
def InBalance (total count : Nat) (hand : List Interval) (s : Sweep) : Prop :=
  Balanced total count s.waiting (hand ++ (s.done ++ (s.active ++ s.inactive)))

/-- The causes for which a step stops: any but that the sweep is given up unfinished. -/
def Refused (v : Violation) : Prop := v ≠ .sweepUnfinished

variable {total count : Nat} {hand : List Interval} {setup : Setup} {s : Sweep} {i : Interval}

/-! ## Parts of a step -/

/-- An interval in hand is done. -/
theorem InBalance.finish (h : InBalance total count (i :: hand) s) :
    InBalance total count hand { s with done := s.done ++ [i] } := by
  refine Balanced.perm h (.refl _) (List.perm_iff_count.2 fun x => ?_)
  simp only [List.count_append, List.count_cons, List.count_nil]
  omega

/-- An interval in hand becomes active. -/
theorem InBalance.activate (h : InBalance total count (i :: hand) s) :
    InBalance total count hand { s with active := s.active ++ [i] } := by
  refine Balanced.perm h (.refl _) (List.perm_iff_count.2 fun x => ?_)
  simp only [List.count_append, List.count_cons, List.count_nil]
  omega

/-- An interval in hand is cut, and the rest stays in hand. -/
theorem InBalance.cut (h : InBalance total count (i :: hand) s) {q : Position}
    (hstart : i.start < q) (hstop : q < i.stop) :
    InBalance total (count + 1) (i.cutOff q s.nextId :: hand) (s.finishFront i q) := by
  rw [InBalance, List.cons_append] at h
  refine (h.cut hstart hstop s.nextId).perm (.refl _) (List.perm_iff_count.2 fun x => ?_)
  simp only [finishFront, List.count_append, List.count_cons, List.count_nil]
  omega

/-- An interval in hand is cut, and the rest goes back in line. -/
theorem InBalance.cutBack (h : InBalance total count (i :: hand) s) {q : Position}
    (hstart : i.start < q) (hstop : q < i.stop) :
    InBalance total count hand ((s.finishFront i q).enqueue (i.cutOff q s.nextId)) :=
  (Balanced.take_iff.1 (h.cut hstart hstop)).perm (insertBefore_perm ..).symm (.refl _)

/-- Finding a home does not touch the account. -/
theorem InBalance.homeSlot (h : InBalance total count hand s) (r : VReg) :
    InBalance total count hand (s.homeSlot r).1 := by
  rw [homeSlot_frame (Prod.eta (s.homeSlot r)).symm]
  exact h

/-- A cut succeeds only strictly inside an interval. -/
theorem split_refused (i : Interval) (q : Position) (id : IntervalId) :
    Ensures (i.split q id) (fun sides =>
      i.start < q ∧ q < i.stop ∧ sides = (i.keepBefore q, i.cutOff q id)) Refused := by
  rw [Interval.split, Interval.checkNonempty]
  by_cases hempty : i.isEmpty = true
  · rw [if_pos hempty]
    exact Violation.noConfusion
  rw [if_neg hempty]
  by_cases hinside : i.start < q ∧ q < i.stop
  · rw [if_pos hinside]
    exact ⟨hinside.1, hinside.2, rfl⟩
  · rw [if_neg hinside]
    exact Violation.noConfusion

theorem registerOf_refused (i : Interval) :
    Ensures (registerOf i) (fun _ => True) Refused := by
  rw [registerOf]
  split
  · trivial
  · exact Violation.noConfusion

theorem checkRoom_refused (nextUse : Option Position) (p : Position) :
    Ensures (checkRoom nextUse p) (fun _ => True) Refused := by
  cases nextUse with
  | none => trivial
  | some use =>
    rw [checkRoom]
    split
    · trivial
    · exact Violation.noConfusion

/-- A rival is cut where it resumes. -/
theorem displace_inBalance (p : Position) (h : InBalance total count (i :: hand) s) :
    Ensures (displace p s i) (InBalance total count hand) Refused := by
  rw [displace]
  cases i.nextRangeStart? p with
  | none => exact Violation.noConfusion
  | some resume =>
    refine Ensures.bind (split_refused i resume s.nextId) ?_
    rintro _ ⟨hstart, hstop, rfl⟩
    exact h.cutBack hstart hstop

/-- Taking a register puts the interval in hand among the active ones, once its rivals have
been cut one after the other. -/
theorem assign_inBalance (name : String) (p : Position) (h : InBalance total count [i] s) :
    Ensures (s.assign i name p) (InBalance total count []) Refused := by
  rw [assign]
  refine Ensures.bind (Ensures.foldlM (fun rivals s' => InBalance total count (rivals ++ [i]) s')
    (fun rival rest s' h' => displace_inBalance p h') ?_) fun s' h' => ?_
  · refine Balanced.perm h (.refl _) (List.perm_iff_count.2 fun x => ?_)
    have := (List.filter_append_perm (fun j : Interval => j.isIn name && j.meets i)
      s.inactive).count_eq x
    simp only [rivals, List.count_append, List.count_cons, List.count_nil] at this ⊢
    omega
  · exact InBalance.activate (Balanced.relocate h' _)

/-- An interval that goes to memory is done, or is cut and waits for a register again. -/
theorem spill_inBalance (nextUse : Option Position) (p : Position)
    (h : InBalance total count (i :: hand) s) :
    Ensures (s.spill setup i nextUse p) (InBalance total count hand) Refused := by
  have hstored := Balanced.relocate (h.homeSlot i.register)
    (some (.slot (s.homeSlot i.register).2))
  rw [spill]
  cases nextUse with
  | none => exact InBalance.finish hstored
  | some use =>
    refine Ensures.bind (split_refused ..) ?_
    rintro _ ⟨hstart, hstop, rfl⟩
    exact InBalance.cutBack hstored hstart hstop

/-- An interval that leaves its register goes to memory, or what is left of it does. -/
theorem evict_inBalance (limit : Position) (nextUse : Option Position) (p : Position)
    (h : InBalance total count (i :: hand) s) :
    Ensures (s.evict setup i limit nextUse p) (InBalance total count hand) Refused := by
  rw [evict]
  by_cases hlimit : limit ≤ i.start
  · rw [if_pos hlimit]
    exact spill_inBalance nextUse p h
  · rw [if_neg hlimit]
    refine Ensures.bind (split_refused ..) ?_
    rintro _ ⟨hstart, hstop, rfl⟩
    exact spill_inBalance nextUse p (h.cut hstart hstop).weaken

/-- Making room finds a place for the interval in hand. -/
theorem makeRoom_inBalance (p : Position) (h : InBalance total count [i] s) :
    Ensures (s.makeRoom setup i p) (InBalance total count []) Refused := by
  rw [makeRoom]
  rcases victim_cases s i p with hvictim | ⟨index, j, hindex, hvictim⟩ <;> rw [hvictim]
  · exact Ensures.bind (checkRoom_refused ..) fun _ _ => spill_inBalance _ p h
  · refine Ensures.bind (checkRoom_refused ..) fun _ _ =>
      Ensures.bind (registerOf_refused j) fun name _ => ?_
    obtain ⟨hlt, hget⟩ := List.getElem?_eq_some_iff.1 hindex
    have hsplit : s.active.Perm (j :: s.active.eraseIdx index) :=
      hget ▸ (List.getElem_cons_eraseIdx_perm hlt).symm
    refine Ensures.bind (evict_inBalance _ _ p ?_) fun s' h' => assign_inBalance name p h'
    refine Balanced.perm h (.refl _) (List.perm_iff_count.2 fun x => ?_)
    have := hsplit.count_eq x
    simp only [List.count_append, List.count_cons, List.count_nil] at this ⊢
    omega

/-- An interval that wakes goes to one of the lists. -/
theorem wake_inBalance (p : Position) (h : InBalance total count (i :: hand) s) :
    Ensures (wake p s i) (InBalance total count hand) Refused := by
  rw [wake]
  by_cases hended : i.stop ≤ p
  · rw [if_pos hended]
    exact h.finish
  rw [if_neg hended]
  by_cases hcovers : i.covers p = true
  · rw [if_pos hcovers]
    refine Ensures.bind (registerOf_refused i) fun name _ => ?_
    split
    · exact h.activate
    · exact Violation.noConfusion
  · rw [if_neg hcovers]
    -- in a hole it only changes lists
    refine Balanced.perm h (.refl _) (List.perm_iff_count.2 fun x => ?_)
    simp only [List.count_append, List.count_cons, List.count_nil]
    omega

/-- Moving on only moves intervals between the lists. -/
theorem advance_inBalance (p : Position) (h : InBalance total count hand s) :
    Ensures (s.advance p) (InBalance total count hand) Refused := by
  rw [advance]
  refine Ensures.bind (P := fun _ => True) ?_ fun _ _ => ?_
  · refine Ensures.forM fun j _ => ?_
    exact Ensures.bind (registerOf_refused j) fun _ _ => trivial
  · refine Ensures.foldlM (fun waking s' => InBalance total count (waking ++ hand) s')
      (fun i rest s' h' => wake_inBalance p h') ?_
    refine Balanced.perm h (.refl _) (List.perm_iff_count.2 fun x => ?_)
    have := (perm_ended_running_resting p s.active).count_eq x
    simp only [List.filter_filter, List.count_append, List.count_nil, Bool.and_comm] at this ⊢
    omega

/-- Every step gives what it takes off the line a place, and keeps the account. -/
theorem step_inBalance (h : InBalance total count [i] s) :
    Ensures (step setup s i) (InBalance total count []) Refused := by
  rw [step]
  refine Ensures.bind (advance_inBalance i.start h) fun s' h' => ?_
  have hready : InBalance total count [i] (s'.releaseSlots setup i.start) := h'
  dsimp only
  split
  · exact assign_inBalance _ _ hready
  · exact makeRoom_inBalance _ hready

/-! ## Runs -/

/-- What has come of taking `n` intervals off the line and making the step for each: a state,
or the cause for which the last step stopped. -/
inductive Takes (setup : Setup) (first : Sweep) : Nat → Except Violation Sweep → Prop where
  | start : Takes setup first 0 (.ok first)
  | take {n : Nat} {s : Sweep} {current : Interval} {rest : List Interval}
      (h : Takes setup first n (.ok s)) (hline : s.waiting = current :: rest) :
      Takes setup first (n + 1) (step setup { s with waiting := rest } current)

/-- An interval taken off the line is in hand. -/
theorem InBalance.take {current : Interval} {rest : List Interval}
    (h : InBalance total count [] s) (hline : s.waiting = current :: rest) :
    InBalance total (count + 1) [current] { s with waiting := rest } := by
  rw [InBalance, hline] at h
  exact Balanced.take_iff.2 h

namespace Takes

variable {first : Sweep} {n : Nat} {outcome : Except Violation Sweep}

/-- As many intervals are held as were taken. -/
theorem inBalance (hfirst : InBalance total 0 [] first) (h : Takes setup first n outcome) :
    Ensures outcome (InBalance total n []) Refused := by
  induction h with
  | start => exact hfirst
  | take _ hline ih => exact step_inBalance (InBalance.take ih hline)

/-- No more intervals are taken than there are positions, even if the last step stops. -/
theorem le (hfirst : InBalance total 0 [] first) (h : Takes setup first n outcome) :
    n ≤ total := by
  cases h with
  | start => exact Nat.zero_le _
  | take h hline =>
    have hbalance : InBalance total _ [] _ := h.inBalance hfirst
    exact Balanced.count_le (hbalance.take hline)

/-- Taking intervals comes to an end, since each take leaves room for fewer. -/
theorem exists_end (hfirst : InBalance total 0 [] first) (n : Nat)
    (outcome : Except Violation Sweep) (h : Takes setup first n outcome) :
    ∃ m last, Takes setup first m last ∧ Ensures last (·.waiting = []) Refused := by
  cases outcome with
  | error v => exact ⟨n, _, h, h.inBalance hfirst⟩
  | ok s =>
    cases hline : s.waiting with
    | nil => exact ⟨n, _, h, hline⟩
    | cons current rest =>
      have hle := (h.take hline).le hfirst
      exact exists_end hfirst (n + 1) _ (h.take hline)
termination_by total - n

/-- A run makes the same takes, with one unit of fuel for each. -/
theorem run_add (h : Takes setup first n outcome) (fuel : Nat) :
    run setup (n + fuel) first = outcome >>= run setup fuel := by
  induction h generalizing fuel with
  | start =>
    rw [Nat.zero_add]
    rfl
  | @take n s current rest _ hline ih =>
    have hrun : run setup (n + (fuel + 1)) first = run setup (fuel + 1) s := ih (fuel + 1)
    rw [Nat.add_right_comm, Nat.add_assoc, hrun, run, hline]

end Takes

theorem run_of_waiting_eq_nil (h : s.waiting = []) (fuel : Nat) : run setup fuel s = .ok s := by
  cases fuel <;> simp [run, h]

/-- Once taking intervals has come to an end, more fuel changes nothing. -/
theorem Takes.run_eq {first : Sweep} {n fuel : Nat} {outcome : Except Violation Sweep}
    (h : Takes setup first n outcome) (hend : Ensures outcome (·.waiting = []) Refused)
    (hfuel : n ≤ fuel) : run setup fuel first = outcome := by
  rw [← Nat.add_sub_cancel' hfuel, h.run_add]
  cases outcome with
  | error v => rfl
  | ok s => exact run_of_waiting_eq_nil hend _

/-! ## The end of a sweep -/

/-- The number of positions that intervals cover, counted for each by itself. -/
noncomputable def extent (roots : List Interval) : Nat :=
  (roots.map fun i => {p | i.covers p = true}.ncard).sum

theorem coverage_eq_extent {roots : List Interval}
    (h : ∀ i ∈ roots, Ranges.Ascending i.ranges) : coverage roots = extent roots := by
  induction roots with
  | nil => rfl
  | cons i roots ih =>
    obtain ⟨hi, hroots⟩ := List.forall_mem_cons.1 h
    rw [coverage_cons, ih hroots, extent, extent, List.map_cons, List.sum_cons,
      ← Ranges.ncard_covers hi]
    rfl

theorem inBalance_opening {roots : List Interval} (h : ∀ i ∈ roots, i.Solid) :
    InBalance (coverage roots) 0 [] (opening roots) where
  solid i hi := h i (by simpa [opening] using hi)
  conserved := coverage_perm (sortBy_perm takenBefore roots)
  counted := Nat.zero_le _

end Sweep

open Sweep in
/-- Whatever the intervals are used for and whatever the pool, a sweep of intervals with
disjoint ranges takes at most as many off the line as there are covered positions. So it comes
to an end, with nothing waiting or because a step stops, and never for lack of fuel. -/
theorem sweep_ends (order : LinearOrder) (pool : List String) {lives : List Lifetime}
    (hlives : ∀ life ∈ lives, life.root.ranges ≠ [] ∧ Ranges.Ascending life.root.ranges) :
    (∀ n outcome,
      Takes (setupOf order (lives.map (·.root)) pool) (opening (lives.map (·.root))) n outcome →
        n ≤ extent (lives.map (·.root))) ∧
    ∃ n outcome,
      Takes (setupOf order (lives.map (·.root)) pool) (opening (lives.map (·.root))) n outcome ∧
      Ensures outcome (·.waiting = []) (· ≠ .sweepUnfinished) ∧
      (∀ fuel, extent (lives.map (·.root)) ≤ fuel →
        run (setupOf order (lives.map (·.root)) pool) fuel (opening (lives.map (·.root))) =
          outcome) ∧
      sweep order lives pool = outcome.map fun s =>
        { lives := lives.map (collect s.placed), intervals := s.placed,
          slotCount := s.slotCount } := by
  have hroots : ∀ i ∈ lives.map (·.root), i.ranges ≠ [] ∧ Ranges.Ascending i.ranges := by
    simpa using hlives
  generalize hroot : lives.map (·.root) = roots at hroots ⊢
  have hextent : coverage roots = extent roots := coverage_eq_extent fun i hi => (hroots i hi).2
  have hfirst : InBalance (extent roots) 0 [] (opening roots) :=
    hextent ▸ inBalance_opening fun i hi => ⟨(hroots i hi).1, (hroots i hi).2.nonempty⟩
  -- the run ends, and takes no more steps than there are positions
  obtain ⟨n, outcome, htakes, hend⟩ :=
    Takes.exists_end hfirst 0 _ (.start : Takes (setupOf order roots pool) ..)
  have hrun : ∀ fuel, extent roots ≤ fuel →
      run (setupOf order roots pool) fuel (opening roots) = outcome := fun fuel hfuel =>
    htakes.run_eq hend (Nat.le_trans (htakes.le hfirst) hfuel)
  refine ⟨fun n outcome h => h.le hfirst, n, outcome, htakes, hend, hrun, ?_⟩
  -- the sweep is this run, with the positions covered as its fuel
  have hswept : sweep order lives pool = (do
      let s ← run (setupOf order roots pool) (coverage roots) (← lineUp roots)
      return { lives := lives.map (collect s.placed), intervals := s.placed,
               slotCount := s.slotCount }) := by
    rw [← hroot]
    rfl
  rw [hswept, lineUp_eq fun i hi => (hroots i hi).1]
  show (run (setupOf order roots pool) (coverage roots) (opening roots) >>= _) = _
  rw [hrun _ (Nat.le_of_eq hextent.symm)]
  cases outcome <;> rfl

/-- Two values, of which the second is live through a hole of the first. The ranges of the
first touch, and its only use lies where it is not live. -/
def touching : List Lifetime :=
  [{ root := { id := 0, register := 0, ranges := [⟨0, 2⟩, ⟨2, 4⟩, ⟨6, 10⟩],
               uses := [⟨20, .register, .read⟩] } },
   { root := { id := 1, register := 1, ranges := [⟨4, 8⟩] } }]

/-- The two values cover twelve positions, so at most twelve intervals are taken. -/
theorem sweep_ends_touching :
    (∀ life ∈ touching, life.root.ranges ≠ [] ∧ Ranges.Ascending life.root.ranges) ∧
      Sweep.extent (touching.map (·.root)) = 12 ∧
      ∀ n outcome, Sweep.Takes (Sweep.setupOf default (touching.map (·.root)) ["r0"])
        (Sweep.opening (touching.map (·.root))) n outcome →
          n ≤ Sweep.extent (touching.map (·.root)) := by
  refine ⟨by decide, ?_, (sweep_ends default ["r0"] (by decide)).1⟩
  rw [← Sweep.coverage_eq_extent (by decide)]
  rfl

end RegAlloc
