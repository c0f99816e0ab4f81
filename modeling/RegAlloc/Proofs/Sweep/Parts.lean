import RegAlloc.Proofs.Ensures
import RegAlloc.Proofs.Sorted
import RegAlloc.Proofs.Sweep.Holding
import RegAlloc.Sweep.Step

/-!
# The parts of a step

What each function of the sweep does, stated once so that no later proof has to open it.

- `takenBefore_iff`, `takenBefore_trans`, `takenBefore_total` — the order of the line;
- `Sweep.advanced`, `advance_eq` — moving on, when nobody fights over a register;
- `mem_of_choose` — the register that is chosen is free;
- `cutPosition_cases`, `cutPosition_le`, `le_lastUseBefore` — a cut falls into its window, and
  no use lies behind it there;
- `victim_cases` — the candidate for memory is the interval itself or an active one.
-/

namespace RegAlloc

namespace Sweep

/-! ## The order of the line -/

theorem takenBefore_iff {i j : Interval} :
    takenBefore i j = true ↔ i.start < j.start ∨ (i.start = j.start ∧
      (i.register < j.register ∨ (i.register = j.register ∧ i.id < j.id))) := by
  simp [takenBefore]

theorem takenBefore_trans (i j k : Interval) (hij : takenBefore i j = true)
    (hjk : takenBefore j k = true) : takenBefore i k = true := by
  rw [takenBefore_iff] at *
  lia

/-- Of two intervals of different registers one is taken before the other. -/
theorem takenBefore_total {i j : Interval} (hne : i.register ≠ j.register) :
    takenBefore i j = true ∨ takenBefore j i = true := by
  rw [takenBefore_iff, takenBefore_iff]
  lia

theorem start_le_of_takenBefore {i j : Interval} (h : takenBefore i j = true) :
    i.start ≤ j.start := by
  rw [takenBefore_iff] at h
  lia

/-! ## Moving on -/

theorem isIn_iff {i : Interval} {name : String} :
    i.isIn name = true ↔ i.location = some (.register name) := by
  simp [Interval.isIn]

theorem isFree_iff {s : Sweep} {name : String} :
    s.isFree name = true ↔ ∀ i ∈ s.active, i.location ≠ some (.register name) := by
  simp [isFree, isIn_iff]

theorem registerOf_eq_ok {i : Interval} {name : String} (h : i.location = some (.register name)) :
    registerOf i = .ok name := by
  simp [registerOf, Interval.register?, h, Location.register?]

/-- The state after moving on to a position. -/
def advanced (s : Sweep) (p : Position) : Sweep :=
  let resting := s.inactive ++ s.active.filter fun i => p < i.stop && !i.covers p
  { s with
    active := (s.active.filter fun i => p < i.stop && i.covers p)
      ++ resting.filter fun i => p < i.stop && i.covers p
    inactive := resting.filter fun i => p < i.stop && !i.covers p
    done := s.done ++ (s.active.filter (·.stop ≤ p) ++ resting.filter (·.stop ≤ p)) }

/-- The state after moving on and giving up slots, in which a step looks for a place. -/
def ready (setup : Setup) (s : Sweep) (p : Position) : Sweep :=
  (s.advanced p).releaseSlots setup p

/-- Waking intervals one by one sorts them by whether they have ended, resume or rest. -/
theorem foldlM_wake {p : Position} : ∀ {l : List Interval} {s : Sweep},
    (∀ i ∈ l, ∃ name, i.location = some (.register name)) →
    (∀ i ∈ s.active, i.covers p = true) → (s.active ++ l).Pairwise Interval.Apart →
    l.foldlM (wake p) s = .ok
      { s with
        active := s.active ++ l.filter fun i => p < i.stop && i.covers p
        inactive := s.inactive ++ l.filter fun i => p < i.stop && !i.covers p
        done := s.done ++ l.filter (·.stop ≤ p) }
  | [], s, _, _, _ => by simp [pure, Except.pure]
  | i :: rest, s, hheld, hcovers, hapart => by
    have hrest : ∀ j ∈ rest, ∃ name, j.location = some (.register name) :=
      fun j hj => hheld j (by simp [hj])
    have hsub : (s.active ++ rest).Pairwise Interval.Apart :=
      hapart.sublist ((List.sublist_cons_self i rest).append_left s.active)
    rw [List.foldlM_cons, wake]
    by_cases hended : i.stop ≤ p
    -- it has ended by `p`
    · rw [if_pos hended, pure_bind,
        foldlM_wake (s := { s with done := s.done ++ [i] }) hrest hcovers hsub]
      have hlt : ¬ p < i.stop := by lia
      simp [hended, hlt]
    have hlt : p < i.stop := by lia
    rw [if_neg hended]
    by_cases hresumes : i.covers p = true
    · obtain ⟨name, hname⟩ := hheld i (by simp)
      -- whoever is active covers `p` too, so cannot be in the same register
      have hfree : s.isFree name = true := by
        refine isFree_iff.2 fun j hj hjloc => ?_
        have hji : j.Apart i := (List.pairwise_append.1 hapart).2.2 j hj i (by simp)
        simp [hji name p hjloc hname (hcovers j hj)] at hresumes
      rw [if_pos hresumes, registerOf_eq_ok hname]
      simp only [hfree, if_true, bind, Except.bind, pure, Except.pure]
      rw [foldlM_wake (s := { s with active := s.active ++ [i] }) hrest ?_ (by simpa using hapart)]
      · simp [hlt, hresumes, hended]
      · intro j hj
        rcases List.mem_append.1 hj with hj | hj
        · exact hcovers j hj
        · cases List.mem_singleton.1 hj
          exact hresumes
    -- it is in a hole at `p`
    · rw [if_neg hresumes, pure_bind,
        foldlM_wake (s := { s with inactive := s.inactive ++ [i] }) hrest hcovers hsub]
      simp [hlt, hresumes, hended]

/-- Intervals picked by conditions that exclude each other are different ones. -/
theorem apart_of_mem_filter {l : List Interval} (h : l.Pairwise Interval.Apart)
    {a b : Interval → Bool} (hab : ∀ i, b i = true → a i = false) :
    ∀ i ∈ l.filter a, ∀ j ∈ l.filter b, i.Apart j := by
  intro i hi j hj
  have hperm := (List.filter_append_perm a l).symm
  have happ := List.pairwise_append.1 (hperm.pairwise h Interval.Apart.symm)
  obtain ⟨hjl, hbj⟩ := List.mem_filter.1 hj
  exact happ.2.2 i hi j (List.mem_filter.2 ⟨hjl, by simp [hab j hbj]⟩)

/-- Moving on succeeds when everybody holds a register and nobody fights over one. -/
theorem advance_eq {s : Sweep} {p : Position}
    (hheld : ∀ i ∈ s.active ++ s.inactive, ∃ name, i.location = some (.register name))
    (hapart : (s.active ++ s.inactive).Pairwise Interval.Apart) :
    s.advance p = .ok (s.advanced p) := by
  obtain ⟨hactive, hinactive, hacross⟩ := List.pairwise_append.1 hapart
  have hchecked : ((s.active ++ s.inactive).forM fun i => discard (registerOf i)) =
      (.ok ⟨⟩ : Except Violation PUnit) := forM_eq_ok.2 fun i hi => by
    obtain ⟨name, hname⟩ := hheld i hi
    rw [registerOf_eq_ok hname]
    rfl
  rw [advance, hchecked]
  simp only [bind, Except.bind, List.filter_filter]
  rw [foldlM_wake]
  · simp [advanced, Bool.and_comm]
  -- everybody who is woken is in a register
  · intro i hi
    rcases List.mem_append.1 hi with hi | hi
    · exact hheld i (by simp [hi])
    · exact hheld i (by simp [(List.mem_filter.1 hi).1])
  -- those that stay active cover `p`
  · intro i hi
    have := (List.mem_filter.1 hi).2
    rw [Bool.and_eq_true] at this
    exact this.1
  -- no two of them meet, whichever lists they come from
  · refine List.pairwise_append.2 ⟨hactive.filter _, ?_, fun i hi j hj => ?_⟩
    · refine List.pairwise_append.2 ⟨hinactive, hactive.filter _, fun i hi j hj => ?_⟩
      exact (hacross j (List.mem_filter.1 hj).1 i hi).symm
    · rcases List.mem_append.1 hj with hj | hj
      · exact hacross i (List.mem_filter.1 hi).1 j hj
      · exact apart_of_mem_filter hactive (by grind) i hi j hj

/-- A list falls into the intervals that have ended, those that cover `p` and those in a hole. -/
theorem perm_ended_running_resting (p : Position) (l : List Interval) :
    l.Perm (l.filter (·.stop ≤ p) ++ ((l.filter fun i => p < i.stop && i.covers p) ++
      l.filter fun i => p < i.stop && !i.covers p)) := by
  have hended := (List.filter_append_perm (fun i : Interval => decide (i.stop ≤ p)) l).symm
  have hrunning := (List.filter_append_perm (·.covers p)
    (l.filter fun i : Interval => !decide (i.stop ≤ p))).symm
  have hlt : ∀ i : Interval, (!decide (i.stop ≤ p)) = decide (p < i.stop) := fun i => by
    rw [← decide_not, decide_eq_decide, Int.not_le]
  simp only [hlt, List.filter_filter, Bool.and_comm _ (decide (p < _))] at hended hrunning
  exact hended.trans (hrunning.append_left _)

/-- Moving on loses no interval: it finishes those that have ended. -/
theorem advanced_perm (s : Sweep) (p : Position) : ∃ ended,
    (s.advanced p).done = s.done ++ ended ∧ (∀ i ∈ ended, i.stop ≤ p) ∧
      (s.active ++ s.inactive).Perm
        (ended ++ ((s.advanced p).active ++ (s.advanced p).inactive)) := by
  refine ⟨_, rfl, fun i hi => ?_, ?_⟩
  · rcases List.mem_append.1 hi with hi | hi <;> simpa using (List.mem_filter.1 hi).2
  · have hactive := perm_ended_running_resting p s.active
    have hresting := perm_ended_running_resting p
      (s.inactive ++ s.active.filter fun i => p < i.stop && !i.covers p)
    simp only [advanced]
    refine List.perm_iff_count.2 fun x => ?_
    have := hactive.count_eq x
    have := hresting.count_eq x
    simp only [List.count_append] at *
    omega

/-- After moving on, the active intervals are those that cover the position. -/
theorem mem_active_advanced {s : Sweep} {p : Position} {i : Interval}
    (h : i ∈ (s.advanced p).active) : i.covers p = true := by
  simp only [advanced, List.mem_append, List.mem_filter, Bool.and_eq_true] at h
  rcases h with ⟨-, -, h⟩ | ⟨-, -, h⟩ <;> exact h

/-- After moving on, the inactive intervals are in a hole. -/
theorem mem_inactive_advanced {s : Sweep} {p : Position} {i : Interval}
    (h : i ∈ (s.advanced p).inactive) : i.covers p = false := by
  simp only [advanced, List.mem_filter, Bool.and_eq_true, Bool.not_eq_true'] at h
  exact h.2.2

/-- Finding a home changes nothing else. -/
theorem homeSlot_frame {s s' : Sweep} {r : VReg} {slot : Nat}
    (h : s.homeSlot r = (s', slot)) :
    s' = { s with homes := s'.homes, slotCount := s'.slotCount } := by
  rw [homeSlot] at h
  split at h <;> cases h <;> rfl

/-! ## Choosing a register -/

/-- Whatever is chosen is among the free registers. -/
theorem mem_of_choose {s : Sweep} {current : Interval} {free : List String} {name : String}
    (h : s.choose current free = some name) : name ∈ free := by
  rw [choose] at h
  split at h
  · next hint hhint =>
    cases h
    have := (Option.filter_eq_some_iff.1 hhint).2
    simp only [Bool.and_eq_true, List.contains_eq_mem, decide_eq_true_eq] at this
    exact this.1
  · rcases Option.or_eq_some_iff.1 h with h | ⟨-, h⟩
    · exact List.mem_of_find?_eq_some h
    · exact List.mem_of_head? h

/-! ## Where a cut falls -/

/-- A cut falls at its latest position or at the start of a block in its window. -/
theorem cutPosition_cases (order : LinearOrder) (after latest : Position) :
    cutPosition order after latest = latest ∨
      ∃ span ∈ order.spans, cutPosition order after latest = span.first ∧
        after < span.first ∧ span.first ≤ latest := by
  rw [cutPosition]
  generalize hfold : List.foldl _ _ _ = best
  -- whatever the fold holds is a start in the window
  have hbest : ∀ b, best = some b →
      ∃ span ∈ order.spans, b = span.first ∧ after < span.first ∧ span.first ≤ latest := by
    rw [← hfold]
    refine List.foldlRecOn (motive := fun best => ∀ b, best = some b →
      ∃ span ∈ order.spans, b = span.first ∧ after < span.first ∧ span.first ≤ latest)
      _ _ (by simp) fun best hbest first hfirst b hb => ?_
    simp only [List.mem_filter, List.mem_map, Bool.and_eq_true, decide_eq_true_eq] at hfirst
    obtain ⟨⟨span, hspan, rfl⟩, hwindow⟩ := hfirst
    cases best with
    | none =>
      cases hb
      exact ⟨span, hspan, rfl, hwindow⟩
    | some old =>
      dsimp only at hb
      split at hb
      · cases hb
        exact ⟨span, hspan, rfl, hwindow⟩
      · exact hbest b hb
  cases best with
  | none => exact .inl rfl
  | some b => exact .inr (hbest b rfl)

theorem cutPosition_le (order : LinearOrder) (after latest : Position) :
    cutPosition order after latest ≤ latest := by
  rcases cutPosition_cases order after latest with h | ⟨span, -, h, -, hle⟩ <;> lia

/-- No use lies between the last use before a position and that position. -/
theorem le_lastUseBefore {i : Interval} (h : i.Used) {p : Position} {u : UsePoint}
    (hu : u ∈ i.uses) (hlt : u.position < p) : u.position ≤ lastUseBefore i p := by
  -- either `u` is still to come, or it has been counted and everything left is behind it
  have hfold : ∀ (l : List UsePoint) (latest : Position),
      l.Pairwise (fun u v => u.position ≤ v.position) →
      (u ∈ l ∨ u.position ≤ latest ∧ ∀ v ∈ l, u.position ≤ v.position) → u.position ≤
        l.foldl (fun latest use => if use.position < p then use.position else latest) latest := by
    intro l
    induction l with
    | nil => simp
    | cons v rest ih =>
      intro latest hsorted hu
      obtain ⟨hfirst, hrest⟩ := List.pairwise_cons.1 hsorted
      refine ih _ hrest ?_
      rcases hu with hu | ⟨hle, hall⟩
      · rcases List.mem_cons.1 hu with rfl | hu
        · exact .inr ⟨by simp [hlt], hfirst⟩
        · exact .inl hu
      · obtain ⟨hv, hall⟩ := List.forall_mem_cons.1 hall
        exact .inr ⟨by dsimp only; split <;> assumption, hall⟩
  exact hfold i.uses i.start h.sorted (.inl hu)

theorem evictBy_cases (current : Interval) (p : Position) :
    (evictBy current p = p ∧ ∀ use, current.uses.head? = some use →
      ¬ (use.access = .write ∧ use.position = p)) ∨
    (evictBy current p = p - 1 ∧ ∃ use, current.uses.head? = some use ∧
      use.access = .write ∧ use.position = p) := by
  rw [evictBy]
  cases hhead : current.uses.head? with
  | none => simp
  | some use =>
    by_cases hwrite : use.access = .write ∧ use.position = p
    · simp [hwrite]
    · simpa [hwrite] using not_and.1 hwrite

theorem evictBy_le (current : Interval) (p : Position) : evictBy current p ≤ p := by
  rcases evictBy_cases current p with h | h <;> lia

theorem le_evictBy (current : Interval) (p : Position) : p - 1 ≤ evictBy current p := by
  rcases evictBy_cases current p with h | h <;> lia

/-! ## The candidate for memory -/

/-- The candidate for memory is the interval itself, measured from where it starts, or
an active one, measured from where it has to leave. -/
theorem victim_cases (s : Sweep) (current : Interval) (p : Position) :
    s.victim current p = (none, ⟨current, current.nextRegisterUse? p⟩) ∨
      ∃ index i, s.active[index]? = some i ∧
        s.victim current p = (some index, ⟨i, i.nextRegisterUse? (evictBy current p)⟩) := by
  rw [victim]
  -- the fold starts with `current` and only ever replaces it by an active interval
  refine List.foldlRecOn (motive := fun (chosen : Option Nat × Candidate) =>
    chosen = (none, ⟨current, current.nextRegisterUse? p⟩) ∨
      ∃ index i, s.active[index]? = some i ∧
        chosen = (some index, ⟨i, i.nextRegisterUse? (evictBy current p)⟩))
    _ _ (.inl rfl) fun chosen hchosen x hx => ?_
  dsimp only
  split
  · exact .inr ⟨x.2, x.1, List.mk_mem_zipIdx_iff_getElem?.1 hx, rfl⟩
  · exact hchosen

end Sweep

end RegAlloc
