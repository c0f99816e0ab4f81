import Mathlib.Data.Prod.Lex
import RegAlloc.Proofs.Allocation.Arranged
import RegAlloc.Proofs.Sweep.Demand
import RegAlloc.Proofs.Sweep.Ending

/-!
# The line of a sweep

A sweep takes intervals off the front of a line and puts pieces back into it: the rest of an
interval that was evicted, or of one that lost its register in a hole. An eviction may cut where
the sweep has long been, and yet the sweep never goes back. What is put in line starts no earlier
than the interval that was taken, so the line stays in order, and whoever waits in it is left
alone until it is taken.

- `Interval.turn` — what the line is sorted by;
- `Sweep.joined` — a line that intervals have joined;
- `Sweep.OnlyJoins`, `step_onlyJoins` — a step does nothing to the line but put intervals in;
- `joined_of_step` — what a step puts in line, and the line after each of them;
- `Sweep.Works` — a run, with the intervals that it takes;
- `Works.run_eq` — a run is what the sweep does;
- `Works.sublist`, `Works.inOrder` — what waits is taken as it is, in order of start;
- `Sweep.Onward`, `sweep_never_goes_back` — the same for a sweep of analysed lifetimes.
-/

namespace RegAlloc

/-- What the line is sorted by: the start, then the register, then the number. -/
def Interval.turn (i : Interval) : Position ×ₗ VReg ×ₗ IntervalId :=
  toLex (i.start, toLex (i.register, i.id))

namespace Sweep

theorem takenBefore_iff_turn {i j : Interval} : takenBefore i j = true ↔ i.turn < j.turn := by
  simp only [takenBefore_iff, Interval.turn, Prod.Lex.toLex_lt_toLex]

/-! ## Joining the line -/

/-- A line that intervals have joined, one after the other. -/
def joined (line added : List Interval) : List Interval :=
  added.foldl (fun line i => insertBefore (takenBefore i) i line) line

theorem joined_append (line added added' : List Interval) :
    joined line (added ++ added') = joined (joined line added) added' :=
  List.foldl_append

theorem sublist_joined (added : List Interval) : ∀ line : List Interval,
    line.Sublist (joined line added) := by
  induction added with
  | nil => exact List.Sublist.refl
  | cons i added ih => exact fun line => (sublist_insertBefore ..).trans (ih _)

theorem mem_joined {i : Interval} {added : List Interval} : ∀ {line : List Interval},
    i ∈ joined line added ↔ i ∈ line ∨ i ∈ added := by
  induction added with
  | nil => simp [joined]
  | cons j added ih =>
    intro line
    rw [show joined line (j :: added) = joined (insertBefore (takenBefore j) j line) added from rfl,
      ih, mem_insertBefore, List.mem_cons]
    grind

/-- A computation that leaves those who wait alone: whatever the line is, it stops for the same
cause, or it comes to the same state with the same intervals put in line. -/
def OnlyJoins (f : List Interval → Except Violation Sweep) : Prop :=
  (∃ v, ∀ line, f line = .error v) ∨
    ∃ (s : Sweep) (added : List Interval), ∀ line,
      f line = .ok { s with waiting := joined line added }

namespace OnlyJoins

theorem stop (v : Violation) : OnlyJoins fun _ => .error v := .inl ⟨v, fun _ => rfl⟩

theorem stay (s : Sweep) : OnlyJoins fun line => .ok { s with waiting := line } :=
  .inr ⟨s, [], fun _ => rfl⟩

/-- What is computed without the line does not depend on it. -/
theorem after {α : Type} (x : Except Violation α) {f : α → List Interval → Except Violation Sweep}
    (hf : ∀ a, OnlyJoins (f a)) : OnlyJoins fun line => x >>= fun a => f a line := by
  cases x with
  | error v => exact stop v
  | ok a => exact hf a

/-- An interval is cut and the rest joins the line. -/
theorem cutBack (s : Sweep) (i : Interval) (q : Position) :
    OnlyJoins fun line => i.split q s.nextId >>= fun sides =>
      .ok ({ s with
        waiting := line, done := s.done ++ [sides.1], nextId := s.nextId + 1 }.enqueue sides.2) :=
  after _ fun sides =>
    .inr ⟨{ s with done := s.done ++ [sides.1], nextId := s.nextId + 1 }, [sides.2], fun _ => rfl⟩

theorem bind {f : List Interval → Except Violation Sweep} {k : Sweep → Except Violation Sweep}
    (hf : OnlyJoins f) (hk : ∀ s : Sweep, OnlyJoins fun line => k { s with waiting := line }) :
    OnlyJoins fun line => f line >>= k := by
  rcases hf with ⟨v, hv⟩ | ⟨s, added, hs⟩
  · simp only [hv]
    exact stop v
  simp only [hs]
  rcases hk s with ⟨v, hv⟩ | ⟨s', added', hs'⟩
  · exact .inl ⟨v, fun line => hv _⟩
  · refine .inr ⟨s', added ++ added', fun line => ?_⟩
    rw [joined_append]
    exact hs' _

theorem foldlM {α : Type} {f : Sweep → α → Except Violation Sweep}
    (hf : ∀ (s : Sweep) a, OnlyJoins fun line => f { s with waiting := line } a) (l : List α) :
    ∀ s : Sweep, OnlyJoins fun line => l.foldlM f { s with waiting := line } := by
  induction l with
  | nil => exact stay
  | cons a l ih =>
    intro s
    simp only [List.foldlM_cons]
    exact (hf s a).bind ih

end OnlyJoins

/-! ## One step -/

variable {setup : Setup} {roots : List Interval}

theorem wake_onlyJoins (p : Position) (s : Sweep) (i : Interval) :
    OnlyJoins fun line => wake p { s with waiting := line } i := by
  unfold wake
  split
  · exact .stay { s with done := s.done ++ [i] }
  · split
    · refine .after (registerOf i) fun name => ?_
      have hfree : ∀ line, { s with waiting := line }.isFree name = s.isFree name := fun _ => rfl
      simp only [hfree]
      split
      · exact .stay { s with active := s.active ++ [i] }
      · exact .stop _
    · exact .stay { s with inactive := s.inactive ++ [i] }

theorem advance_onlyJoins (s : Sweep) (p : Position) :
    OnlyJoins fun line => { s with waiting := line }.advance p := by
  unfold advance
  dsimp only
  refine .after _ fun _ => ?_
  exact .foldlM (wake_onlyJoins p) _ { s with
    active := (s.active.filter (p < ·.stop)).filter (·.covers p)
    inactive := []
    done := s.done ++ s.active.filter (·.stop ≤ p) }

theorem displace_onlyJoins (p : Position) (s : Sweep) (rival : Interval) :
    OnlyJoins fun line => displace p { s with waiting := line } rival := by
  unfold displace
  cases rival.nextRangeStart? p with
  | none => exact .stop _
  | some resume => exact .cutBack s rival resume

theorem assign_onlyJoins (current : Interval) (name : String) (p : Position) (s : Sweep) :
    OnlyJoins fun line => { s with waiting := line }.assign current name p := by
  unfold assign
  refine .bind (.foldlM (displace_onlyJoins p) (s.rivals name current) { s with
    inactive := s.inactive.filter fun i => !(i.isIn name && i.meets current) }) fun s' => ?_
  exact .stay { s' with
    active := s'.active ++ [{ current with location := some (.register name) }] }

theorem homeSlot_line (s : Sweep) (line : List Interval) (r : VReg) :
    { s with waiting := line }.homeSlot r =
      ({ (s.homeSlot r).1 with waiting := line }, (s.homeSlot r).2) := by
  unfold homeSlot
  dsimp only
  cases s.homes.lookup r <;> rfl

theorem spill_onlyJoins (i : Interval) (nextUse : Option Position) (p : Position) (s : Sweep) :
    OnlyJoins fun line => { s with waiting := line }.spill setup i nextUse p := by
  unfold spill
  simp only [homeSlot_line]
  obtain ⟨s', slot⟩ := s.homeSlot i.register
  cases nextUse with
  | none => exact .stay { s' with done := s'.done ++ [{ i with location := some (.slot slot) }] }
  | some use => exact .cutBack s' { i with location := some (.slot slot) } _

theorem evict_onlyJoins (i : Interval) (limit : Position) (nextUse : Option Position)
    (p : Position) (s : Sweep) :
    OnlyJoins fun line => { s with waiting := line }.evict setup i limit nextUse p := by
  unfold evict
  split
  · exact spill_onlyJoins i nextUse p s
  · refine .after (i.split (cutPosition setup.order (lastUseBefore i limit) limit) s.nextId)
      fun sides => ?_
    exact spill_onlyJoins sides.2 nextUse p
      { s with done := s.done ++ [sides.1], nextId := s.nextId + 1 }

theorem makeRoom_onlyJoins (current : Interval) (p : Position) (s : Sweep) :
    OnlyJoins fun line => { s with waiting := line }.makeRoom setup current p := by
  unfold makeRoom
  have hvictim : ∀ line, { s with waiting := line }.victim current p = s.victim current p :=
    fun _ => rfl
  simp only [hvictim]
  rcases s.victim current p with ⟨_ | index, candidate⟩
  · exact .after _ fun _ => spill_onlyJoins ..
  · refine .after _ fun _ => .after _ fun name => ?_
    refine .bind ?_ (assign_onlyJoins current name p)
    exact evict_onlyJoins _ _ _ p { s with active := s.active.eraseIdx index }

/-- A step neither looks at the line nor changes what waits in it. -/
theorem step_onlyJoins (setup : Setup) (s : Sweep) (current : Interval) :
    OnlyJoins fun line => step setup { s with waiting := line } current := by
  unfold step
  dsimp only
  refine .bind (advance_onlyJoins s current.start) fun s' => ?_
  have hchoose : ∀ line, ({ s' with waiting := line }.releaseSlots setup current.start).choose
      current (setup.pool.filter ({ s' with waiting := line }.releaseSlots setup
        current.start).isFree) =
      (s'.releaseSlots setup current.start).choose current
        (setup.pool.filter (s'.releaseSlots setup current.start).isFree) := fun _ => rfl
  simp only [hchoose]
  split
  · exact assign_onlyJoins _ _ _ (s'.releaseSlots setup current.start)
  · exact makeRoom_onlyJoins _ _ (s'.releaseSlots setup current.start)

/-- A step only adds to those who wait. -/
theorem sublist_of_step {s s' : Sweep} {current : Interval} {rest : List Interval}
    (hstep : step setup { s with waiting := rest } current = .ok s') :
    rest.Sublist s'.waiting := by
  rcases step_onlyJoins setup s current with ⟨v, hv⟩ | ⟨s'', added, hs⟩
  · cases (hv rest).symm.trans hstep
  · cases (hs rest).symm.trans hstep
    exact sublist_joined added rest

/-- Every step keeps the invariant, at the position where the interval that it takes starts. -/
theorem Sound.stepped {p : Position} {s s' : Sweep} {current : Interval} {rest : List Interval}
    (h : Sound setup roots ⟨p, [], none, s⟩) (hline : s.waiting = current :: rest)
    (hstep : step setup { s with waiting := rest } current = .ok s') :
    Sound setup roots ⟨current.start, [], none, s'⟩ :=
  (h.take hline).advance.acts (acts_of_step h hline hstep)

/-- What a step puts in line starts no earlier than the interval that it takes, and the line
is in order after each. -/
theorem joined_of_step {p : Position} {s s' : Sweep} {current : Interval}
    {rest added : List Interval} (h : Sound setup roots ⟨p, [], none, s⟩)
    (hline : s.waiting = current :: rest)
    (hstep : step setup { s with waiting := rest } current =
      .ok { s' with waiting := joined rest added }) :
    (∀ i ∈ added, current.start ≤ i.start) ∧
      ∀ n, (joined rest (added.take n)).Pairwise fun i j => i.turn < j.turn := by
  have hsound := h.stepped hline hstep
  refine ⟨fun i hi => (hsound.ahead i (mem_joined.2 (.inr hi))).1, fun n => ?_⟩
  have hsub : (joined rest (added.take n)).Sublist (joined rest added) := by
    conv_rhs => rw [← List.take_append_drop n added, joined_append]
    exact sublist_joined ..
  exact (hsound.inLine.sublist hsub).imp takenBefore_iff_turn.1

/-- A step that stops is stuck. -/
theorem stuck_of_step_eq_error {p : Position} {s : Sweep} {current : Interval}
    {rest : List Interval} {v : Violation} (h : Sound setup roots ⟨p, [], none, s⟩)
    (hline : s.waiting = current :: rest)
    (hstep : step setup { s with waiting := rest } current = .error v) :
    Stuck setup ({ s with waiting := rest }.ready setup current.start) current := by
  by_contra hnot
  obtain ⟨s', hs'⟩ := (step_returns_of_reaches h .refl hline).2 hnot
  cases hstep.symm.trans hs'

/-! ## Runs -/

/-- A run from one state to another, with the intervals that it takes off the line one after the
other. -/
inductive Works (setup : Setup) (first : Sweep) : List Interval → Sweep → Prop where
  | start : Works setup first [] first
  | take {taken rest : List Interval} {s s' : Sweep} {current : Interval}
      (h : Works setup first taken s) (hline : s.waiting = current :: rest)
      (hstep : step setup { s with waiting := rest } current = .ok s') :
      Works setup first (taken ++ [current]) s'

namespace Works

variable {first s : Sweep} {taken : List Interval}

theorem reaches (h : Works setup first taken s) : Reaches setup first s := by
  induction h with
  | start => exact .refl
  | take _ hline hstep ih => exact ih.tail ⟨_, _, hline, hstep⟩

/-- With one unit of fuel for each take, the sweep comes through the state. -/
theorem run_eq (h : Works setup first taken s) (fuel : Nat) :
    run setup (taken.length + fuel) first = run setup fuel s := by
  suffices htakes : Takes setup first taken.length (.ok s) from htakes.run_add fuel
  induction h with
  | start => exact .start
  | take _ hline hstep ih =>
    rw [List.length_append, List.length_singleton, ← hstep]
    exact ih.take hline

/-- Whoever waits is taken as it is, and in the order in which it waits. -/
theorem sublist (h : Works setup first taken s) : first.waiting.Sublist (taken ++ s.waiting) := by
  induction h with
  | start => exact .refl _
  | @take taken rest s s' current _ hline hstep ih =>
    rw [hline, ← List.singleton_append, ← List.append_assoc] at ih
    exact ih.trans ((sublist_of_step hstep).append_left _)

/-- The position moves on with the intervals that are taken. -/
theorem inOrder {p : Position} (hfirst : Sound setup roots ⟨p, [], none, first⟩)
    (h : Works setup first taken s) :
    ∃ p', Sound setup roots ⟨p', [], none, s⟩ ∧ (∀ i ∈ taken, i.start ≤ p') ∧
      taken.Pairwise fun i j => i.start ≤ j.start := by
  induction h with
  | start => exact ⟨p, hfirst, by simp, .nil⟩
  | @take taken rest s s' current _ hline hstep ih =>
    obtain ⟨q, hsound, hpast, hordered⟩ := ih
    have hq : q ≤ current.start := (hsound.ahead current (by simp [hline])).1
    have hle : ∀ i ∈ taken, i.start ≤ current.start := fun i hi => Int.le_trans (hpast i hi) hq
    refine ⟨current.start, hsound.stepped hline hstep, fun i hi => ?_, ?_⟩
    · rcases List.mem_append.1 hi with hi | hi
      · exact hle i hi
      · cases List.mem_singleton.1 hi
        exact Int.le_refl _
    · refine List.pairwise_append.2 ⟨hordered, List.pairwise_singleton .., fun i hi j hj => ?_⟩
      cases List.mem_singleton.1 hj
      exact hle i hi

end Works

/-- Whatever has been taken starts no later than what waits. -/
theorem Sound.pairwise_start {p : Position} {s : Sweep} {taken : List Interval}
    (h : Sound setup roots ⟨p, [], none, s⟩) (hpast : ∀ i ∈ taken, i.start ≤ p)
    (hordered : taken.Pairwise fun i j => i.start ≤ j.start) :
    (taken ++ s.waiting).Pairwise fun i j => i.start ≤ j.start :=
  List.pairwise_append.2 ⟨hordered, h.inLine.imp start_le_of_takenBefore,
    fun i hi j hj => Int.le_trans (hpast i hi) (h.ahead j hj).1⟩

/-- A run that has taken some intervals and come to a state has never gone back, and does not go
back with the next step. -/
structure Onward (setup : Setup) (taken : List Interval) (s : Sweep) : Prop where
  /-- The starts of those taken never decrease, and nobody who waits starts earlier. -/
  starts : (taken ++ s.waiting).Pairwise fun i j => i.start ≤ j.start
  /-- The line is strictly sorted. -/
  sorted : s.waiting.Pairwise fun i j => i.turn < j.turn
  /-- Whoever waits is not placed as well. -/
  single : ((s.waiting ++ s.placed).map (·.id)).Nodup
  /-- Whoever waits is taken as it is, or still waits. -/
  kept : ∀ more s', Works setup s more s' → s.waiting.Sublist (more ++ s'.waiting)
  /-- The next step treats all lines alike: it is stuck and stops, or puts intervals in that
  start no earlier than the one it takes. The line is strictly sorted after each of them. -/
  joins : ∀ current rest, s.waiting = current :: rest →
    (Stuck setup ({ s with waiting := rest }.ready setup current.start) current ∧
      ∃ v, ∀ line, step setup { s with waiting := line } current = .error v) ∨
    ∃ (s' : Sweep) (added : List Interval),
      (∀ line, step setup { s with waiting := line } current =
        .ok { s' with waiting := joined line added }) ∧
      (∀ i ∈ added, current.start ≤ i.start) ∧
      ∀ n, (joined rest (added.take n)).Pairwise fun i j => i.turn < j.turn

end Sweep

/-- A sweep of analysed lifetimes never goes back, whatever state it comes through. -/
theorem sweep_never_goes_back {g : Graph} {regClass : Option String} {order : LinearOrder}
    {liveness : Liveness} (h : Analysed g regClass order liveness) (pool : List String)
    {first s : Sweep} {taken : List Interval}
    (hfirst : Sweep.lineUp (liveness.lives.map (·.root)) = .ok first)
    (hworks : Sweep.Works (Sweep.setupOf order (liveness.lives.map (·.root)) pool) first taken s) :
    (∀ fuel, Sweep.run (Sweep.setupOf order (liveness.lives.map (·.root)) pool)
        (taken.length + fuel) first =
      Sweep.run (Sweep.setupOf order (liveness.lives.map (·.root)) pool) fuel s) ∧
    Sweep.Onward (Sweep.setupOf order (liveness.lives.map (·.root)) pool) taken s := by
  have hrooted := h.rooted
  have hids : (liveness.lives.map (·.root)).map (·.id) =
      Sweep.ids (liveness.lives.map (·.root)).length := by
    rw [h.lives_eq]
    exact LinearOrder.ids_livesOf _
  cases (Sweep.lineUp_eq fun i hi => (hrooted.shaped i hi).nonempty).symm.trans hfirst
  obtain ⟨p, hopening⟩ := Sweep.sound_opening _ hrooted
  obtain ⟨q, hsound, hpast, hordered⟩ := hworks.inOrder hopening
  refine ⟨hworks.run_eq, ?_⟩
  constructor
  · exact hsound.pairwise_start hpast hordered
  · exact hsound.inLine.imp Sweep.takenBefore_iff_turn.1
  · exact Sweep.nodup_ids hrooted hids hworks.reaches
  · exact fun more s' hmore => hmore.sublist
  · intro current rest hline
    -- the step is stuck, or it only adds to the line
    rcases Sweep.step_onlyJoins _ s current with ⟨v, hstop⟩ | ⟨s', added, hstep⟩
    · exact .inl ⟨Sweep.stuck_of_step_eq_error hsound hline (hstop rest), v, hstop⟩
    · exact .inr ⟨s', added, hstep, Sweep.joined_of_step hsound hline (hstep rest)⟩

/-- Two registers for three values. When the third is taken, at 5, the first is cut at 4 and goes
to memory, and what is left of it is to be loaded again at 7. -/
theorem sweep_never_goes_back_thirdReadFirst : ∃ order liveness first taken s more last,
    Analysed thirdReadFirst none order liveness ∧
      Sweep.lineUp (liveness.lives.map (·.root)) = .ok first ∧
      Sweep.Works (Sweep.setupOf order (liveness.lives.map (·.root)) ["r0", "r1"]) first taken s ∧
      Sweep.Works (Sweep.setupOf order (liveness.lives.map (·.root)) ["r0", "r1"]) s more last ∧
      taken.map (·.start) = [1, 3] ∧ more.map (·.start) = [5] ∧
      last.waiting.map (·.start) = [7] ∧ last.done.map (·.stop) = [4, 7] ∧
      Sweep.Onward (Sweep.setupOf order (liveness.lives.map (·.root)) ["r0", "r1"]) taken s := by
  have h : Analysed thirdReadFirst none _ _ := ⟨⟨_, rfl⟩, ⟨_, rfl⟩, ⟨_, rfl⟩⟩
  refine ⟨_, _, _, _, _, _, _, h, rfl, .take (.take .start rfl rfl) rfl rfl,
    .take .start rfl rfl, rfl, rfl, rfl, rfl, ?_⟩
  exact (sweep_never_goes_back h ["r0", "r1"] rfl (.take (.take .start rfl rfl) rfl rfl)).2

end RegAlloc
