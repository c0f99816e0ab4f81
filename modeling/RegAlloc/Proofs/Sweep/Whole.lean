import Mathlib.Algebra.GroupWithZero.Nat
import RegAlloc.Proofs.Sweep.Trace
import RegAlloc.Sweep.Run

/-!
# The sweep as a whole

A run takes one interval after the other. What an interval still covers beyond its start
is all that it can give back to the line, so a run ends after as many steps as there are
covered positions, and ends for one of three reasons: nothing is waiting, too many values
need a register, or a value cannot be split.

- `Next`, `Reaches` — one step that succeeds, and a sequence of them;
- `Rooted` — what the sweep needs of the intervals that it is given;
- `Midway.budget`, `budget_act`, `budget_take` — the measure that bounds a run;
- `sound_of_reaches` — the invariant holds in every state that a run comes through;
- `sweep_ensures` — the outcome of a sweep.
-/

namespace RegAlloc

namespace Ranges

/-- Of two cuts the later one decides. -/
theorem onward_onward (rs : List Range) {p q : Position} (hpq : p ≤ q) :
    onward (onward rs p) q = onward rs q := by
  rw [onward, onward, onward, List.filterMap_filterMap]
  congr 1
  funext r
  simp only [Range.onward?]
  grind

end Ranges

namespace Sweep

/-! ## A bound on the number of steps -/

/-- The number of positions of an interval that lie behind its start and not before `p`. -/
def remaining (p : Position) (i : Interval) : Nat :=
  Ranges.size (Ranges.onward i.ranges (max p (i.start + 1)))

/-- The positions that a list of intervals can still give back to the line. -/
def load (p : Position) (l : List Interval) : Nat := (l.map (remaining p)).sum

/-- A bound on the number of steps still to come: what waits, and what can still be
given back. -/
def Midway.budget (m : Midway) : Nat :=
  coverage m.sweep.waiting + load m.position (m.hand ++ (m.sweep.active ++ m.sweep.inactive))

@[simp] theorem load_nil (p : Position) : load p [] = 0 := rfl

@[simp] theorem load_cons (p : Position) (i : Interval) (l : List Interval) :
    load p (i :: l) = remaining p i + load p l := by
  simp [load]

@[simp] theorem load_append (p : Position) (l l' : List Interval) :
    load p (l ++ l') = load p l + load p l' := by
  simp [load]

theorem load_perm {p : Position} {l l' : List Interval} (h : l.Perm l') :
    load p l = load p l' :=
  (h.map _).sum_nat

theorem load_anti {p p' : Position} (h : p ≤ p') (l : List Interval) :
    load p' l ≤ load p l := by
  induction l with
  | nil => exact Nat.le_refl _
  | cons i l ih =>
    have : remaining p' i ≤ remaining p i := Ranges.size_onward_anti _ (by lia)
    simp only [load_cons]
    omega

@[simp] theorem remaining_relocate (p : Position) (i : Interval) (location : Option Location) :
    remaining p { i with location } = remaining p i := rfl

@[simp] theorem coverage_cons (i : Interval) (l : List Interval) :
    coverage (i :: l) = Ranges.size i.ranges + coverage l := rfl

theorem coverage_perm {l l' : List Interval} (h : l.Perm l') : coverage l = coverage l' := by
  induction h with
  | nil => rfl
  | cons i _ ih => rw [coverage_cons, coverage_cons, ih]
  | swap => simp only [coverage_cons]; omega
  | trans _ _ ih ih' => exact ih.trans ih'

@[simp] theorem coverage_enqueue (s : Sweep) (i : Interval) :
    coverage (s.enqueue i).waiting = Ranges.size i.ranges + coverage s.waiting := by
  rw [← coverage_cons]
  exact coverage_perm (insertBefore_perm (takenBefore i) i s.waiting)

/-- What is cut off and put in line is no more than what was left. -/
theorem budget_cutRest {p q : Position} {i : Interval} {hand : List Interval}
    {promised : Option (String × Interval)} {s : Sweep} (hp : p ≤ q) (hstart : i.start < q) :
    Midway.budget ⟨p, hand, promised, (s.finishFront i q).enqueue (i.cutOff q s.nextId)⟩ ≤
      Midway.budget ⟨p, i :: hand, promised, s⟩ := by
  have hle : Ranges.size (i.cutOff q s.nextId).ranges ≤ remaining p i :=
    Ranges.size_onward_anti _ (by lia)
  rw [Midway.budget, coverage_enqueue]
  simp only [Midway.budget, enqueue, finishFront, List.cons_append, load_cons]
  omega

theorem remaining_cutOff_le {p q : Position} {i : Interval} (h : i.Shaped) (hstart : i.start < q)
    (hstop : q < i.stop) (id : IntervalId) : remaining p (i.cutOff q id) ≤ remaining p i := by
  have hle := Interval.le_start_cutOff h hstop id
  rw [remaining, show (i.cutOff q id).ranges = Ranges.onward i.ranges q from rfl,
    Ranges.onward_onward _ (by lia)]
  exact Ranges.size_onward_anti _ (by lia)

variable {setup : Setup} {roots : List Interval}

/-- No act raises the bound. -/
theorem budget_act {m m' : Midway} (h : Sound setup roots m) (hact : Act setup m m') :
    m'.budget ≤ m.budget := by
  cases hact with
  | @pick p hand picked promised s active inactive _ _ hperm =>
    -- the same intervals, in other lists
    have := load_perm (p := p) hperm
    simp only [Midway.budget, load_append] at this ⊢
    omega
  | displace hq _ _ hstart _ => exact budget_cutRest (Int.le_of_lt hq) hstart
  | store _ _ hhome =>
    rw [homeSlot_frame hhome]
    simp [Midway.budget]
  | leaveWhole _ _ _ _ _ hhome =>
    rw [homeSlot_frame hhome]
    simp [Midway.budget]
  | @leave p q i current name s s' slot _ _ _ hstart hstop _ _ _ hhome _ _ =>
    -- what is left of the rest is no more than what was left of the interval
    have := remaining_cutOff_le (p := p) (h.shaped (i := i) (by simp)) hstart hstop s.nextId
    rw [homeSlot_frame hhome]
    simp only [Midway.budget, finishFront, List.cons_append, load_cons, remaining_relocate]
    omega
  | finish =>
    simp only [Midway.budget, List.cons_append, load_cons]
    omega
  | reload _ _ _ _ hq _ hstart _ _ => exact budget_cutRest hq hstart
  | settle =>
    simp only [Midway.budget, List.nil_append, List.cons_append, load_cons, load_append,
      remaining_relocate, load_nil]
    omega

theorem budget_acts {m m' : Midway} (h : Sound setup roots m) (hacts : Acts setup m m') :
    m'.budget ≤ m.budget := by
  induction hacts with
  | refl => exact Nat.le_refl _
  | tail hacts hact ih => exact Nat.le_trans (budget_act (h.acts hacts) hact) ih

/-- Taking an interval lowers the bound, since it keeps the position at which it starts. -/
theorem budget_take {p : Position} {s : Sweep} {current : Interval} {rest : List Interval}
    (h : Sound setup roots ⟨p, [], none, s⟩) (hline : s.waiting = current :: rest) :
    (Midway.budget ⟨current.start, [current], none, { s with waiting := rest }⟩) <
      Midway.budget ⟨p, [], none, s⟩ := by
  have hshaped : current.Shaped := h.shaped (by simp [pending, hline])
  have hp : p ≤ current.start := (h.ahead current (by simp [hline])).1
  have hlt : remaining current.start current < Ranges.size current.ranges :=
    Ranges.size_onward_lt (Interval.covers_start hshaped) (by lia)
  have := load_anti hp (s.active ++ s.inactive)
  simp only [Midway.budget, List.nil_append, List.cons_append, load_cons, hline, coverage_cons]
  omega

theorem budget_advance {p : Position} {hand : List Interval} {s : Sweep}
    {promised : Option (String × Interval)} :
    Midway.budget ⟨p, hand, promised, s.ready setup p⟩ ≤ Midway.budget ⟨p, hand, promised, s⟩ := by
  obtain ⟨ended, -, -, hperm⟩ := advanced_perm s p
  have := load_perm (p := p) hperm
  simp only [Midway.budget, ready, releaseSlots, load_append] at this ⊢
  simp only [advanced] at this ⊢
  omega

/-! ## Runs -/

/-- One step that succeeds. -/
def Next (setup : Setup) (s s' : Sweep) : Prop :=
  ∃ current rest, s.waiting = current :: rest ∧
    step setup { s with waiting := rest } current = .ok s'

/-- A number of steps, all of which succeed. -/
abbrev Reaches (setup : Setup) : Sweep → Sweep → Prop := Relation.ReflTransGen (Next setup)

/-- A state has at most one next one. -/
theorem Next.unique {s a b : Sweep} (ha : Next setup s a) (hb : Next setup s b) : a = b := by
  obtain ⟨current, rest, hline, hstep⟩ := ha
  obtain ⟨current', rest', hline', hstep'⟩ := hb
  cases hline.symm.trans hline'
  exact Except.ok.inj (hstep.symm.trans hstep')

/-- A run that has ended has come through every state that can be reached. -/
theorem reaches_last {first s last : Sweep} (hlast : Reaches setup first last)
    (hempty : last.waiting = []) (hs : Reaches setup first s) : Reaches setup s last := by
  induction hs with
  | refl => exact hlast
  | @tail s s' _ hnext ih =>
    rcases Relation.ReflTransGen.cases_head ih with rfl | ⟨s'', hnext', hrest⟩
    · obtain ⟨current, rest, hline, -⟩ := hnext
      simp [hempty] at hline
    · exact hnext.unique hnext' ▸ hrest

/-- A step taken from a sound state is a sequence of acts. -/
theorem acts_of_step {p : Position} {s s' : Sweep} {current : Interval} {rest : List Interval}
    (h : Sound setup roots ⟨p, [], none, s⟩) (hline : s.waiting = current :: rest)
    (hstep : step setup { s with waiting := rest } current = .ok s') :
    Acts setup
      ⟨current.start, [current], none, { s with waiting := rest }.ready setup current.start⟩
      ⟨current.start, [], none, s'⟩ :=
  (step_acts (h.take hline) (h.ahead current (by simp [hline])).2).of_eq_ok hstep

/-- Every step keeps the invariant. -/
theorem sound_of_next {p : Position} {s s' : Sweep} (h : Sound setup roots ⟨p, [], none, s⟩)
    (hnext : Next setup s s') : ∃ p', Sound setup roots ⟨p', [], none, s'⟩ := by
  obtain ⟨current, rest, hline, hstep⟩ := hnext
  exact ⟨_, (h.take hline).advance.acts (acts_of_step h hline hstep)⟩

/-- The invariant holds in every state that a run comes through. -/
theorem sound_of_reaches {p : Position} {s s' : Sweep} (h : Sound setup roots ⟨p, [], none, s⟩)
    (hreach : Reaches setup s s') : ∃ p', Sound setup roots ⟨p', [], none, s'⟩ := by
  induction hreach with
  | refl => exact ⟨p, h⟩
  | tail _ hnext ih =>
    obtain ⟨p', h'⟩ := ih
    exact sound_of_next h' hnext

/-- What moving on to the next interval keeps, and every act, holds in every state that a run
comes through. -/
theorem invariant_of_reaches {I : Midway → Prop}
    (hready : ∀ p s current rest, Sound setup roots ⟨p, [], none, s⟩ → I ⟨p, [], none, s⟩ →
      s.waiting = current :: rest → I ⟨current.start, [current], none,
        { s with waiting := rest }.ready setup current.start⟩)
    (hact : ∀ m m', Sound setup roots m → I m → Act setup m m' → I m')
    {p : Position} {s s' : Sweep} (hsound : Sound setup roots ⟨p, [], none, s⟩)
    (h : I ⟨p, [], none, s⟩) (hreach : Reaches setup s s') :
    ∃ p', Sound setup roots ⟨p', [], none, s'⟩ ∧ I ⟨p', [], none, s'⟩ := by
  induction hreach with
  | refl => exact ⟨p, hsound, h⟩
  | @tail s' s'' _ hnext ih =>
    obtain ⟨p', hsound', h'⟩ := ih
    obtain ⟨current, rest, hline, hstep⟩ := hnext
    have hbegin := (hsound'.take hline).advance
    have hacts := acts_of_step hsound' hline hstep
    refine ⟨current.start, hbegin.acts hacts, ?_⟩
    generalize (⟨current.start, [], none, s''⟩ : Midway) = m at hacts ⊢
    induction hacts with
    | refl => exact hready p' s' current rest hsound' h' hline
    | tail hacts hlast ih => exact hact _ _ (hbegin.acts hacts) ih hlast

/-- A run with enough fuel ends with nothing waiting, or because a demand cannot be met. -/
theorem run_ensures : ∀ {fuel : Nat} {p : Position} {s : Sweep},
    Sound setup roots ⟨p, [], none, s⟩ → Midway.budget ⟨p, [], none, s⟩ ≤ fuel →
    Ensures (run setup fuel s) (fun s' => Reaches setup s s' ∧ s'.waiting = []) Blocked
  | 0, p, s, h, hfuel => by
    cases hline : s.waiting with
    | nil =>
      rw [run, hline]
      exact ⟨.refl, hline⟩
    | cons current rest =>
      have := budget_take h hline
      omega
  | fuel + 1, p, s, h, hfuel => by
    rw [run]
    cases hline : s.waiting with
    | nil => exact ⟨.refl, hline⟩
    | cons current rest =>
      have hsound := h.take hline
      refine Ensures.bind (P := fun s' => step setup { s with waiting := rest } current = .ok s' ∧
        Acts setup ⟨current.start, [current], none,
          { s with waiting := rest }.ready setup current.start⟩
          ⟨current.start, [], none, s'⟩) ?_ ?_
      · have hensures := step_acts hsound (h.ahead current (by simp [hline])).2
        cases hstep : step setup { s with waiting := rest } current with
        | ok s' => exact ⟨rfl, hensures.of_eq_ok hstep⟩
        | error v => exact hensures.of_eq_error hstep
      · rintro s' ⟨hstep, hacts⟩
        have htake := budget_take h hline
        have hadvance : Midway.budget ⟨current.start, [current], none,
              { s with waiting := rest }.ready setup current.start⟩ ≤
            Midway.budget ⟨current.start, [current], none, { s with waiting := rest }⟩ :=
          budget_advance
        have hbudget := budget_acts hsound.advance hacts
        refine (run_ensures (hsound.advance.acts hacts) (by omega)).mono ?_
        rintro s'' ⟨hreach, hempty⟩
        exact ⟨.head ⟨current, rest, hline, hstep⟩ hreach, hempty⟩

/-- The pieces that are placed are those finished and those that hold a register. -/
theorem placed_perm (s : Sweep) : (s.done ++ (s.active ++ s.inactive)).Perm s.placed := by
  rw [placed, List.append_assoc]
  exact (sortBy_perm ..).symm

/-! ## From lifetimes to pieces -/

/-- Intervals that a sweep can be given: whole lifetimes, one a register. -/
structure Rooted (roots : List Interval) : Prop where
  shaped : ∀ i ∈ roots, i.Shaped
  used : ∀ i ∈ roots, i.Used
  single : (roots.map (·.register)).Nodup
  whole : ∀ i ∈ roots, i.origin = .whole
  unplaced : ∀ i ∈ roots, i.location = none

/-- The state in which a sweep begins. -/
def opening (roots : List Interval) : Sweep :=
  { waiting := sortBy takenBefore roots, nextId := roots.length }

/-- What a sweep of intervals relies on. -/
def setupOf (order : LinearOrder) (roots : List Interval) (pool : List String) : Setup :=
  { order, pool, ends := roots.map fun i => (i.register, i.stop) }

theorem lineUp_eq (h : ∀ i ∈ roots, i.ranges ≠ []) : lineUp roots = .ok (opening roots) := by
  have hchecked : (Runs.meetingOrder takenBefore roots).forM (·.checkNonempty) = .ok ⟨⟩ :=
    forM_eq_ok.2 fun i hi => Interval.checkNonempty_eq_ok (h i (Runs.mem_meetingOrder.1 hi))
  rw [lineUp, hchecked]
  rfl

theorem pairwise_opening (h : Rooted roots) :
    (opening roots).waiting.Pairwise fun i j => takenBefore i j = true :=
  pairwise_sortBy takenBefore_trans <|
    (List.pairwise_map.1 h.single).imp fun hne => takenBefore_total hne

/-- The invariant holds as a sweep begins. -/
theorem sound_opening (setup : Setup) (h : Rooted roots) :
    ∃ p, Sound setup roots ⟨p, [], none, opening roots⟩ := by
  have hperm : roots.Perm (opening roots).pending := by
    simpa [pending, opening] using (sortBy_perm takenBefore roots).symm
  -- everything starts with the first interval in line or later
  have hahead : ∃ p, ∀ i ∈ (opening roots).waiting, p ≤ i.start := by
    have hsorted := pairwise_opening h
    cases hline : (opening roots).waiting with
    | nil => exact ⟨0, by simp⟩
    | cons first rest =>
      rw [hline, List.pairwise_cons] at hsorted
      refine ⟨first.start, fun i hi => ?_⟩
      rcases List.mem_cons.1 hi with rfl | hi
      · exact Int.le_refl _
      · exact start_le_of_takenBefore (hsorted.1 i hi)
  obtain ⟨p, hp⟩ := hahead
  -- nothing has been placed, so nothing can meet
  have hholding : Holding p [] roots := by
    refine ⟨(List.pairwise_map.1 h.single).imp_of_mem fun hi _ _ => ?_, by simp⟩
    exact Interval.apart_of_ne (by simp [h.unplaced _ hi]) _
  exact ⟨p, ⟨(Tiling.start h.shaped h.used h.single h.whole).perm hperm, hholding.perm hperm,
    pairwise_opening h, fun i hi => ⟨hp i hi, h.unplaced i (mem_sortBy.1 hi)⟩, by simp [opening]⟩⟩

/-- A sweep has as much fuel as its run needs. -/
theorem budget_opening (p : Position) :
    Midway.budget ⟨p, [], none, opening roots⟩ ≤ coverage roots := by
  have hperm := coverage_perm (sortBy_perm takenBefore roots)
  simp [Midway.budget, opening, hperm]

/-- A sweep of whole lifetimes runs until nothing is waiting, or stops because a demand
cannot be met. -/
theorem sweep_ensures {order : LinearOrder} {lives : List Lifetime} {pool : List String}
    (h : Rooted (lives.map (·.root))) :
    Ensures (sweep order lives pool) (fun swept => ∃ s,
      Reaches (setupOf order (lives.map (·.root)) pool) (opening (lives.map (·.root))) s ∧
        s.waiting = [] ∧ swept =
          { lives := lives.map (collect s.placed)
            intervals := s.placed
            slotCount := s.slotCount }) Blocked := by
  obtain ⟨p, hsound⟩ := sound_opening (setupOf order (lives.map (·.root)) pool) h
  rw [sweep, lineUp_eq fun i hi => (h.shaped i hi).nonempty]
  refine Ensures.bind (P := fun s => s = opening (lives.map (·.root))) rfl ?_
  rintro _ rfl
  refine Ensures.bind (run_ensures hsound (budget_opening p)) ?_
  rintro s ⟨hreach, hempty⟩
  exact ⟨s, hreach, hempty, rfl⟩

end Sweep

end RegAlloc
