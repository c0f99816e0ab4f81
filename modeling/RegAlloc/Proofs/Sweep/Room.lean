import RegAlloc.Proofs.Sweep.Candidates
import RegAlloc.Proofs.Sweep.Whole

/-!
# When a sweep finds room

A sweep can always take a free register, and it can always cut an interval where a cut is
called for. What can go wrong is that no register is free and the value that has to go to
memory is needed in a register again before a stay in memory could end. That is the only
reason for which a sweep stops.

- `memoryFrom` — where a stay in memory would begin;
- `spill_returns_iff`, `evict_returns_iff`, `makeRoom_returns_iff` — the parts of a step;
- `Stuck`, `step_returns_iff` — a step returns unless it is stuck;
- `returns_iff` — a sweep returns unless it comes to a step that is stuck.
-/

namespace RegAlloc

namespace Sweep

variable {setup : Setup} {roots : List Interval}

/-- A choice is made as long as there is one. -/
theorem choose_eq_none {s : Sweep} {current : Interval} {free : List String} :
    s.choose current free = none ↔ free = [] := by
  rw [choose]
  constructor
  · intro h
    split at h
    · cases h
    · exact List.head?_eq_none_iff.1 (Option.or_eq_none_iff.1 h).2
  · rintro rfl
    simp

/-! ## Going to memory -/

theorem checkRoom_eq_ok {nextUse : Option Position} {spillFrom : Position} :
    checkRoom nextUse spillFrom = .ok () ↔ ∀ use, nextUse = some use → spillFrom < use - 1 := by
  cases nextUse with
  | none => simp [checkRoom]
  | some use =>
    unfold checkRoom
    by_cases hroom : spillFrom < use - 1 <;> simp [hroom]

/-- An interval can stay in memory if it starts early enough before its next required use. -/
theorem spill_returns_iff (setup : Setup) (s : Sweep) {i : Interval}
    {nextUse : Option Position} (p : Position) (hshaped : i.Shaped)
    (huse : ∀ use, nextUse = some use → use < i.stop) :
    (∃ s', s.spill setup i nextUse p = .ok s') ↔
      ∀ use, nextUse = some use → i.start < use - 1 := by
  have hshaped' : { i with location := some (.slot (s.homeSlot i.register).2) }.Shaped :=
    ⟨hshaped.ordered, hshaped.nonempty⟩
  rw [spill]
  cases nextUse with
  | none => exact ⟨fun _ => by simp, fun _ => ⟨_, rfl⟩⟩
  | some use =>
    have hlt := huse use rfl
    have hle := cutPosition_le setup.order (max i.start (p - 1)) (use - 1)
    have hafter : i.start ≤ max i.start (p - 1) := Int.le_max_left ..
    constructor
    -- the cut is inside the interval, and not behind the use
    · rintro ⟨s', hs'⟩ _ ⟨⟩
      obtain ⟨sides, hsides, -⟩ := bind_eq_ok.1 hs'
      have hstart := ((split_ensures hshaped' _ _).of_eq_ok hsides).1
      show i.start < use - 1
      exact Int.lt_of_lt_of_le hstart hle
    · intro hroom
      have hstart : i.start < cutPosition setup.order (max i.start (p - 1)) (use - 1) := by
        -- a start of a block is in the window, and the latest cut has the room
        rcases cutPosition_cases setup.order (max i.start (p - 1)) (use - 1) with
          heq | ⟨span, -, heq, hwindow, -⟩
        · rw [heq]
          exact hroom use rfl
        · lia
      have hsplit := Interval.split_eq hshaped'
        (cutPosition setup.order (max i.start (p - 1)) (use - 1)) (s.homeSlot i.register).1.nextId
      rw [if_pos ⟨hstart, by show _ < i.stop; lia⟩] at hsplit
      exact ⟨_, bind_eq_ok.2 ⟨_, hsplit, rfl⟩⟩

/-- Where the stay in memory would begin of an interval that has to leave by `limit`. -/
def memoryFrom (order : LinearOrder) (i : Interval) (limit : Position) : Position :=
  if limit ≤ i.start then i.start
  else max limit (i.cutOff (cutPosition order (lastUseBefore i limit) limit) 0).start

theorem start_le_lastUseBefore {i : Interval} (hshaped : i.Shaped) (hused : i.Used)
    (p : Position) : i.start ≤ lastUseBefore i p := by
  refine List.foldlRecOn (motive := (i.start ≤ ·)) _ _ (Int.le_refl _) fun latest hlatest u hu => ?_
  split
  · exact Interval.start_le hshaped (hused.covered u hu)
  · exact hlatest

/-- The cut by which an interval leaves its register falls inside of it. -/
theorem cut_inside (order : LinearOrder) {i : Interval} {p limit : Position}
    (hshaped : i.Shaped) (hused : i.Used) (hcovers : i.covers p = true) (hlimit : limit ≤ p)
    (hstart : i.start < limit) :
    i.start < cutPosition order (lastUseBefore i limit) limit ∧
      cutPosition order (lastUseBefore i limit) limit ≤ limit ∧
      cutPosition order (lastUseBefore i limit) limit < i.stop := by
  have hle := cutPosition_le order (lastUseBefore i limit) limit
  have hlast := start_le_lastUseBefore hshaped hused limit
  have hstop := Interval.lt_stop hshaped hcovers
  refine ⟨?_, hle, by lia⟩
  rcases cutPosition_cases order (lastUseBefore i limit) limit with
    heq | ⟨span, -, heq, hwindow, -⟩ <;> lia

/-- A stay in memory begins by the time that the register is needed. -/
theorem memoryFrom_le (order : LinearOrder) {i : Interval} {p limit : Position}
    (hshaped : i.Shaped) (hused : i.Used) (hcovers : i.covers p = true) (hlimit : limit ≤ p) :
    memoryFrom order i limit ≤ p := by
  unfold memoryFrom
  split
  · exact Interval.start_le hshaped hcovers
  · next hstart =>
    obtain ⟨-, hle, hlt⟩ :=
      cut_inside order hshaped hused hcovers hlimit (Int.not_le.1 hstart)
    have hrest := Interval.start_le (Interval.shaped_cutOff hshaped hlt 0)
      (Interval.covers_cutOff.2 ⟨hcovers, Int.le_trans hle hlimit⟩)
    exact Int.max_le.2 ⟨hlimit, hrest⟩

/-- A next required use of an interval lies before its end. -/
theorem lt_stop_of_nextUse {i : Interval} (hshaped : i.Shaped) (hused : i.Used)
    {limit use : Position} (huse : i.nextRegisterUse? limit = some use) : use < i.stop := by
  obtain ⟨-, ⟨u, hu, rfl, -⟩, -⟩ := Interval.nextRegisterUse?_eq_some hused huse
  exact Interval.lt_stop hshaped (hused.covered u hu)

/-- An active interval can leave its register if its stay in memory can begin early enough
before its next required use. -/
theorem evict_returns_iff (setup : Setup) (s : Sweep) {i : Interval} {p limit : Position}
    (hshaped : i.Shaped) (hused : i.Used) (hcovers : i.covers p = true) (hlimit : limit ≤ p)
    (hroom : checkRoom (i.nextRegisterUse? limit) (max limit i.start) = .ok ()) :
    (∃ s', s.evict setup i limit (i.nextRegisterUse? limit) p = .ok s') ↔
      ∀ use, i.nextRegisterUse? limit = some use →
        memoryFrom setup.order i limit < use - 1 := by
  rw [checkRoom_eq_ok] at hroom
  unfold evict memoryFrom
  split
  -- the whole interval goes to memory
  · exact spill_returns_iff setup s p hshaped fun use huse =>
      lt_stop_of_nextUse hshaped hused huse
  -- the front stays in the register up to the cut, and the rest goes to memory
  · next hstart =>
    obtain ⟨hinside, hle, hlt⟩ :=
      cut_inside setup.order hshaped hused hcovers hlimit (Int.not_le.1 hstart)
    have hsplit := Interval.split_eq hshaped
      (cutPosition setup.order (lastUseBefore i limit) limit) s.nextId
    rw [if_pos ⟨hinside, hlt⟩] at hsplit
    generalize cutPosition setup.order (lastUseBefore i limit) limit = q at *
    have hnext : (i.cutOff q s.nextId).nextRegisterUse? limit = i.nextRegisterUse? limit :=
      Interval.nextRegisterUse?_cutOff hle
    have hshaped' := Interval.shaped_cutOff hshaped hlt s.nextId
    have hused' := Interval.used_cutOff hused q s.nextId
    have hbefore : ∀ use, i.nextRegisterUse? limit = some use →
        use < (i.cutOff q s.nextId).stop := fun use huse =>
      lt_stop_of_nextUse hshaped' hused' (hnext.trans huse)
    have hrest := spill_returns_iff setup (s.finishFront i q) p hshaped' hbefore
    -- the room before `limit` has been checked, and the rest starts where it starts
    constructor
    · rintro ⟨s', hs'⟩ use huse
      obtain ⟨_, hsides, hs'⟩ := bind_eq_ok.1 hs'
      cases hsplit.symm.trans hsides
      have hstarts := hrest.1 ⟨s', hs'⟩ use huse
      have hlimits := hroom use huse
      exact Int.max_lt.2 ⟨by lia, hstarts⟩
    · intro hlong
      have hstarts : ∀ use, i.nextRegisterUse? limit = some use →
          (i.cutOff q s.nextId).start < use - 1 := fun use huse =>
        (Int.max_lt.1 (hlong use huse)).2
      obtain ⟨s', hs'⟩ := hrest.2 hstarts
      exact ⟨s', bind_eq_ok.2 ⟨_, hsplit, hs'⟩⟩

section MakeRoom

variable {p : Position} {current : Interval} {s : Sweep}
  (h : Sound setup roots ⟨p, [current], none, s⟩) (hcurrent : current.start = p)

include h hcurrent

/-- The interval that was taken can go to memory, from its start on, if it is not needed in a
register too soon. -/
theorem makeRoom_self_returns_iff
    (hvictim : s.victim current p = (none, ⟨current, current.nextRegisterUse? p⟩)) :
    (∃ s', s.makeRoom setup current p = .ok s') ↔
      ∀ use, current.nextRegisterUse? p = some use → current.start < use - 1 := by
  have hshaped : current.Shaped := h.shaped (by simp)
  have hbefore : ∀ use, current.nextRegisterUse? p = some use → use < current.stop :=
    fun use huse => lt_stop_of_nextUse hshaped (h.used (by simp)) huse
  have hspill := spill_returns_iff setup s p hshaped hbefore
  rw [makeRoom, hvictim, ← hspill]
  dsimp only
  constructor
  · rintro ⟨s', hs'⟩
    obtain ⟨-, -, hs'⟩ := bind_eq_ok.1 hs'
    exact ⟨s', hs'⟩
  · rintro ⟨s', hs'⟩
    have hroom := hspill.1 ⟨s', hs'⟩
    rw [hcurrent] at hroom
    exact ⟨s', bind_eq_ok.2 ⟨⟨⟩, checkRoom_eq_ok.2 hroom, hs'⟩⟩

variable (hunplaced : current.location = none) (hactive : ∀ i ∈ s.active, i.covers p = true)
  (hholes : ∀ i ∈ s.inactive, i.covers p = false)

include hunplaced hactive hholes

/-- An active interval can make room if it can leave its register. -/
theorem makeRoom_other_returns_iff {index : Nat} {i : Interval} (hindex : s.active[index]? = some i)
    (hvictim : s.victim current p =
      (some index, ⟨i, i.nextRegisterUse? (evictBy current p)⟩)) :
    (∃ s', s.makeRoom setup current p = .ok s') ↔
      ∀ use, i.nextRegisterUse? (evictBy current p) = some use →
        memoryFrom setup.order i (evictBy current p) < use - 1 := by
  have hle := evictBy_le current p
  have hi : i ∈ s.active := List.mem_of_getElem? hindex
  have hshaped : i.Shaped := h.shaped (by simp [pending, hi])
  have hused : i.Used := h.used (by simp [pending, hi])
  have hcovers := hactive i hi
  obtain ⟨-, name, hname, hloc⟩ := h.begun i (by simp [hi])
  rw [makeRoom, hvictim]
  dsimp only
  constructor
  · rintro ⟨s', hs'⟩
    -- the room is checked first, then the victim goes to memory
    obtain ⟨⟨⟩, hroom, hs'⟩ := bind_eq_ok.1 hs'
    obtain ⟨_, -, hs'⟩ := bind_eq_ok.1 hs'
    obtain ⟨s'', hevict, -⟩ := bind_eq_ok.1 hs'
    exact (evict_returns_iff setup _ hshaped hused hcovers hle hroom).1 ⟨s'', hevict⟩
  · intro hlong
    -- memory begins no earlier than the position that is checked
    have hroom : checkRoom (i.nextRegisterUse? (evictBy current p))
        (max (evictBy current p) i.start) = .ok () := by
      refine checkRoom_eq_ok.2 fun use huse => Int.lt_of_le_of_lt ?_ (hlong use huse)
      unfold memoryFrom
      split <;> lia
    obtain ⟨s', hevict⟩ := (evict_returns_iff setup
      { s with active := s.active.eraseIdx index } hshaped hused hcovers hle hroom).2 hlong
    rw [checkRoom_eq_ok] at hroom
    -- the register that the victim leaves can be taken
    obtain ⟨hacts, hactive', hinactive'⟩ := (evict_acts (.single (pick_act hindex)) hshaped hused
      hcurrent hunplaced hloc hcovers hroom).of_eq_ok hevict
    obtain ⟨s'', hassign, -⟩ := (assign_vacated h hcurrent hunplaced hactive hholes hindex hname
      hloc hacts hactive' hinactive').exists_ok
    exact ⟨s'', bind_eq_ok.2 ⟨⟨⟩, checkRoom_eq_ok.2 hroom, bind_eq_ok.2
      ⟨name, registerOf_eq_ok hloc, bind_eq_ok.2 ⟨s', hevict, hassign⟩⟩⟩⟩

/-- Room can be made if the candidate can stay in memory long enough. -/
theorem makeRoom_returns_iff : (∃ s', s.makeRoom setup current p = .ok s') ↔
    ∀ use, (s.victim current p).2.nextUse = some use →
      memoryFrom setup.order (s.victim current p).2.interval (evictBy current p) < use - 1 := by
  rcases victim_cases s current p with hvictim | ⟨index, i, hindex, hvictim⟩
  · have hfrom : memoryFrom setup.order current (evictBy current p) = current.start :=
      if_pos (hcurrent ▸ evictBy_le current p)
    rw [makeRoom_self_returns_iff h hcurrent hvictim, hvictim, hfrom]
  · rw [makeRoom_other_returns_iff h hcurrent hunplaced hactive hholes hindex hvictim, hvictim]

end MakeRoom

/-! ## One step -/

/-- No register is free, and the candidate for memory is needed in one again before a stay
in memory could end. -/
def Stuck (setup : Setup) (s : Sweep) (current : Interval) : Prop :=
  (∀ name ∈ setup.pool, s.isFree name = false) ∧
    ∃ use, (s.victim current current.start).2.nextUse = some use ∧
      use ≤ memoryFrom setup.order (s.victim current current.start).2.interval
        (evictBy current current.start) + 1

/-- A step returns unless it is stuck once it has moved on. -/
theorem step_returns_iff {current : Interval} {s : Sweep}
    (h : Sound setup roots ⟨current.start, [current], none, s⟩)
    (hunplaced : current.location = none) :
    (∃ s', step setup s current = .ok s') ↔
      ¬ Stuck setup (s.ready setup current.start) current := by
  have hcovers : ∀ i ∈ (s.ready setup current.start).active, i.covers current.start = true :=
    fun i hi => mem_active_advanced hi
  have hholes : ∀ i ∈ (s.ready setup current.start).inactive, i.covers current.start = false :=
    fun i hi => mem_inactive_advanced hi
  rw [step_eq h]
  cases hchoose : (s.ready setup current.start).choose current
      (setup.pool.filter (s.ready setup current.start).isFree) with
  | some name =>
    -- a free register can always be taken
    obtain ⟨hname, hfree⟩ := List.mem_filter.1 (mem_of_choose hchoose)
    obtain ⟨s', hs', -⟩ := (assign_acts h.advance rfl hunplaced hname (.inl rfl)
      (isFree_iff.1 hfree) hholes).exists_ok
    exact ⟨fun _ hstuck => by simp [hstuck.1 name hname] at hfree, fun _ => ⟨s', hs'⟩⟩
  | none =>
    -- no register is free, so it depends on the room
    have htaken : ∀ name ∈ setup.pool, (s.ready setup current.start).isFree name = false := by
      intro name hname
      simpa using List.filter_eq_nil_iff.1 (choose_eq_none.1 hchoose) name hname
    dsimp only
    rw [makeRoom_returns_iff h.advance rfl hunplaced hcovers hholes]
    constructor
    · rintro hroom ⟨-, use, huse, hle⟩
      have := hroom use huse
      lia
    · intro hnot use huse
      refine Decidable.byContradiction fun hle => hnot ⟨htaken, use, huse, ?_⟩
      lia

/-! ## Runs -/

/-- A run stops at a step that stops, or for lack of fuel. -/
theorem exists_step_of_run {v : Violation} : ∀ {fuel : Nat} {s : Sweep},
    run setup fuel s = .error v → v = .sweepUnfinished ∨
      ∃ s' current rest, Reaches setup s s' ∧ s'.waiting = current :: rest ∧
        step setup { s' with waiting := rest } current = .error v
  | 0, s, h => by
    rw [run] at h
    split at h
    · cases h
    · cases h
      exact .inl rfl
  | fuel + 1, s, h => by
    rw [run] at h
    cases hline : s.waiting with
    | nil =>
      rw [hline] at h
      cases h
    | cons current rest =>
      rw [hline] at h
      cases hstep : step setup { s with waiting := rest } current with
      | error v' =>
        simp only [hstep, bind, Except.bind] at h
        cases h
        exact .inr ⟨s, current, rest, .refl, hline, hstep⟩
      | ok s' =>
        simp only [hstep, bind, Except.bind] at h
        refine (exists_step_of_run h).imp_right ?_
        rintro ⟨s'', next, rest', hreach, hline', hstop⟩
        exact ⟨s'', next, rest', .head ⟨current, rest, hline, hstep⟩ hreach, hline', hstop⟩

/-- A run comes to a step that is stuck. -/
def GetsStuck (setup : Setup) (first : Sweep) : Prop :=
  ∃ s current rest, Reaches setup first s ∧ s.waiting = current :: rest ∧
    Stuck setup ({ s with waiting := rest }.ready setup current.start) current

/-- In every state that a run comes through, the next step returns unless it is stuck. -/
theorem step_returns_of_reaches {p : Position} {first s : Sweep}
    (h : Sound setup roots ⟨p, [], none, first⟩) (hreach : Reaches setup first s)
    {current : Interval} {rest : List Interval} (hline : s.waiting = current :: rest) :
    (∃ s', step setup { s with waiting := rest } current = .ok s') ↔
      ¬ Stuck setup ({ s with waiting := rest }.ready setup current.start) current := by
  obtain ⟨p', hsound⟩ := sound_of_reaches h hreach
  exact step_returns_iff (hsound.take hline) (hsound.ahead current (by simp [hline])).2

/-- A run with enough fuel returns unless it comes to a step that is stuck. -/
theorem run_returns_iff {fuel : Nat} {p : Position} {first : Sweep}
    (h : Sound setup roots ⟨p, [], none, first⟩)
    (hfuel : Midway.budget ⟨p, [], none, first⟩ ≤ fuel) :
    (∃ s, run setup fuel first = .ok s) ↔ ¬ GetsStuck setup first := by
  have hensures := run_ensures h hfuel
  constructor
  · rintro ⟨last, hrun⟩ ⟨s, current, rest, hreach, hline, hstuck⟩
    obtain ⟨hlast, hempty⟩ := hensures.of_eq_ok hrun
    refine (step_returns_of_reaches h hreach hline).1 ?_ hstuck
    -- the run went on from every state that it came through
    rcases Relation.ReflTransGen.cases_head (reaches_last hlast hempty hreach) with
      rfl | ⟨s', ⟨current', rest', hline', hs'⟩, -⟩
    · simp [hempty] at hline
    · cases hline.symm.trans hline'
      exact ⟨s', hs'⟩
  · intro hfree
    cases hrun : run setup fuel first with
    | ok last => exact ⟨last, rfl⟩
    | error v =>
      have hblocked := hensures.of_eq_error hrun
      -- a run that fails has come to a step that does
      rcases exists_step_of_run hrun with rfl | ⟨s, current, rest, hreach, hline, hstop⟩
      · exact hblocked.elim
      · obtain ⟨s', hs'⟩ := (step_returns_of_reaches h hreach hline).2 fun hstuck =>
          hfree ⟨s, current, rest, hreach, hline, hstuck⟩
        cases hstop.symm.trans hs'

/-- A sweep of whole lifetimes returns unless it comes to a step that is stuck. -/
theorem returns_iff {order : LinearOrder} {lives : List Lifetime} {pool : List String}
    (h : Rooted (lives.map (·.root))) : (∃ swept, sweep order lives pool = .ok swept) ↔
      ¬ GetsStuck (setupOf order (lives.map (·.root)) pool) (opening (lives.map (·.root))) := by
  obtain ⟨p, hopening⟩ := sound_opening (setupOf order (lives.map (·.root)) pool) h
  rw [← run_returns_iff hopening (budget_opening p), sweep,
    lineUp_eq fun i hi => (h.shaped i hi).nonempty]
  constructor
  · rintro ⟨swept, hswept⟩
    obtain ⟨_, ⟨⟩, hswept⟩ := bind_eq_ok.1 hswept
    obtain ⟨s, hrun, -⟩ := bind_eq_ok.1 hswept
    exact ⟨s, hrun⟩
  · rintro ⟨s, hrun⟩
    exact ⟨_, bind_eq_ok.2 ⟨_, rfl, bind_eq_ok.2 ⟨s, hrun, rfl⟩⟩⟩

end Sweep

end RegAlloc
