import Mathlib.Data.List.Perm.Basic
import Mathlib.Logic.Relation
import RegAlloc.Proofs.Sweep.Acts

/-!
# A sweep is a sequence of acts

Each function of the sweep, run on a sound state, either performs a sequence of acts or
stops because it cannot meet a demand. Its own bookkeeping never gets in the way: every
placed interval holds a register, an interval that resumes finds its register free, and
an interval that is displaced resumes at some point.

- `Acts` — a sequence of acts;
- `Blocked` — the ways in which a sweep may stop;
- `displace_acts`, `assign_acts`, `spill_acts`, `evict_acts`, `makeRoom_acts` — the parts;
- `step_acts` — a step.
-/

namespace RegAlloc

namespace Sweep

/-- A sequence of acts. -/
abbrev Acts (setup : Setup) : Midway → Midway → Prop := Relation.ReflTransGen (Act setup)

/-- The ways in which a sweep may stop: too many values need a register, or a value
cannot be kept in memory for as short a time as it would have to be. -/
def Blocked : Violation → Prop
  | .tooManyValues _ => True
  | .cannotSplit .. => True
  | _ => False

variable {setup : Setup} {roots : List Interval}

theorem Sound.acts {m m' : Midway} (h : Sound setup roots m) (hacts : Acts setup m m') :
    Sound setup roots m' := by
  induction hacts with
  | refl => exact h
  | tail _ hact ih => exact ih.act hact

/-! ## Taking a register -/

/-- A rival in a hole resumes, and is cut there. -/
theorem displace_acts {E : Violation → Prop} {p : Position} {rival : Interval}
    {hand : List Interval}
    {promised : Option (String × Interval)} {s : Sweep} (hshaped : rival.Shaped)
    (hbegun : rival.start ≤ p ∧ ∃ name ∈ setup.pool, rival.location = some (.register name))
    (hhole : rival.covers p = false) (hlater : ∃ q, p ≤ q ∧ rival.covers q = true) :
    Ensures (displace p s rival) (fun s' =>
      Act setup ⟨p, rival :: hand, promised, s⟩ ⟨p, hand, promised, s'⟩ ∧
        s'.active = s.active ∧ s'.inactive = s.inactive) E := by
  obtain ⟨q, hpq, hq⟩ := hlater
  obtain ⟨resume, hresume⟩ := Ranges.exists_nextStart? hhole hq hpq
  obtain ⟨hlt, hcovers, hgap⟩ := Ranges.nextStart?_eq_some hshaped.ordered hresume hhole
  have hstart : rival.start < resume := by lia
  have hstop : resume < rival.stop := Interval.lt_stop hshaped hcovers
  have hsplit := Interval.split_eq hshaped resume s.nextId
  rw [if_pos ⟨hstart, hstop⟩] at hsplit
  rw [displace, Interval.nextRangeStart?, hresume]
  dsimp only
  rw [hsplit]
  exact ⟨.displace hlt hcovers hgap hstart hbegun.2, rfl, rfl⟩

/-- A register that no active interval is in can be taken. -/
theorem assign_acts {E : Violation → Prop} {p : Position} {current : Interval} {name : String}
    {promised : Option (String × Interval)} {s : Sweep}
    (h : Sound setup roots ⟨p, [current], promised, s⟩) (hcurrent : current.start = p)
    (hunplaced : current.location = none) (hname : name ∈ setup.pool)
    (hpromised : promised = none ∨ promised = some (name, current))
    (hfree : ∀ i ∈ s.active, i.location ≠ some (.register name))
    (hholes : ∀ i ∈ s.inactive, i.covers p = false) :
    Ensures (s.assign current name p)
      (fun s' => Acts setup ⟨p, [current], promised, s⟩ ⟨p, [], none, s'⟩) E := by
  -- the intervals in the register that meet `current` are picked up
  let others := s.inactive.filter fun i => !(i.isIn name && i.meets current)
  have hpick : Act setup ⟨p, [current], promised, s⟩
      ⟨p, s.rivals name current ++ [current], promised, { s with inactive := others }⟩ := by
    refine .pick (List.Sublist.refl _) (List.filter_sublist) ?_
    have hsplit : s.inactive.Perm (s.rivals name current ++ others) :=
      (List.filter_append_perm _ s.inactive).symm
    exact (hsplit.append_left s.active).trans (List.perm_append_comm_assoc ..)
  have hshaped : current.Shaped := h.shaped (by simp)
  have hascending : ∀ i ∈ s.inactive, Ranges.Ascending i.ranges := fun i hi =>
    (h.shaped (by simp [pending, hi])).ordered.ascending
  rw [assign]
  -- the rivals are displaced one after the other
  refine Ensures.bind (Ensures.foldlM (fun rest s' =>
      Acts setup ⟨p, [current], promised, s⟩ ⟨p, rest ++ [current], promised, s'⟩ ∧
        s'.active = s.active ∧ s'.inactive = others ∧ rest ⊆ s.rivals name current) ?_
      ⟨.single hpick, rfl, rfl, List.Subset.refl _⟩) ?_
  · rintro rival rest s' ⟨hacts, hactive, hinactive, hsub⟩
    obtain ⟨hrival, hmeets⟩ := List.mem_filter.1 (hsub List.mem_cons_self)
    rw [Bool.and_eq_true,
      Interval.meets_eq_true_iff (hascending rival hrival) hshaped.ordered.ascending] at hmeets
    -- a rival meets `current` behind `p`, so it resumes there
    obtain ⟨-, q, hq, hqcurrent⟩ := hmeets
    have hlater : p ≤ q := hcurrent ▸ Interval.start_le hshaped hqcurrent
    have hdisplace : Ensures (displace p s' rival) (fun s'' =>
        Act setup ⟨p, rival :: (rest ++ [current]), promised, s'⟩
          ⟨p, rest ++ [current], promised, s''⟩ ∧
          s''.active = s'.active ∧ s''.inactive = s'.inactive) E :=
      displace_acts ((h.acts hacts).shaped (by simp)) (h.begun rival (by simp [hrival]))
        (hholes rival hrival) ⟨q, hlater, hq⟩
    refine hdisplace.mono ?_
    rintro s'' ⟨hact, hactive', hinactive'⟩
    exact ⟨hacts.tail hact, hactive'.trans hactive, hinactive'.trans hinactive,
      fun x hx => hsub (List.mem_cons_of_mem _ hx)⟩
  · rintro s' ⟨hacts, hactive, hinactive, -⟩
    -- all rivals are gone, so nobody who is left in the register meets `current`
    refine hacts.tail (.settle hcurrent hunplaced hname hpromised fun j hj hloc q hq => ?_)
    rw [hactive, hinactive, List.mem_append, List.mem_filter] at hj
    rcases hj with hj | ⟨hj, hclear⟩
    · exact absurd hloc (hfree j hj)
    · simp only [isIn_iff.2 hloc, Bool.true_and, Bool.not_eq_true'] at hclear
      rw [Interval.meets_eq_false_iff (hascending j hj) hshaped.ordered.ascending] at hclear
      rw [Bool.eq_false_iff]
      intro hjq
      simp [hclear q hjq] at hq

/-! ## Making room -/

/-- A cut yields the two sides, if it falls inside. -/
theorem split_ensures {i : Interval} (h : i.Shaped) (q : Position) (id : IntervalId) :
    Ensures (i.split q id) (fun sides =>
      i.start < q ∧ q < i.stop ∧ sides = (i.keepBefore q, i.cutOff q id)) Blocked := by
  rw [Interval.split_eq h]
  split
  · next hinside => exact ⟨hinside.1, hinside.2, rfl⟩
  · trivial

/-- An interval in its home slot stays there to its end, or is cut to be loaded again. -/
theorem spill_acts {p limit : Position} {i : Interval} {hand : List Interval}
    {promised : Option (String × Interval)} {m : Midway} {s : Sweep} (hshaped : i.Shaped)
    (hused : i.Used) (hstored : ∀ u ∈ i.uses, limit ≤ u.position)
    (hacts : Acts setup m ⟨p, { i with location := some (.slot (s.homeSlot i.register).2) } :: hand,
      promised, (s.homeSlot i.register).1⟩) (hlimit : limit ≤ p)
    (hroom : ∀ use, i.nextRegisterUse? limit = some use → p ≤ use - 1) :
    Ensures (s.spill setup i (i.nextRegisterUse? limit) p) (fun s' =>
      Acts setup m ⟨p, hand, promised, s'⟩ ∧
        s'.active = s.active ∧ s'.inactive = s.inactive) Blocked := by
  have hframe := homeSlot_frame (Prod.eta (s.homeSlot i.register)).symm
  have hactive : (s.homeSlot i.register).1.active = s.active := by rw [hframe]
  have hinactive : (s.homeSlot i.register).1.inactive = s.inactive := by rw [hframe]
  have hshaped' : { i with location := some (.slot (s.homeSlot i.register).2) }.Shaped :=
    ⟨hshaped.ordered, hshaped.nonempty⟩
  rw [spill]
  cases huse : i.nextRegisterUse? limit with
  | none =>
    -- no use needs a register, so the whole interval stays in memory
    have hunused : ∀ u ∈ i.uses, u.policy ≠ .register := fun u hu hpolicy =>
      Int.not_le.2 (Interval.nextRegisterUse?_eq_none huse u hu hpolicy) (hstored u hu)
    exact ⟨hacts.tail (.finish rfl hunused), hactive, hinactive⟩
  | some use =>
    have hp := hroom use huse
    -- the first required use is the one before which the interval is cut
    have hunused : ∀ u ∈ i.uses, u.policy = .register → use ≤ u.position := fun u hu hpolicy =>
      (Interval.nextRegisterUse?_eq_some hused huse).2.2 u hu hpolicy (hstored u hu)
    refine Ensures.bind (split_ensures hshaped' _ _) ?_
    rintro _ ⟨hstart, hstop, rfl⟩
    -- the cut is at `use - 1` or at the start of a block, and not before `p`
    have hcases := cutPosition_cases setup.order (max i.start (p - 1)) (use - 1)
    refine ⟨hacts.tail (.reload rfl hlimit huse ?_ ?_ (cutPosition_le ..) hstart hstop hunused),
      hactive, hinactive⟩
    · exact hcases.imp_right fun ⟨span, hspan, heq, _⟩ => ⟨span, hspan, heq⟩
    · have hafter : p - 1 ≤ max i.start (p - 1) := Int.le_max_right ..
      change p ≤ cutPosition setup.order (max i.start (p - 1)) (use - 1)
      rcases hcases with heq | ⟨span, -, heq, hlt, -⟩ <;> lia

/-- An active interval vacates its register for the interval that was taken. -/
theorem evict_acts {p : Position} {i current : Interval} {name : String} {m : Midway} {s : Sweep}
    (hacts : Acts setup m ⟨p, [i, current], none, s⟩) (hshaped : i.Shaped) (hused : i.Used)
    (hcurrent : current.start = p) (hunplaced : current.location = none)
    (hloc : i.location = some (.register name)) (hcovers : i.covers p = true)
    (hroom : ∀ use, i.nextRegisterUse? (evictBy current p) = some use →
      max (evictBy current p) i.start < use - 1) :
    Ensures (s.evict setup i (evictBy current p) (i.nextRegisterUse? (evictBy current p)) p)
      (fun s' => Acts setup m ⟨p, [current], some (name, current), s'⟩ ∧
        s'.active = s.active ∧ s'.inactive = s.inactive) Blocked := by
  have hle := evictBy_le current p
  have hge := le_evictBy current p
  have hroom' : ∀ use, i.nextRegisterUse? (evictBy current p) = some use → p ≤ use - 1 := by
    intro use huse
    have := hroom use huse
    lia
  rw [evict]
  split
  · next hwhole =>
    -- everything that is used of it is used from the limit on
    have hstored : ∀ u ∈ i.uses, evictBy current p ≤ u.position := fun u hu =>
      Int.le_trans hwhole (Interval.start_le hshaped (hused.covered u hu))
    refine spill_acts hshaped hused hstored (hacts.tail ?_) hle hroom'
    exact .leaveWhole hcurrent hloc hcovers hwhole
      (fun use huse => by have := hroom use huse; lia) (Prod.eta _).symm
  · refine Ensures.bind (split_ensures hshaped _ _) ?_
    rintro _ ⟨hstart, hstop, rfl⟩
    have hcutLe := cutPosition_le setup.order (lastUseBefore i (evictBy current p))
      (evictBy current p)
    have hcases := cutPosition_cases setup.order (lastUseBefore i (evictBy current p))
      (evictBy current p)
    -- no use lies between the cut and the position by which the register is needed
    have hquiet : ∀ u ∈ i.uses, cutPosition setup.order (lastUseBefore i (evictBy current p))
        (evictBy current p) ≤ u.position → evictBy current p ≤ u.position := by
      refine fun u hu hcut => Int.not_lt.1 fun hlt => ?_
      have := le_lastUseBefore hused hu hlt
      rcases hcases with heq | ⟨span, -, heq, hafter, -⟩ <;> lia
    generalize cutPosition setup.order (lastUseBefore i (evictBy current p)) (evictBy current p)
      = q at hstart hstop hcutLe hcases hquiet ⊢
    have hnext : (i.cutOff q s.nextId).nextRegisterUse? (evictBy current p)
        = i.nextRegisterUse? (evictBy current p) := Interval.nextRegisterUse?_cutOff hcutLe
    have hleave : Act setup ⟨p, [i, current], none, s⟩ _ :=
      .leave hcurrent hloc hcovers hstart hstop
        (hcases.imp_right fun ⟨span, hspan, heq, _⟩ => ⟨span, hspan, heq⟩) hcutLe
        (fun use huse => by have := hroom use huse; lia) (Prod.eta _).symm hquiet hunplaced
    have hstored : ∀ u ∈ (i.cutOff q s.nextId).uses, evictBy current p ≤ u.position :=
      fun u hu => hquiet u (Interval.mem_uses_cutOff.1 hu).1 (Interval.mem_uses_cutOff.1 hu).2
    have hspill := spill_acts (s := s.finishFront i q) (Interval.shaped_cutOff hshaped hstop _)
      (Interval.used_cutOff hused _ _) hstored (hacts.tail hleave) hle (hnext ▸ hroom')
    exact hnext ▸ hspill

theorem checkRoom_ensures (nextUse : Option Position) (spillFrom : Position) :
    Ensures (checkRoom nextUse spillFrom)
      (fun _ => ∀ use, nextUse = some use → spillFrom < use - 1) Blocked := by
  cases nextUse with
  | none => simp [checkRoom]
  | some use =>
    rw [checkRoom]
    split
    · next hroom =>
      rintro _ ⟨⟩
      exact hroom
    · trivial

/-- An active interval is picked. -/
theorem pick_act {p : Position} {current : Interval} {s : Sweep} {index : Nat} {i : Interval}
    (hindex : s.active[index]? = some i) :
    Act setup ⟨p, [current], none, s⟩
      ⟨p, [i, current], none, { s with active := s.active.eraseIdx index }⟩ := by
  obtain ⟨hlt, hget⟩ := List.getElem?_eq_some_iff.1 hindex
  have hsplit : s.active.Perm (i :: s.active.eraseIdx index) :=
    hget ▸ (List.getElem_cons_eraseIdx_perm hlt).symm
  show Act setup _ ⟨p, [i] ++ [current], none, { s with active := s.active.eraseIdx index }⟩
  exact .pick (List.eraseIdx_sublist ..) (List.Sublist.refl _) (hsplit.append_right s.inactive)

/-- A register that was vacated can be taken by the interval for which it was. -/
theorem assign_vacated {E : Violation → Prop} {p : Position} {current i : Interval}
    {name : String} {s s' : Sweep} {index : Nat}
    (h : Sound setup roots ⟨p, [current], none, s⟩) (hcurrent : current.start = p)
    (hunplaced : current.location = none) (hactive : ∀ i ∈ s.active, i.covers p = true)
    (hholes : ∀ i ∈ s.inactive, i.covers p = false) (hindex : s.active[index]? = some i)
    (hname : name ∈ setup.pool) (hloc : i.location = some (.register name))
    (hacts : Acts setup ⟨p, [current], none, s⟩ ⟨p, [current], some (name, current), s'⟩)
    (hactive' : s'.active = s.active.eraseIdx index) (hinactive' : s'.inactive = s.inactive) :
    Ensures (s'.assign current name p)
      (fun s'' => Acts setup ⟨p, [current], none, s⟩ ⟨p, [], none, s''⟩) E := by
  refine (assign_acts (h.acts hacts) hcurrent hunplaced hname (.inr rfl) ?_ ?_).mono
    fun s'' hs'' => hacts.trans hs''
  · -- the others cover `p` as well, so they are in other registers
    intro j hj hjloc
    rw [hactive'] at hj
    have hij : i.Apart j := by
      have := (h.acts (.single (pick_act hindex))).holding.apart_head j
      exact this (by simp [pending, hj])
    have hjp := hactive j (List.mem_of_mem_eraseIdx hj)
    simp [hij _ p hloc hjloc (hactive i (List.mem_of_getElem? hindex))] at hjp
  · rw [hinactive']
    exact hholes

/-- When no register is free, somebody goes to memory. -/
theorem makeRoom_acts {p : Position} {current : Interval} {s : Sweep}
    (h : Sound setup roots ⟨p, [current], none, s⟩) (hcurrent : current.start = p)
    (hunplaced : current.location = none) (hactive : ∀ i ∈ s.active, i.covers p = true)
    (hholes : ∀ i ∈ s.inactive, i.covers p = false) :
    Ensures (s.makeRoom setup current p)
      (fun s' => Acts setup ⟨p, [current], none, s⟩ ⟨p, [], none, s'⟩) Blocked := by
  rw [makeRoom]
  -- `current` itself goes to memory, or an active interval leaves its register to it
  rcases victim_cases s current p with hvictim | ⟨index, i, hindex, hvictim⟩ <;> rw [hvictim]
  · refine Ensures.bind (checkRoom_ensures ..) fun _ hroom => ?_
    have hused : current.Used := h.used (by simp)
    have hstored : ∀ u ∈ current.uses, p ≤ u.position := fun u hu =>
      hcurrent ▸ Interval.start_le (h.shaped (by simp)) (hused.covered u hu)
    refine (spill_acts (h.shaped (by simp)) hused hstored
      (.single (.store hcurrent hunplaced (Prod.eta _).symm)) (Int.le_refl p)
      fun use huse => Int.le_of_lt (hroom use huse)).mono ?_
    exact fun s' hs' => hs'.1
  · have hi : i ∈ s.active := List.mem_of_getElem? hindex
    obtain ⟨-, name, hname, hloc⟩ := h.begun i (by simp [hi])
    refine Ensures.bind (checkRoom_ensures ..) fun _ hroom => ?_
    rw [registerOf_eq_ok hloc]
    refine Ensures.bind (P := fun held => held = name) rfl ?_
    rintro _ rfl
    refine Ensures.bind (evict_acts (.single (pick_act hindex))
      (h.shaped (by simp [pending, hi])) (h.used (by simp [pending, hi])) hcurrent hunplaced hloc
      (hactive i hi) hroom) ?_
    rintro s' ⟨hacts, hactive', hinactive'⟩
    exact assign_vacated h hcurrent hunplaced hactive hholes hindex hname hloc hacts hactive'
      hinactive'

/-! ## One step -/

/-- Moving on succeeds. -/
theorem Sound.advance_eq {p : Position} {current : Interval} {s : Sweep}
    (h : Sound setup roots ⟨p, [current], none, s⟩) : s.advance p = .ok (s.advanced p) := by
  have hheld : ∀ i ∈ s.active ++ s.inactive, ∃ name, i.location = some (.register name) :=
    fun i hi => (h.begun i hi).2.imp fun _ hname => hname.2
  have hapart : (s.active ++ s.inactive).Pairwise Interval.Apart :=
    h.holding.apart.sublist <| (List.sublist_append_right ..).trans <|
      (List.sublist_cons_self ..).trans (List.sublist_append_right ..)
  exact Sweep.advance_eq hheld hapart

/-- A step moves on and then takes a free register, or makes room. -/
theorem step_eq {current : Interval} {s : Sweep}
    (h : Sound setup roots ⟨current.start, [current], none, s⟩) :
    step setup s current =
      match (s.ready setup current.start).choose current
        (setup.pool.filter (s.ready setup current.start).isFree) with
      | some name => (s.ready setup current.start).assign current name current.start
      | none => (s.ready setup current.start).makeRoom setup current current.start := by
  rw [step, h.advance_eq]
  rfl

/-- A step moves on and then is a sequence of acts, unless a demand cannot be met. -/
theorem step_acts {current : Interval} {s : Sweep}
    (h : Sound setup roots ⟨current.start, [current], none, s⟩)
    (hunplaced : current.location = none) :
    Ensures (step setup s current) (fun s' =>
      Acts setup ⟨current.start, [current], none, s.ready setup current.start⟩
        ⟨current.start, [], none, s'⟩) Blocked := by
  have hcovers : ∀ i ∈ (s.ready setup current.start).active, i.covers current.start = true :=
    fun i hi => mem_active_advanced hi
  have hholes : ∀ i ∈ (s.ready setup current.start).inactive, i.covers current.start = false :=
    fun i hi => mem_inactive_advanced hi
  rw [step_eq h]
  split
  · next name hchoose =>
    obtain ⟨hname, hfree⟩ := List.mem_filter.1 (mem_of_choose hchoose)
    exact assign_acts h.advance rfl hunplaced hname (.inl rfl) (isFree_iff.1 hfree) hholes
  · exact makeRoom_acts h.advance rfl hunplaced hcovers hholes

end Sweep

end RegAlloc
