import RegAlloc.Proofs.Sweep.Parts
import RegAlloc.Proofs.Sweep.Tiling

/-!
# What a sweep does, act by act

A step of the sweep takes the next interval, moves on to where it starts, and then is a
sequence of small acts: pick intervals out of the lists, displace a rival, send an
interval to memory, finish or cut it there, put the taken interval in a register. This
module lists the acts with all that is known when they happen, and proves the invariant
that every one of them keeps.

- `Midway` — a sweep in the middle of a step, with intervals in hand;
- `Act` — the acts;
- `Sound` — the invariant: the pieces tile the lifetimes, nobody fights over a register,
  and the line is in order and lies ahead;
- `Sound.take`, `Sound.advance`, `Sound.act` — taking an interval, moving on and every
  act keep it.
-/

namespace RegAlloc

namespace Sweep

/-- The intervals in the lists of a sweep that are not finished. -/
def pending (s : Sweep) : List Interval := s.waiting ++ (s.active ++ s.inactive)

/-- A sweep in the middle of a step. -/
structure Midway where
  /-- The position that has been reached. -/
  position : Position
  /-- The intervals that have been taken out of the lists. -/
  hand : List Interval
  /-- A register that was vacated, and the interval that is to have it. -/
  promised : Option (String × Interval)
  sweep : Sweep

/-- Putting an interval in line takes it out of the hand. -/
theorem perm_enqueue (i : Interval) (hand : List Interval) (s : Sweep) :
    (i :: hand ++ s.pending).Perm (hand ++ (s.enqueue i).pending) := by
  have hline : (i :: s.waiting).Perm (s.enqueue i).waiting :=
    (insertBefore_perm (takenBefore i) i s.waiting).symm
  calc (i :: hand ++ s.pending).Perm (hand ++ i :: s.pending) := List.perm_middle.symm
    _ = hand ++ ((i :: s.waiting) ++ (s.active ++ s.inactive)) := rfl
    _ |>.Perm (hand ++ (s.enqueue i).pending) := (hline.append_right _).append_left hand

/-- Picking intervals takes them out of the lists. -/
theorem perm_pick {s : Sweep} {picked active inactive : List Interval} (hand : List Interval)
    (hperm : (s.active ++ s.inactive).Perm (picked ++ (active ++ inactive))) :
    (hand ++ s.pending).Perm (picked ++ hand ++ { s with active, inactive }.pending) := by
  have hpending : s.pending.Perm (picked ++ { s with active, inactive }.pending) :=
    (hperm.append_left _).trans (List.perm_append_comm_assoc ..)
  calc (hand ++ s.pending).Perm (hand ++ (picked ++ _)) := hpending.append_left hand
    _ |>.Perm (picked ++ (hand ++ _)) := List.perm_append_comm_assoc ..
    _ = picked ++ hand ++ _ := (List.append_assoc ..).symm

/-- An interval that becomes active is pending as before. -/
theorem perm_settle (i : Interval) (s : Sweep) :
    (i :: s.pending).Perm { s with active := s.active ++ [i] }.pending := by
  simp only [pending, List.append_assoc, List.singleton_append]
  exact List.perm_middle.symm.trans (List.perm_middle.symm.append_left s.waiting)

/-- Moving on finishes some of the pending intervals. -/
theorem perm_ready (setup : Setup) (hand : List Interval) (s : Sweep) (p : Position) :
    ∃ ended, (s.ready setup p).done = s.done ++ ended ∧ (∀ i ∈ ended, i.stop ≤ p) ∧
      (hand ++ s.pending).Perm (ended ++ (hand ++ (s.ready setup p).pending)) := by
  obtain ⟨ended, hdone, hended, hperm⟩ := advanced_perm s p
  have hpending : s.pending.Perm (ended ++ (s.advanced p).pending) :=
    (hperm.append_left _).trans (List.perm_append_comm_assoc ..)
  exact ⟨ended, hdone, hended, (hpending.append_left hand).trans (List.perm_append_comm_assoc ..)⟩

/-- The state after cutting `i` at `q`, with the front finished and the rest to be put
elsewhere. -/
def finishFront (s : Sweep) (i : Interval) (q : Position) : Sweep :=
  { s with done := s.done ++ [i.keepBefore q], nextId := s.nextId + 1 }

/-- One act of a sweep, once it has moved on. -/
inductive Act (setup : Setup) : Midway → Midway → Prop where
  /-- Take placed intervals out of the lists. -/
  | pick {p : Position} {hand picked : List Interval} {promised : Option (String × Interval)}
      {s : Sweep} {active inactive : List Interval}
      (hactive : active.Sublist s.active) (hinactive : inactive.Sublist s.inactive)
      (hperm : (s.active ++ s.inactive).Perm (picked ++ (active ++ inactive))) :
      Act setup ⟨p, hand, promised, s⟩ ⟨p, picked ++ hand, promised, { s with active, inactive }⟩
  /-- Cut an interval that is in a hole at the position where it resumes. -/
  | displace {p q : Position} {rival : Interval} {hand : List Interval}
      {promised : Option (String × Interval)} {s : Sweep} (hq : p < q)
      (hresumes : rival.covers q = true)
      (hhole : ∀ x, p ≤ x → x < q → rival.covers x = false) (hstart : rival.start < q)
      (hplaced : ∃ name ∈ setup.pool, rival.location = some (.register name)) :
      Act setup ⟨p, rival :: hand, promised, s⟩
        ⟨p, hand, promised, (s.finishFront rival q).enqueue (rival.cutOff q s.nextId)⟩
  /-- Send the interval that was taken to memory. -/
  | store {p : Position} {current : Interval} {s s' : Sweep} {slot : Nat}
      (hstart : current.start = p) (hunplaced : current.location = none)
      (hhome : s.homeSlot current.register = (s', slot)) :
      Act setup ⟨p, [current], none, s⟩
        ⟨p, [{ current with location := some (.slot slot) }], none, s'⟩
  /-- Send a whole interval to memory, for the one that was taken. -/
  | leaveWhole {p : Position} {i current : Interval} {name : String} {s s' : Sweep} {slot : Nat}
      (hcurrent : current.start = p) (hloc : i.location = some (.register name))
      (hcovers : i.covers p = true) (hlimit : evictBy current p ≤ i.start)
      (hroom : ∀ use, i.nextRegisterUse? (evictBy current p) = some use → i.start < use - 1)
      (hhome : s.homeSlot i.register = (s', slot)) :
      Act setup ⟨p, [i, current], none, s⟩
        ⟨p, [{ i with location := some (.slot slot) }, current], some (name, current), s'⟩
  /-- Cut an interval where it has to leave its register, and send the rest to memory. -/
  | leave {p q : Position} {i current : Interval} {name : String} {s s' : Sweep} {slot : Nat}
      (hcurrent : current.start = p) (hloc : i.location = some (.register name))
      (hcovers : i.covers p = true) (hstart : i.start < q) (hstop : q < i.stop)
      (hcut : q = evictBy current p ∨ ∃ span ∈ setup.order.spans, q = span.first)
      (hlimit : q ≤ evictBy current p)
      (hroom : ∀ use, i.nextRegisterUse? (evictBy current p) = some use →
        evictBy current p < use - 1)
      (hhome : (s.finishFront i q).homeSlot i.register = (s', slot))
      (hquiet : ∀ u ∈ i.uses, q ≤ u.position → evictBy current p ≤ u.position)
      (hunplaced : current.location = none) :
      Act setup ⟨p, [i, current], none, s⟩
        ⟨p, [{ i.cutOff q s.nextId with location := some (.slot slot) }, current],
          some (name, current), s'⟩
  /-- Leave an interval in memory to its end. -/
  | finish {p : Position} {i : Interval} {hand : List Interval}
      {promised : Option (String × Interval)} {s : Sweep} {slot : Nat}
      (hloc : i.location = some (.slot slot)) (hunused : ∀ u ∈ i.uses, u.policy ≠ .register) :
      Act setup ⟨p, i :: hand, promised, s⟩ ⟨p, hand, promised, { s with done := s.done ++ [i] }⟩
  /-- Cut an interval in memory before its next required use, to be loaded again. -/
  | reload {p q limit use : Position} {i : Interval} {hand : List Interval}
      {promised : Option (String × Interval)} {s : Sweep} {slot : Nat}
      (hloc : i.location = some (.slot slot)) (hlimit : limit ≤ p)
      (huse : i.nextRegisterUse? limit = some use)
      (hcut : q = use - 1 ∨ ∃ span ∈ setup.order.spans, q = span.first) (hq : p ≤ q)
      (hle : q ≤ use - 1) (hstart : i.start < q) (hstop : q < i.stop)
      (hunused : ∀ u ∈ i.uses, u.policy = .register → use ≤ u.position) :
      Act setup ⟨p, i :: hand, promised, s⟩
        ⟨p, hand, promised, (s.finishFront i q).enqueue (i.cutOff q s.nextId)⟩
  /-- Put the interval that was taken in a register which is clear. -/
  | settle {p : Position} {current : Interval} {name : String}
      {promised : Option (String × Interval)} {s : Sweep}
      (hstart : current.start = p) (hunplaced : current.location = none)
      (hname : name ∈ setup.pool)
      (hpromised : promised = none ∨ promised = some (name, current))
      (hclear : ∀ j ∈ s.active ++ s.inactive, j.location = some (.register name) →
        ∀ q, current.covers q = true → j.covers q = false) :
      Act setup ⟨p, [current], promised, s⟩
        ⟨p, [], none,
          { s with active := s.active ++ [{ current with location := some (.register name) }] }⟩

/-! ## The invariant -/

/-- What holds of a sweep at every moment. -/
structure Sound (setup : Setup) (roots : List Interval) (m : Midway) : Prop where
  tiling : Tiling roots m.sweep.done (m.hand ++ m.sweep.pending)
  holding : Holding m.position m.sweep.done (m.hand ++ m.sweep.pending)
  inLine : m.sweep.waiting.Pairwise fun i j => takenBefore i j = true
  ahead : ∀ i ∈ m.sweep.waiting, m.position ≤ i.start ∧ i.location = none
  begun : ∀ i ∈ m.sweep.active ++ m.sweep.inactive,
    i.start ≤ m.position ∧ ∃ name ∈ setup.pool, i.location = some (.register name)

namespace Sound

variable {setup : Setup} {roots : List Interval}

theorem shaped {m : Midway} (h : Sound setup roots m) {i : Interval}
    (hi : i ∈ m.hand ++ m.sweep.pending) : i.Shaped :=
  h.tiling.shaped i (List.mem_append_right _ hi)

theorem used {m : Midway} (h : Sound setup roots m) {i : Interval}
    (hi : i ∈ m.hand ++ m.sweep.pending) : i.Used :=
  h.tiling.used i (List.mem_append_right _ hi)

/-- Putting a rest in line keeps the invariant, if it starts no earlier than the sweep is. -/
theorem enqueue {p : Position} {i : Interval} {hand : List Interval}
    {promised : Option (String × Interval)} {s : Sweep}
    (h : Sound setup roots ⟨p, i :: hand, promised, s⟩) (hstart : p ≤ i.start)
    (hloc : i.location = none) : Sound setup roots ⟨p, hand, promised, s.enqueue i⟩ := by
  have hperm := perm_enqueue i hand s
  have hother : ∀ j ∈ s.waiting, i.register ≠ j.register := fun j hj =>
    h.tiling.register_ne (by simp [pending, hj])
  constructor
  · exact h.tiling.perm hperm
  · exact h.holding.perm hperm
  -- pieces in line are of different registers, so there are no ties
  · refine pairwise_insertBefore h.inLine (fun _ _ hmark => hmark) (fun j hj hmark => ?_)
      fun j k => takenBefore_trans i j k
    rcases takenBefore_total (hother j hj) with hij | hji
    · simp [hij] at hmark
    · exact hji
  · intro j hj
    rcases mem_insertBefore.1 hj with rfl | hj
    · exact ⟨hstart, hloc⟩
    · exact h.ahead j hj
  · exact h.begun

/-- The front of an interval may be finished, if it has ended or is not in a register. -/
theorem cutFront {p q : Position} {i : Interval} {hand : List Interval}
    {promised : Option (String × Interval)} {s : Sweep}
    (h : Sound setup roots ⟨p, i :: hand, promised, s⟩) (hstart : i.start < q) (hstop : q < i.stop)
    (hkept : ∀ name, i.location = some (.register name) → (i.keepBefore q).stop ≤ p) :
    Sound setup roots ⟨p, i.cutOff q s.nextId :: hand, promised, s.finishFront i q⟩ where
  tiling := h.tiling.cut hstart hstop s.nextId
  holding := h.holding.cut q s.nextId hkept
  inLine := h.inLine
  ahead := h.ahead
  begun := h.begun

/-- An interval may be cut anywhere from `p` on, with the rest put in line. -/
theorem cutRest {p q : Position} {i : Interval} {hand : List Interval}
    {promised : Option (String × Interval)} {s : Sweep}
    (h : Sound setup roots ⟨p, i :: hand, promised, s⟩) (hq : p ≤ q) (hstart : i.start < q)
    (hstop : q < i.stop)
    (hkept : ∀ name, i.location = some (.register name) → (i.keepBefore q).stop ≤ p) :
    Sound setup roots
      ⟨p, hand, promised, (s.finishFront i q).enqueue (i.cutOff q s.nextId)⟩ := by
  have hle := Interval.le_start_cutOff (h.shaped (by simp)) hstop s.nextId
  exact (h.cutFront hstart hstop hkept).enqueue (Int.le_trans hq hle) rfl

/-- An interval may go to memory. -/
theorem toSlot {p : Position} {i : Interval} {hand : List Interval}
    {promised promised' : Option (String × Interval)} {s s' : Sweep} {r : VReg} {slot : Nat}
    (h : Sound setup roots ⟨p, i :: hand, promised, s⟩) (hhome : s.homeSlot r = (s', slot)) :
    Sound setup roots
      ⟨p, { i with location := some (.slot slot) } :: hand, promised', s'⟩ := by
  have hsame := homeSlot_frame hhome
  have htiling := h.tiling.relocate (some (.slot slot))
  have hholding := h.holding.toSlot slot
  rw [hsame]
  exact ⟨htiling, hholding, h.inLine, h.ahead, h.begun⟩

/-- Taking the next interval keeps the invariant, at the position where it starts. -/
theorem take {p : Position} {s : Sweep} {current : Interval} {rest : List Interval}
    (h : Sound setup roots ⟨p, [], none, s⟩) (hline : s.waiting = current :: rest) :
    Sound setup roots ⟨current.start, [current], none, { s with waiting := rest }⟩ := by
  have hpending : s.pending = current :: rest ++ (s.active ++ s.inactive) := by
    rw [pending, hline]
  have htiling := h.tiling
  have hholding := h.holding
  have hinLine := h.inLine
  simp only [List.nil_append, hpending] at htiling hholding
  simp only [hline, List.pairwise_cons] at hinLine
  have hp : p ≤ current.start := (h.ahead current (by simp [hline])).1
  refine ⟨htiling, hholding.later hp, hinLine.2, fun i hi => ⟨?_, ?_⟩, fun i hi => ?_⟩
  · exact start_le_of_takenBefore (hinLine.1 i hi)
  · exact (h.ahead i (by simp [hline, hi])).2
  · exact ⟨Int.le_trans (h.begun i hi).1 hp, (h.begun i hi).2⟩

/-- Moving on keeps the invariant. -/
theorem advance {p : Position} {hand : List Interval} {promised : Option (String × Interval)}
    {s : Sweep} (h : Sound setup roots ⟨p, hand, promised, s⟩) :
    Sound setup roots ⟨p, hand, promised, s.ready setup p⟩ := by
  obtain ⟨ended, hdone, hended, hall⟩ := perm_ready setup hand s p
  constructor
  · exact hdone ▸ (h.tiling.perm hall).finishAll
  · exact hdone ▸ (h.holding.perm hall).finishAll fun i hi _ _ => hended i hi
  · exact h.inLine
  · exact h.ahead
  · obtain ⟨_, -, -, hperm⟩ := advanced_perm s p
    exact fun i hi => h.begun i (hperm.mem_iff.2 (List.mem_append_right _ hi))

/-- What is finished on moving on was finished before, or is in a register. -/
theorem mem_done_ready {p q : Position} {s : Sweep} {rest : List Interval} {i : Interval}
    (h : Sound setup roots ⟨p, [], none, s⟩)
    (hi : i ∈ ({ s with waiting := rest }.ready setup q).done) :
    i ∈ s.done ∨ ∃ name ∈ setup.pool, i.location = some (.register name) := by
  obtain ⟨ended, hdone, -, hperm⟩ := advanced_perm { s with waiting := rest } q
  have hi : i ∈ s.done ++ ended := hdone ▸ hi
  refine (List.mem_append.1 hi).imp_right fun hi => ?_
  exact (h.begun i (hperm.mem_iff.2 (List.mem_append_left _ hi))).2

/-- Every act keeps the invariant. -/
theorem act {m m' : Midway} (h : Sound setup roots m) (hact : Act setup m m') :
    Sound setup roots m' := by
  cases hact with
  | @pick p hand picked promised s active inactive hactive hinactive hperm =>
    -- picking up only moves pieces from list to list
    have hall := perm_pick hand hperm
    exact ⟨h.tiling.perm hall, h.holding.perm hall, h.inLine, h.ahead,
      fun i hi => h.begun i ((hactive.append hinactive).subset hi)⟩
  | @displace p q rival hand promised s hq hresumes hhole hstart _ =>
    have hshaped : rival.Shaped := h.shaped (by simp)
    have hstop : q < rival.stop := Interval.lt_stop hshaped hresumes
    -- the front ends before the hole
    have hkept : (rival.keepBefore q).stop ≤ p :=
      Interval.stop_le (Interval.shaped_keepBefore hshaped hstart) fun x hx => by
        obtain ⟨hx, hxq⟩ := Interval.covers_keepBefore.1 hx
        refine Int.not_le.1 fun hpx => ?_
        simp [hhole x hpx hxq] at hx
    exact h.cutRest (Int.le_of_lt hq) hstart hstop fun _ _ => hkept
  | store _ _ hhome => exact h.toSlot hhome
  | leaveWhole _ _ _ _ _ hhome => exact h.toSlot hhome
  | @leave p q i current name s s' slot _ _ _ hstart hstop _ hlimit _ hhome _ _ =>
    -- the front stops at the cut, which is not behind `p`
    have hkept := Interval.stop_keepBefore_le (h.shaped (i := i) (by simp)) hstart
    have hp := evictBy_le current p
    exact (h.cutFront hstart hstop fun _ _ => by lia).toSlot hhome
  | finish hloc _ =>
    exact ⟨h.tiling.finish, h.holding.finish (by simp [hloc]), h.inLine, h.ahead, h.begun⟩
  | reload hloc _ _ _ hq _ hstart hstop _ => exact h.cutRest hq hstart hstop (by simp [hloc])
  | @settle p current name promised s hstart _ hname _ hclear =>
    have hperm := perm_settle { current with location := some (.register name) } s
    refine ⟨(h.tiling.relocate (some (.register name))).perm hperm,
      (h.holding.toRegister ?_).perm hperm, h.inLine, h.ahead, ?_⟩
    -- whoever else is placed in the register does not meet `current`
    · intro j hj hloc q hq
      have hj : j ∈ s.done ++ (s.waiting ++ (s.active ++ s.inactive)) := hj
      rw [List.mem_append, List.mem_append] at hj
      rcases hj with hj | hj | hj
      · -- finished pieces have ended
        have := h.holding.past j hj name hloc
        have := Interval.start_le (h.shaped (i := current) (by simp)) hq
        rw [Bool.eq_false_iff]
        intro hjq
        have := Interval.lt_stop (h.tiling.shaped j (by simp [hj])) hjq
        lia
      · simp [(h.ahead j hj).2] at hloc
      · exact hclear j hj hloc q hq
    · intro i hi
      simp only [List.append_assoc, List.mem_append, List.mem_singleton] at hi
      rcases hi with hi | rfl | hi
      · exact h.begun i (by simp [hi])
      · exact ⟨Int.le_of_eq hstart, name, hname, rfl⟩
      · exact h.begun i (by simp [hi])

end Sound

end Sweep

end RegAlloc
