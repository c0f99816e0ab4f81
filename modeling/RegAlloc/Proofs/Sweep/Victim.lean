import RegAlloc.Proofs.Sweep.Demand

/-!
# Whom a sweep sends to memory

In every state that a sweep comes through, the active intervals and the one that is taken belong
to different registers. So no two of them rank alike, and who goes to memory does not depend on
the order in which the active intervals happen to be listed.

- `Sweep.makeRoom_of_full` — where a step has to make room;
- `victim_ignores_order` — the choice is the one contender of the highest rank.
-/

namespace RegAlloc

namespace Sweep

/-- A step for which no register is free makes room. -/
theorem makeRoom_of_full {setup : Setup} {roots : List Interval} {s : Sweep} {current : Interval}
    (h : Sound setup roots ⟨current.start, [current], none, s⟩)
    (hfull : ∀ name ∈ setup.pool, (s.ready setup current.start).isFree name = false) :
    step setup s current =
      (s.ready setup current.start).makeRoom setup current current.start := by
  have hnone : setup.pool.filter (s.ready setup current.start).isFree = [] :=
    List.filter_eq_nil_iff.2 fun name hname => by simp [hfull name hname]
  rw [step_eq h, choose_eq_none.2 hnone]

end Sweep

open Sweep in
/-- In every state that a sweep comes through, the next step moves on and, if no register is free
then, sends the one contender to memory that ranks higher than all others. However the active
intervals are listed, that is the same one. -/
theorem victim_ignores_order {g : Graph} {regClass : Option String} {order : LinearOrder}
    {liveness : Liveness} (h : Analysed g regClass order liveness) (pool : List String)
    {first s : Sweep} (hfirst : lineUp (liveness.lives.map (·.root)) = .ok first)
    (hreach : Reaches (setupOf order (liveness.lives.map (·.root)) pool) first s)
    {current : Interval} {rest : List Interval} (hline : s.waiting = current :: rest) :
    ∃ moved t, { s with waiting := rest }.advance current.start = .ok moved ∧
      t = moved.releaseSlots (setupOf order (liveness.lives.map (·.root)) pool) current.start ∧
      ((∀ name ∈ pool, t.isFree name = false) →
        step (setupOf order (liveness.lives.map (·.root)) pool) { s with waiting := rest } current =
          t.makeRoom (setupOf order (liveness.lives.map (·.root)) pool) current current.start) ∧
      (∃ others, (t.contenders current current.start).Perm
          ((t.victim current current.start).2 :: others) ∧
        ∀ c ∈ others, c.rank < (t.victim current current.start).2.rank) ∧
      ∀ active : List Interval, active.Perm t.active →
        ({ t with active }.victim current current.start).2 = (t.victim current current.start).2 ∧
        { t with active }.evictee current current.start = t.evictee current current.start := by
  cases (lineUp_eq fun i hi => (h.rooted.shaped i hi).nonempty).symm.trans hfirst
  obtain ⟨p, hopening⟩ := sound_opening _ h.rooted
  obtain ⟨q, hsound⟩ := sound_of_reaches hopening hreach
  have htaken := hsound.take hline
  have hsingle := nodup_registers htaken.advance
  refine ⟨_, _, htaken.advance_eq, rfl, makeRoom_of_full htaken, exists_others hsingle, ?_⟩
  exact fun active hperm => ⟨victim_perm hsingle hperm, evictee_perm hsingle hperm⟩

/-- The first two values are needed equally late and live equally long, so the first goes to
memory for the third, whichever of them is listed first. -/
theorem victim_ignores_order_thirdReadFirst :
    ∃ (order : LinearOrder) (liveness : Liveness) (first s moved t : Sweep) (current : Interval),
      Analysed thirdReadFirst none order liveness ∧
      Sweep.lineUp (liveness.lives.map (·.root)) = .ok first ∧
      Sweep.Reaches (Sweep.setupOf order (liveness.lives.map (·.root)) ["r0", "r1"]) first s ∧
      s.waiting = [current] ∧ { s with waiting := [] }.advance current.start = .ok moved ∧
      t = moved.releaseSlots (Sweep.setupOf order (liveness.lives.map (·.root)) ["r0", "r1"])
        current.start ∧
      (∀ name ∈ ["r0", "r1"], t.isFree name = false) ∧ t.active.map (·.register) = [0, 1] ∧
      (t.evictee current current.start).map (·.register) = some 0 ∧
      { t with active := t.active.reverse }.evictee current current.start =
        t.evictee current current.start := by
  obtain ⟨order, liveness, first, s, moved, t, current, h, hfirst, hreach, hline, hmoved, ht,
      hfull, hactive, hevictee⟩ :
      ∃ (order : LinearOrder) (liveness : Liveness) (first s moved t : Sweep) (current : Interval),
        Analysed thirdReadFirst none order liveness ∧
        Sweep.lineUp (liveness.lives.map (·.root)) = .ok first ∧
        Sweep.Reaches (Sweep.setupOf order (liveness.lives.map (·.root)) ["r0", "r1"]) first s ∧
        s.waiting = [current] ∧ { s with waiting := [] }.advance current.start = .ok moved ∧
        t = moved.releaseSlots (Sweep.setupOf order (liveness.lives.map (·.root)) ["r0", "r1"])
          current.start ∧
        (∀ name ∈ ["r0", "r1"], t.isFree name = false) ∧ t.active.map (·.register) = [0, 1] ∧
        (t.evictee current current.start).map (·.register) = some 0 :=
    -- two steps bring the sweep to a state in which no register is free
    ⟨_, _, _, _, _, _, _, ⟨⟨_, rfl⟩, ⟨_, rfl⟩, ⟨_, rfl⟩⟩, rfl,
      .head ⟨_, _, rfl, rfl⟩ (.head ⟨_, _, rfl, rfl⟩ .refl), rfl, rfl, rfl, by decide, rfl, rfl⟩
  obtain ⟨_, _, hmoved', rfl, -, -, hperm⟩ :=
    victim_ignores_order h ["r0", "r1"] hfirst hreach hline
  cases hmoved.symm.trans hmoved'
  cases ht
  exact ⟨order, liveness, first, s, moved, _, current, h, hfirst, hreach, hline, hmoved, rfl, hfull,
    hactive, hevictee, (hperm _ (List.reverse_perm _)).2⟩

end RegAlloc
