import RegAlloc.Proofs.Intervals

/-!
# Who holds which register

Pieces in the same register must not share a position. For pieces that are finished this
is settled, because a finished piece in a register lies in the past of the sweep; a
pending piece can still be cut, moved to memory, or be given a register that is clear.

- `Interval.Apart` — two pieces that do not fight over a register;
- `Holding p finished pending` — nobody fights, and at position `p` the finished holders
  of registers have ended;
- `Holding.finish`, `Holding.cut`, `Holding.toSlot`, `Holding.toRegister` — what keeps it so.
-/

namespace RegAlloc

namespace Interval

/-- Two intervals that are not in the same register at a common position. -/
def Apart (i j : Interval) : Prop :=
  ∀ name p, i.location = some (.register name) → j.location = some (.register name) →
    i.covers p = true → j.covers p = false

theorem Apart.symm {i j : Interval} (h : i.Apart j) : j.Apart i := by
  intro name p hj hi hjp
  rw [Bool.eq_false_iff]
  intro hip
  simp [h name p hi hj hip] at hjp

/-- An interval that is in no register is apart from every other. -/
theorem apart_of_ne {i : Interval} (h : ∀ name, i.location ≠ some (.register name))
    (j : Interval) : i.Apart j :=
  fun name _ hi => absurd hi (h name)

/-- An interval that stays where another is and covers less is apart from what that one is. -/
theorem Apart.shrink {i j k : Interval} (h : i.Apart j) (hloc : k.location = i.location)
    (hcov : ∀ p, k.covers p = true → i.covers p = true) : k.Apart j :=
  fun name p hk hj hkp => h name p (hloc ▸ hk) hj (hcov p hkp)

end Interval

/-- No two pieces are in the same register at a common position, and by position `p` the
finished pieces in registers have ended. -/
structure Holding (p : Position) (finished pending : List Interval) : Prop where
  apart : (finished ++ pending).Pairwise Interval.Apart
  past : ∀ i ∈ finished, ∀ name, i.location = some (.register name) → i.stop ≤ p

namespace Holding

variable {p : Position} {finished pending : List Interval} {i : Interval}

theorem later {p' : Position} (h : Holding p finished pending) (hp : p ≤ p') :
    Holding p' finished pending :=
  ⟨h.apart, fun i hi name hloc => Int.le_trans (h.past i hi name hloc) hp⟩

theorem perm {pending' : List Interval} (h : Holding p finished pending)
    (hperm : pending.Perm pending') : Holding p finished pending' :=
  ⟨(hperm.append_left finished).pairwise h.apart Interval.Apart.symm, h.past⟩

/-- The first pending piece is apart from all others. -/
theorem apart_head (h : Holding p finished (i :: pending)) :
    ∀ j ∈ finished ++ pending, i.Apart j := by
  have hperm : (finished ++ i :: pending).Perm (i :: (finished ++ pending)) := List.perm_middle
  exact (List.pairwise_cons.1 (hperm.pairwise h.apart Interval.Apart.symm)).1

/-- Without its first pending piece. -/
theorem tail (h : Holding p finished (i :: pending)) : Holding p finished pending := by
  have hsub : (finished ++ pending).Sublist (finished ++ i :: pending) :=
    (List.sublist_cons_self i pending).append_left finished
  exact ⟨h.apart.sublist hsub, h.past⟩

/-- A piece that is apart from all others may be pending. -/
theorem cons (h : Holding p finished pending) (hi : ∀ j ∈ finished ++ pending, i.Apart j) :
    Holding p finished (i :: pending) := by
  have hperm : (i :: (finished ++ pending)).Perm (finished ++ i :: pending) :=
    List.perm_middle.symm
  exact ⟨hperm.pairwise (List.pairwise_cons.2 ⟨hi, h.apart⟩) Interval.Apart.symm, h.past⟩

/-- A piece may be finished when it has ended, or is not in a register. -/
theorem finish (h : Holding p finished (i :: pending))
    (hi : ∀ name, i.location = some (.register name) → i.stop ≤ p) :
    Holding p (finished ++ [i]) pending := by
  constructor
  · simpa using h.apart
  · intro j hj
    rcases List.mem_append.1 hj with hj | hj
    · exact h.past j hj
    · cases List.mem_singleton.1 hj
      exact hi

theorem finishAll : ∀ {l finished : List Interval}, Holding p finished (l ++ pending) →
    (∀ i ∈ l, ∀ name, i.location = some (.register name) → i.stop ≤ p) →
    Holding p (finished ++ l) pending
  | [], finished, h, _ => by simpa using h
  | i :: l, finished, h, hl => by
    have hrest := finishAll (l := l) (h.finish (hl i (by simp))) fun j hj => hl j (by simp [hj])
    simpa using hrest

/-- A piece may be cut when what it keeps has ended, or is not in a register. The rest
has no location yet. -/
theorem cut (h : Holding p finished (i :: pending)) (q : Position) (id : IntervalId)
    (hkept : ∀ name, i.location = some (.register name) → (i.keepBefore q).stop ≤ p) :
    Holding p (finished ++ [i.keepBefore q]) (i.cutOff q id :: pending) := by
  have hfront : Holding p finished (i.keepBefore q :: pending) :=
    h.tail.cons fun j hj => (h.apart_head j hj).shrink rfl
      fun x hx => (Interval.covers_keepBefore.1 hx).1
  exact (hfront.finish hkept).cons fun j _ => Interval.apart_of_ne (by simp) j

/-- A piece may always go to memory. -/
theorem toSlot (h : Holding p finished (i :: pending)) (slot : Int) :
    Holding p finished ({ i with location := some (.slot slot) } :: pending) :=
  h.tail.cons fun j _ => Interval.apart_of_ne (by simp) j

/-- A piece may take a register that is clear of all others where it lives. -/
theorem toRegister (h : Holding p finished (i :: pending)) {name : String}
    (hclear : ∀ j ∈ finished ++ pending, j.location = some (.register name) →
      ∀ q, i.covers q = true → j.covers q = false) :
    Holding p finished ({ i with location := some (.register name) } :: pending) := by
  refine h.tail.cons fun j hj other q hi hjloc hq => ?_
  cases hi
  exact hclear j hj hjloc q hq

end Holding

end RegAlloc
