import Mathlib.Data.Int.ConditionallyCompleteOrder
import Mathlib.Data.List.MinMax
import Mathlib.Data.List.Nodup
import Mathlib.Data.Prod.Lex
import Mathlib.Order.ConditionallyCompleteLattice.Basic
import RegAlloc.Proofs.Sweep.Parts

/-!
# The candidate for memory

When no register is free, the active intervals and the one that was taken contend for the
registers that there are, and the one whose next required use is furthest away goes to memory.
The choice is made in one pass over the active intervals, as they happen to be listed. It comes
to the same in any order, since no two of them rank alike: they belong to different registers.

- `Candidate.rank`, `Candidate.outranks_iff` — what candidates are compared by;
- `contenders`, `argmax_contenders` — the candidate is the contender with the highest rank;
- `victim_furthest` — nobody is needed later than the candidate;
- `exists_others` — the other contenders rank lower;
- `evictee`, `victim_perm`, `evictee_perm` — the order of the active intervals does not matter.
-/

namespace RegAlloc

namespace Sweep

/-! ## Ranks -/

/-- When a value is needed in a register next; if never, that is behind all positions. -/
def due : Option Position → WithTop Position
  | some use => use
  | none => ⊤

theorem furtherUse_iff {u v : Option Position} : furtherUse u v = true ↔ due v < due u := by
  cases u <;> cases v <;> simp [furtherUse, due]

theorem due_inj {u v : Option Position} : due u = due v ↔ u = v := by
  cases u <;> cases v <;> simp [due]

/-- Whoever is due by a position is needed by then. -/
theorem due_le_coe {u : Option Position} {use : Position} :
    due u ≤ due (some use) ↔ ∃ v ≤ use, u = some v := by
  cases u <;> simp [due]

namespace Candidate

/-- What candidates are compared by: when they are due, then where the interval stops, then the
register, of which a lower one ranks higher. -/
def rank (c : Candidate) : WithTop Position ×ₗ Position ×ₗ VRegᵒᵈ :=
  toLex (due c.nextUse, toLex (c.interval.stop, OrderDual.toDual c.interval.register))

variable {a b : Candidate}

/-- The candidate of higher rank is to go to memory rather than the other. -/
theorem outranks_iff : a.outranks b = true ↔ b.rank < a.rank := by
  simp only [outranks, rank, Prod.Lex.toLex_lt_toLex, furtherUse_iff, due_inj, Bool.or_eq_true,
    Bool.and_eq_true, beq_iff_eq, decide_eq_true_eq, OrderDual.toDual_lt_toDual]
  rw [eq_comm (a := a.nextUse), eq_comm (a := a.interval.stop)]

theorem due_le_of_rank_le (h : a.rank ≤ b.rank) : due a.nextUse ≤ due b.nextUse := by
  rcases Prod.Lex.toLex_le_toLex.1 h with hlt | ⟨heq, -⟩
  · exact hlt.le
  · exact heq.le

/-- Candidates that rank alike are of one register. -/
theorem register_eq_of_rank_eq (h : a.rank = b.rank) :
    a.interval.register = b.interval.register := by
  simp only [rank, EmbeddingLike.apply_eq_iff_eq, Prod.mk.injEq] at h
  exact h.2.2

end Candidate

/-! ## The choice -/

/-- Those of whom one is to go to memory: the interval that was taken, measured from where it
starts, and the active ones, measured from where they would have to leave. -/
def contenders (s : Sweep) (current : Interval) (p : Position) : List Candidate :=
  ⟨current, current.nextRegisterUse? p⟩ ::
    s.active.map fun i => ⟨i, i.nextRegisterUse? (evictBy current p)⟩

/-- The higher of the candidate so far and an active interval. -/
def nominate (limit : Position) (best : Option Nat × Candidate) (x : Interval × Nat) :
    Option Nat × Candidate :=
  if Candidate.outranks ⟨x.1, x.1.nextRegisterUse? limit⟩ best.2 then
    (some x.2, ⟨x.1, x.1.nextRegisterUse? limit⟩)
  else best

/-- The candidate is the contender with the highest rank. -/
theorem argmax_contenders (s : Sweep) (current : Interval) (p : Position) :
    (s.contenders current p).argmax Candidate.rank = some (s.victim current p).2 := by
  -- one pass over the active intervals, with their indices
  suffices h : ∀ (l : List Interval) (k : Nat) (best : Option Nat × Candidate),
      (l.map fun i => (⟨i, i.nextRegisterUse? (evictBy current p)⟩ : Candidate)).foldl
        (List.argAux fun b c => c.rank < b.rank) (some best.2) =
      some ((l.zipIdx k).foldl (nominate (evictBy current p)) best).2 from
    h s.active 0 (none, ⟨current, current.nextRegisterUse? p⟩)
  intro l
  induction l with
  | nil => exact fun _ _ => rfl
  | cons i l ih =>
    intro k best
    rw [List.zipIdx_cons, List.map_cons, List.foldl_cons, List.foldl_cons, ← ih]
    congr 1
    simp only [List.argAux, nominate, Candidate.outranks_iff]
    split <;> rfl

variable {s : Sweep} {current : Interval} {p : Position}

theorem victim_mem_contenders : (s.victim current p).2 ∈ s.contenders current p :=
  List.argmax_mem (argmax_contenders s current p)

theorem rank_le_victim {c : Candidate} (hc : c ∈ s.contenders current p) :
    c.rank ≤ (s.victim current p).2.rank :=
  List.le_of_mem_argmax hc (argmax_contenders s current p)

/-- If the candidate for memory is needed again, everybody is, and no later. -/
theorem victim_furthest {use : Position} (h : (s.victim current p).2.nextUse = some use) :
    (∃ u ≤ use, current.nextRegisterUse? p = some u) ∧
      ∀ i ∈ s.active, ∃ u ≤ use, i.nextRegisterUse? (evictBy current p) = some u := by
  have hneeded : ∀ c ∈ s.contenders current p, ∃ u ≤ use, c.nextUse = some u := fun c hc =>
    due_le_coe.1 (h ▸ Candidate.due_le_of_rank_le (rank_le_victim hc))
  obtain ⟨hcurrent, hactive⟩ := List.forall_mem_cons.1 hneeded
  exact ⟨hcurrent, fun i hi => hactive _ (List.mem_map_of_mem hi)⟩

/-! ## Any order of the active intervals -/

theorem registers_contenders (s : Sweep) (current : Interval) (p : Position) :
    (s.contenders current p).map (·.interval.register) =
      (current :: s.active).map (·.register) := by
  simp [contenders, Function.comp_def]

section Single

variable (hsingle : ((current :: s.active).map (·.register)).Nodup)

include hsingle

/-- Contenders of different registers are told apart. -/
theorem eq_of_rank_eq {a b : Candidate} (ha : a ∈ s.contenders current p)
    (hb : b ∈ s.contenders current p) (h : a.rank = b.rank) : a = b := by
  rw [← registers_contenders s current p] at hsingle
  exact List.inj_on_of_nodup_map hsingle ha hb (Candidate.register_eq_of_rank_eq h)

/-- The other contenders rank lower than the candidate. -/
theorem exists_others : ∃ others,
    (s.contenders current p).Perm ((s.victim current p).2 :: others) ∧
      ∀ c ∈ others, c.rank < (s.victim current p).2.rank := by
  have hmem : (s.victim current p).2 ∈ s.contenders current p := victim_mem_contenders
  obtain ⟨before, behind, hsplit⟩ := List.append_of_mem hmem
  have hperm := (List.Perm.of_eq hsplit).trans List.perm_middle
  refine ⟨before ++ behind, hperm, fun c hc => lt_of_le_of_ne ?_ fun heq => ?_⟩
  · exact rank_le_victim (hperm.mem_iff.2 (List.mem_cons_of_mem _ hc))
  · rw [← registers_contenders s current p, (hperm.map _).nodup_iff] at hsingle
    refine (List.nodup_cons.1 hsingle).1 (List.mem_map.2 ⟨c, hc, ?_⟩)
    exact Candidate.register_eq_of_rank_eq heq

variable {active : List Interval} (hperm : active.Perm s.active)

include hperm

/-- The choice does not depend on the order of the active intervals. -/
theorem victim_perm : ({ s with active }.victim current p).2 = (s.victim current p).2 := by
  have hcontenders : ({ s with active }.contenders current p).Perm (s.contenders current p) :=
    (hperm.map _).cons _
  have hmem := hcontenders.mem_iff.1 (victim_mem_contenders (s := { s with active }))
  refine eq_of_rank_eq hsingle hmem victim_mem_contenders (le_antisymm (rank_le_victim hmem) ?_)
  exact rank_le_victim (hcontenders.mem_iff.2 victim_mem_contenders)

end Single

/-- The active interval that is to leave its register, if it is not the one that was taken that
goes to memory. -/
def evictee (s : Sweep) (current : Interval) (p : Position) : Option Interval :=
  (s.victim current p).1.bind (s.active[·]?)

/-- The interval that leaves is the candidate, if it is active. -/
theorem evictee_eq (hsingle : ((current :: s.active).map (·.register)).Nodup) :
    s.evictee current p =
      if (s.victim current p).2.interval.register = current.register then none
      else some (s.victim current p).2.interval := by
  rcases victim_cases s current p with hvictim | ⟨index, i, hindex, hvictim⟩ <;>
    rw [evictee, hvictim]
  · simp
  · have hne : i.register ≠ current.register := fun heq =>
      (List.nodup_cons.1 hsingle).1 (List.mem_map.2 ⟨i, List.mem_of_getElem? hindex, heq⟩)
    simp [hne, hindex]

theorem evictee_perm (hsingle : ((current :: s.active).map (·.register)).Nodup)
    {active : List Interval} (hperm : active.Perm s.active) :
    { s with active }.evictee current p = s.evictee current p := by
  have hsingle' : ((current :: active).map (·.register)).Nodup :=
    ((hperm.cons current).map _).nodup_iff.2 hsingle
  rw [evictee_eq hsingle, evictee_eq hsingle', victim_perm hsingle hperm]

end Sweep

end RegAlloc
