import Mathlib.Data.Finset.Basic
import Mathlib.Data.List.Pairwise
import RegAlloc.Proofs.Sweep.Parts
import RegAlloc.Sweep.Run

/-!
# The set of free registers

A sweep looks for free registers by asking whether an active interval is in them. It can as well
keep the set of the free ones: a register leaves the set when an interval is put into it, and comes
back when the interval in it ends or gets into a hole. The two go through the same states and stop
for the same reasons, whatever the lifetimes and the pool are, since the set is at every step the
pool without the registers of the active intervals.

- `Sweep.Lodged` — every interval that counts as being in a register is in one of the pool, and no
  two active ones are in the same;
- `Sweep.Stocked` — a sweep with a set of free registers, and its steps;
- `Sweep.stock` — a sweep with the set that it should have;
- `Sweep.Tracks` — a computation on the one and a computation on the other that go together;
- `Sweep.Lodged.wake`, `advance`, `assign`, `makeRoom`, `step` — each step of the sweep;
- `Sweep.run_stock`, `sweep_eq_stocked` — all of them.
-/

namespace RegAlloc

namespace Sweep

/-! ## A sweep that keeps the set -/

/-- A sweep with the set of the registers that are free. -/
structure Stocked where
  state : Sweep
  free : Finset String

namespace Stocked

/-- Wake an inactive interval whose hole has ended; its register is no longer free. -/
def wake (p : Position) (s : Stocked) (i : Interval) : Except Violation Stocked := do
  if i.stop ≤ p then
    return ⟨{ s.state with done := s.state.done ++ [i] }, s.free⟩
  else if i.covers p then
    let name ← registerOf i
    if name ∈ s.free then
      return ⟨{ s.state with active := s.state.active ++ [i] }, s.free.erase name⟩
    else throw (.registerTaken i.id p name)
  else
    return ⟨{ s.state with inactive := s.state.inactive ++ [i] }, s.free⟩

/-- Move on to a position. Intervals that have ended or are in a hole give their registers
back. -/
def advance (s : Stocked) (p : Position) : Except Violation Stocked := do
  (s.state.active ++ s.state.inactive).forM fun i => discard (registerOf i)
  let ended := s.state.active.filter (·.stop ≤ p)
  let running := s.state.active.filter (p < ·.stop)
  let parked := running.filter (!·.covers p)
  let retired :=
    { s.state with
      active := running.filter (·.covers p), inactive := [], done := s.state.done ++ ended }
  let back := (ended ++ parked).filterMap (·.register?)
  (s.state.inactive ++ parked).foldlM (wake p) ⟨retired, s.free ∪ back.toFinset⟩

/-- Put `current` in a register, which is no longer free. -/
def assign (s : Stocked) (current : Interval) (name : String) (p : Position) :
    Except Violation Stocked := do
  return ⟨← s.state.assign current name p, s.free.erase name⟩

/-- Find a place for `current` when no register is free. A register that changes hands does not
become free in between. -/
def makeRoom (s : Stocked) (setup : Setup) (current : Interval) (p : Position) :
    Except Violation Stocked := do
  let limit := evictBy current p
  match s.state.victim current p with
  | (none, candidate) =>
    checkRoom candidate.nextUse p
    return ⟨← s.state.spill setup current candidate.nextUse p, s.free⟩
  | (some index, candidate) =>
    checkRoom candidate.nextUse (max limit candidate.interval.start)
    let name ← registerOf candidate.interval
    let vacated := { s.state with active := s.state.active.eraseIdx index }
    let vacated ← vacated.evict setup candidate.interval limit candidate.nextUse p
    assign ⟨vacated, s.free⟩ current name p

/-- Give `current`, which was next in line, a location. -/
def step (setup : Setup) (s : Stocked) (current : Interval) : Except Violation Stocked := do
  let p := current.start
  let s ← s.advance p
  let s : Stocked := ⟨s.state.releaseSlots setup p, s.free⟩
  match s.state.choose current (setup.pool.filter (· ∈ s.free)) with
  | some name => s.assign current name p
  | none => s.makeRoom setup current p

/-- Take at most `fuel` intervals, until none is waiting. -/
def run (setup : Setup) : Nat → Stocked → Except Violation Stocked
  | 0, s => if s.state.waiting.isEmpty then .ok s else .error .sweepUnfinished
  | fuel + 1, s =>
    match s.state.waiting with
    | [] => .ok s
    | current :: waiting => do
      run setup fuel (← step setup ⟨{ s.state with waiting }, s.free⟩ current)

end Stocked

/-! ## The set that belongs to a sweep -/

/-- Intervals that count as being in a register are in one of the pool, no two active ones in the
same. -/
structure Lodged (pool : List String) (s : Sweep) : Prop where
  active : ∀ i ∈ s.active, ∃ name ∈ pool, i.location = some (.register name)
  inactive : ∀ i ∈ s.inactive, ∃ name ∈ pool, i.location = some (.register name)
  single : s.active.Pairwise fun i j => i.location ≠ j.location

/-- The registers of the pool that no active interval is in. -/
def freeOf (pool : List String) (s : Sweep) : Finset String :=
  pool.toFinset.filter fun name => s.isFree name = true

/-- A sweep with the set of its free registers. -/
def stock (pool : List String) (s : Sweep) : Stocked := ⟨s, s.freeOf pool⟩

variable {pool : List String} {setup : Setup} {s : Sweep} {name : String}

theorem mem_freeOf : name ∈ s.freeOf pool ↔ name ∈ pool ∧ s.isFree name = true := by
  rw [freeOf, Finset.mem_filter, List.mem_toFinset]

/-- A computation on sweeps keeps them lodged, and the one on sweeps with sets returns the same
with its set, or stops for the same reason. -/
def Tracks (pool : List String) (x : Except Violation Sweep) (y : Except Violation Stocked) :
    Prop :=
  Ensures x (Lodged pool) (fun _ => True) ∧ y = x.map (stock pool)

namespace Tracks

variable {x : Except Violation Sweep} {y : Except Violation Stocked}

theorem bind (h : Tracks pool x y) {f : Sweep → Except Violation Sweep}
    {k : Stocked → Except Violation Stocked}
    (hf : ∀ s, Lodged pool s → Tracks pool (f s) (k (stock pool s))) :
    Tracks pool (x >>= f) (y >>= k) := by
  obtain ⟨hensures, rfl⟩ := h
  cases x with
  | ok s => exact hf s hensures
  | error v => exact ⟨trivial, rfl⟩

/-- The same computation in front of both. -/
theorem after {α : Type} (z : Except Violation α) {f : α → Except Violation Sweep}
    {k : α → Except Violation Stocked} (hf : ∀ a, z = .ok a → Tracks pool (f a) (k a)) :
    Tracks pool (z >>= f) (z >>= k) := by
  cases z with
  | ok a => exact hf a rfl
  | error v => exact ⟨trivial, rfl⟩

theorem foldlM {α : Type} {f : Sweep → α → Except Violation Sweep}
    {k : Stocked → α → Except Violation Stocked} {l : List α}
    (hf : ∀ s, ∀ a ∈ l, Lodged pool s → Tracks pool (f s a) (k (stock pool s) a))
    (hs : Lodged pool s) : Tracks pool (l.foldlM f s) (l.foldlM k (stock pool s)) := by
  induction l generalizing s with
  | nil => exact ⟨hs, rfl⟩
  | cons a l ih =>
    rw [List.foldlM_cons, List.foldlM_cons]
    exact (hf s a (by simp) hs).bind fun t ht => ih (fun s b hb => hf s b (by simp [hb])) ht

end Tracks

/-! ## What leaves the registers alone -/

/-- A state has the same intervals in registers as another. -/
def SameHolders (s t : Sweep) : Prop := t.active = s.active ∧ t.inactive = s.inactive

theorem displace_holders (p : Position) (rival : Interval) :
    Ensures (displace p s rival) (SameHolders s) fun _ => True := by
  rw [displace]
  cases rival.nextRangeStart? p with
  | none => trivial
  | some resume => exact Ensures.bind (.trivially _) fun _ _ => ⟨rfl, rfl⟩

theorem spill_holders (setup : Setup) (i : Interval) (nextUse : Option Position) (p : Position) :
    Ensures (s.spill setup i nextUse p) (SameHolders s) fun _ => True := by
  have hhome := homeSlot_frame (Prod.eta (s.homeSlot i.register)).symm
  have hsame : SameHolders s (s.homeSlot i.register).1 := by
    rw [hhome]
    exact ⟨rfl, rfl⟩
  rw [spill]
  cases nextUse with
  | none => exact hsame
  | some use => exact Ensures.bind (.trivially _) fun _ _ => hsame

theorem evict_holders (setup : Setup) (i : Interval) (limit : Position)
    (nextUse : Option Position) (p : Position) :
    Ensures (s.evict setup i limit nextUse p) (SameHolders s) fun _ => True := by
  rw [evict]
  split
  · exact spill_holders setup i nextUse p
  · exact Ensures.bind (.trivially _) fun parts _ => spill_holders setup parts.2 nextUse p

/-- Whoever is put in a register becomes active; some inactive ones may have to leave. -/
theorem assign_holders (current : Interval) (name : String) (p : Position) :
    Ensures (s.assign current name p) (fun t =>
      t.active = s.active ++ [{ current with location := some (.register name) }] ∧
        ∀ i ∈ t.inactive, i ∈ s.inactive) fun _ => True := by
  rw [assign]
  refine Ensures.bind (P := fun t => t.active = s.active ∧ ∀ i ∈ t.inactive, i ∈ s.inactive) ?_
    fun t ht => ⟨by rw [ht.1], ht.2⟩
  refine Ensures.foldlM
    (fun _ (t : Sweep) => t.active = s.active ∧ ∀ i ∈ t.inactive, i ∈ s.inactive) ?_
    ⟨rfl, fun i hi => (List.mem_filter.1 hi).1⟩
  rintro rival rest t ⟨hactive, hinactive⟩
  refine (displace_holders p rival).mono fun u hu => ?_
  rw [hu.1, hu.2]
  exact ⟨hactive, hinactive⟩

/-! ## Each step -/

/-- Putting an interval in a register takes that register out of the set. -/
theorem freeOf_of_active {t : Sweep} {i : Interval} (hactive : t.active = s.active ++ [i])
    (hlocation : i.location = some (.register name)) :
    t.freeOf pool = (s.freeOf pool).erase name := by
  ext other
  simp only [mem_freeOf, Finset.mem_erase, isFree_iff, hactive, List.forall_mem_append,
    List.forall_mem_singleton, hlocation, ne_eq, Option.some.injEq, Location.register.injEq]
  tauto

namespace Lodged

/-- One more interval is active, in a register that was free. -/
theorem activate (h : Lodged pool s) {t : Sweep} {i : Interval} (hname : name ∈ pool)
    (hlocation : i.location = some (.register name)) (hfree : s.isFree name = true)
    (hactive : t.active = s.active ++ [i]) (hinactive : ∀ j ∈ t.inactive, j ∈ s.inactive) :
    Lodged pool t where
  active j hj := by
    obtain hj | hj := List.mem_append.1 (hactive ▸ hj)
    · exact h.active j hj
    · exact ⟨name, hname, List.mem_singleton.1 hj ▸ hlocation⟩
  inactive j hj := h.inactive j (hinactive j hj)
  single := by
    rw [hactive]
    refine List.pairwise_append.2 ⟨h.single, List.pairwise_singleton _ _, fun j hj k hk => ?_⟩
    rw [List.mem_singleton.1 hk, hlocation]
    exact isFree_iff.1 hfree j hj

theorem wake (h : Lodged pool s) (p : Position) {i : Interval}
    (hi : ∃ name ∈ pool, i.location = some (.register name)) :
    Tracks pool (Sweep.wake p s i) (Stocked.wake p (stock pool s) i) := by
  obtain ⟨name, hname, hlocation⟩ := hi
  rw [Sweep.wake, Stocked.wake, registerOf_eq_ok hlocation]
  by_cases hended : i.stop ≤ p
  · rw [if_pos hended, if_pos hended]
    exact ⟨⟨h.active, h.inactive, h.single⟩, rfl⟩
  rw [if_neg hended, if_neg hended]
  by_cases hcovers : i.covers p = true
  · rw [if_pos hcovers, if_pos hcovers]
    -- the register is in the pool, so it is in the set exactly if no active interval is in it
    have hmem : name ∈ (stock pool s).free ↔ s.isFree name = true :=
      mem_freeOf.trans (and_iff_right hname)
    simp only [bind, Except.bind, hmem]
    by_cases hfree : s.isFree name = true
    · rw [if_pos hfree, if_pos hfree]
      refine ⟨h.activate hname hlocation hfree rfl fun _ hj => hj, ?_⟩
      exact congrArg (fun free => Except.ok (Stocked.mk _ free))
        (freeOf_of_active rfl hlocation).symm
    · rw [if_neg hfree, if_neg hfree]
      exact ⟨trivial, rfl⟩
  -- in a hole it waits on, without its register
  · rw [if_neg hcovers, if_neg hcovers]
    refine ⟨⟨h.active, fun j hj => ?_, h.single⟩, rfl⟩
    obtain hj | hj := List.mem_append.1 hj
    · exact h.inactive j hj
    · exact ⟨name, hname, List.mem_singleton.1 hj ▸ hlocation⟩

/-- The registers that come back are those of the intervals that are no longer active. -/
theorem freeOf_filter (h : Lodged pool s) (t : Sweep) (keep : Interval → Bool)
    (left : List Interval) (hactive : t.active = s.active.filter keep)
    (hleft : ∀ i, i ∈ left ↔ i ∈ s.active ∧ keep i = false) :
    t.freeOf pool = s.freeOf pool ∪ (left.filterMap (·.register?)).toFinset := by
  ext name
  simp only [mem_freeOf, Finset.mem_union, List.mem_toFinset, List.mem_filterMap, isFree_iff,
    hactive, List.mem_filter, hleft]
  constructor
  · rintro ⟨hname, hnone⟩
    -- whoever is in the register, if anyone, has left
    by_cases hfree : ∀ i ∈ s.active, i.location ≠ some (.register name)
    · exact .inl ⟨hname, hfree⟩
    · obtain ⟨i, hi, hlocation⟩ : ∃ i ∈ s.active, i.location = some (.register name) := by
        simpa using hfree
      refine .inr ⟨i, ⟨hi, ?_⟩, ?_⟩
      · exact Bool.eq_false_iff.2 fun hkeep => hnone i ⟨hi, hkeep⟩ hlocation
      · rw [Interval.register?, hlocation]
        rfl
  -- what was free is free, and a register that was left had only one interval in it
  · rintro (⟨hname, hnone⟩ | ⟨i, ⟨hi, hgone⟩, hregister⟩)
    · exact ⟨hname, fun i hi => hnone i hi.1⟩
    · obtain ⟨other, hother, hlocation⟩ := h.active i hi
      rw [Interval.register?, hlocation] at hregister
      cases hregister
      refine ⟨hother, fun j hj hsame => ?_⟩
      have hsymm : Std.Symm fun i j : Interval => i.location ≠ j.location :=
        ⟨fun _ _ hne => hne.symm⟩
      have hne : i ≠ j := by
        rintro rfl
        exact Bool.false_ne_true (hgone.symm.trans hj.2)
      exact h.single.forall hi hj.1 hne (hlocation.trans hsame.symm)

theorem advance (h : Lodged pool s) (p : Position) :
    Tracks pool (s.advance p) ((stock pool s).advance p) := by
  rw [Sweep.advance, Stocked.advance]
  refine Tracks.after _ fun _ _ => ?_
  -- the intervals that stay active for now, with everybody else's register back in the set
  let retired : Sweep :=
    { s with
      active := (s.active.filter (p < ·.stop)).filter (·.covers p)
      inactive := []
      done := s.done ++ s.active.filter (·.stop ≤ p) }
  have hretired : Lodged pool retired :=
    { active := fun i hi => h.active i (List.mem_filter.1 (List.mem_filter.1 hi).1).1
      inactive := fun i hi => by cases hi
      single := (h.single.filter _).filter _ }
  let parked := (s.active.filter (p < ·.stop)).filter (!·.covers p)
  have hleft : ∀ i, i ∈ s.active.filter (·.stop ≤ p) ++ parked ↔
      i ∈ s.active ∧ (i.covers p && decide (p < i.stop)) = false := by
    intro i
    simp only [parked, List.mem_append, List.mem_filter, decide_eq_true_eq, Bool.not_eq_true',
      Bool.and_eq_false_iff, decide_eq_false_iff_not, Int.not_lt]
    grind
  have hstock : stock pool retired = ⟨retired, _⟩ := congrArg (Stocked.mk retired)
    (h.freeOf_filter retired _ _ (List.filter_filter ..) hleft)
  have htracks := Tracks.foldlM (s := retired) (l := s.inactive ++ parked)
    (fun t i hi ht => ht.wake p ?_) hretired
  · rw [hstock] at htracks
    exact htracks
  · obtain hi | hi := List.mem_append.1 hi
    · exact h.inactive i hi
    · exact h.active i (List.mem_filter.1 (List.mem_filter.1 hi).1).1

/-- Putting an interval in a register. It does not matter whether the set already lacks the
register. -/
theorem assign (h : Lodged pool s) {free : Finset String} (current : Interval) (p : Position)
    (hname : name ∈ pool) (hfree : s.isFree name = true)
    (herase : free.erase name = (s.freeOf pool).erase name) :
    Tracks pool (s.assign current name p) (Stocked.assign ⟨s, free⟩ current name p) := by
  rw [Stocked.assign]
  have hholders := assign_holders (s := s) current name p
  cases hassign : s.assign current name p with
  | error v => exact ⟨trivial, rfl⟩
  | ok t =>
    rw [hassign] at hholders
    obtain ⟨hactive, hinactive⟩ := hholders
    refine ⟨h.activate hname rfl hfree hactive hinactive, ?_⟩
    exact congrArg (fun free => Except.ok (Stocked.mk t free))
      (herase.trans (freeOf_of_active hactive rfl).symm)

/-- What leaves the registers alone leaves the set alone. -/
theorem of_holders (h : Lodged pool s) {x : Except Violation Sweep}
    (hx : Ensures x (SameHolders s) fun _ => True) :
    Tracks pool x (do return ⟨← x, s.freeOf pool⟩) := by
  cases x with
  | error v => exact ⟨trivial, rfl⟩
  | ok t =>
    obtain ⟨hactive, hinactive⟩ := hx
    refine ⟨⟨hactive ▸ h.active, hinactive ▸ h.inactive, hactive ▸ h.single⟩, ?_⟩
    have hfree : t.freeOf pool = s.freeOf pool := by
      ext name
      rw [mem_freeOf, mem_freeOf, isFree_iff, isFree_iff, hactive]
    exact congrArg (fun free => Except.ok (Stocked.mk t free)) hfree.symm

/-- The state that an active interval has left, with its register promised to another one. -/
theorem vacated (h : Lodged pool s) {index : Nat} {i : Interval}
    (hindex : s.active[index]? = some i) (hlocation : i.location = some (.register name))
    {t : Sweep} (ht : SameHolders { s with active := s.active.eraseIdx index } t) :
    Lodged pool t ∧ t.isFree name = true ∧
      (s.freeOf pool).erase name = (t.freeOf pool).erase name := by
  obtain ⟨hactive, hinactive⟩ := ht
  obtain ⟨hlt, hget⟩ := List.getElem?_eq_some_iff.1 hindex
  have hperm : s.active.Perm (i :: t.active) := by
    rw [hactive, ← hget]
    exact (List.getElem_cons_eraseIdx_perm hlt).symm
  obtain ⟨hother, hsingle⟩ := List.pairwise_cons.1
    (hperm.pairwise h.single fun {_ _} hne => hne.symm)
  refine ⟨⟨fun j hj => h.active j (hperm.mem_iff.2 (List.mem_cons_of_mem i hj)),
    hinactive ▸ h.inactive, hsingle⟩, ?_, ?_⟩
  · exact isFree_iff.2 fun j hj hsame => hother j hj (hlocation.trans hsame.symm)
  · -- no other register is affected
    ext other
    simp only [Finset.mem_erase, mem_freeOf, isFree_iff, hperm.mem_iff, List.forall_mem_cons,
      hlocation, ne_eq, Option.some.injEq, Location.register.injEq]
    grind

theorem makeRoom (h : Lodged pool s) (setup : Setup) (current : Interval) (p : Position) :
    Tracks pool (s.makeRoom setup current p) ((stock pool s).makeRoom setup current p) := by
  rw [Sweep.makeRoom, Stocked.makeRoom]
  obtain hvictim | ⟨index, i, hindex, hvictim⟩ := victim_cases s current p
  · -- the interval goes to memory itself
    simp only [stock, hvictim]
    exact Tracks.after _ fun _ _ => h.of_holders (spill_holders setup current _ p)
  · -- it takes the register of an active one
    simp only [stock, hvictim]
    refine Tracks.after _ fun _ _ => Tracks.after _ fun name hname => Tracks.after _ fun t ht => ?_
    obtain ⟨other, hother, hlocation⟩ := h.active i (List.mem_of_getElem? hindex)
    cases (registerOf_eq_ok hlocation).symm.trans hname
    obtain ⟨hlodged, hfree, herase⟩ :=
      h.vacated hindex hlocation ((evict_holders setup i _ _ p).of_eq_ok ht)
    exact hlodged.assign current p hother hfree herase

theorem step (h : Lodged setup.pool s) (current : Interval) :
    Tracks setup.pool (Sweep.step setup s current)
      (Stocked.step setup (stock setup.pool s) current) := by
  rw [Sweep.step, Stocked.step]
  refine (h.advance current.start).bind fun t ht => ?_
  let ready := t.releaseSlots setup current.start
  have hready : Lodged setup.pool ready := ⟨ht.active, ht.inactive, ht.single⟩
  -- both look for a register among the same ones
  have hcandidates : setup.pool.filter (· ∈ t.freeOf setup.pool) =
      setup.pool.filter ready.isFree := by
    refine List.filter_congr fun name hname => ?_
    rw [Bool.eq_iff_iff, decide_eq_true_eq, mem_freeOf]
    exact and_iff_right hname
  dsimp only [stock]
  rw [hcandidates]
  cases hchosen : ready.choose current (setup.pool.filter ready.isFree) with
  | none => exact hready.makeRoom setup current current.start
  | some name =>
    obtain ⟨hname, hfree⟩ := List.mem_filter.1 (mem_of_choose hchosen)
    exact hready.assign current current.start hname hfree rfl

end Lodged

/-! ## The whole sweep -/

/-- A sweep that keeps the set goes through the same states, and at each of them the set is the
pool without the registers of the active intervals. -/
theorem run_stock (h : Lodged setup.pool s) (fuel : Nat) :
    Tracks setup.pool (run setup fuel s) (Stocked.run setup fuel (stock setup.pool s)) := by
  induction fuel generalizing s with
  | zero =>
    by_cases hempty : s.waiting.isEmpty = true
    · simp only [run, Stocked.run, stock, hempty, if_true]
      exact ⟨h, rfl⟩
    · simp only [run, Stocked.run, stock, hempty]
      exact ⟨trivial, rfl⟩
  | succ fuel ih =>
    rw [run, Stocked.run]
    dsimp only [stock]
    cases s.waiting with
    | nil => exact ⟨h, rfl⟩
    | cons current waiting =>
      have hline : Lodged setup.pool { s with waiting } := ⟨h.active, h.inactive, h.single⟩
      exact (hline.step current).bind fun t ht => ih ht

/-- While nobody is in a register, all of the pool is free. -/
theorem stock_of_idle (hactive : s.active = []) (hinactive : s.inactive = []) :
    Lodged pool s ∧ s.stock pool = ⟨s, pool.toFinset⟩ := by
  refine ⟨⟨?_, ?_, ?_⟩, congrArg (Stocked.mk s) (Finset.filter_true_of_mem fun name _ => ?_)⟩
  · simp [hactive]
  · simp [hinactive]
  · rw [hactive]
    exact .nil
  · simp [isFree, hactive]

end Sweep

/-- The sweep, with the set of free registers kept from step to step: all of the pool is free at
the start. -/
def sweepStocked (order : LinearOrder) (lives : List Lifetime) (pool : List String) :
    Except Violation Swept := do
  let roots := lives.map (·.root)
  let setup : Sweep.Setup := { order, pool, ends := roots.map fun i => (i.register, i.stop) }
  let s ← Sweep.Stocked.run setup (Sweep.coverage roots) ⟨← Sweep.lineUp roots, pool.toFinset⟩
  return {
    lives := lives.map (Sweep.collect s.state.placed)
    intervals := s.state.placed
    slotCount := s.state.slotCount }

/-- Keeping the set of free registers comes to the same as asking the active intervals, for all
lifetimes and every pool. -/
theorem sweep_eq_stocked (order : LinearOrder) (lives : List Lifetime) (pool : List String) :
    sweepStocked order lives pool = sweep order lives pool := by
  unfold sweepStocked sweep
  cases hline : Sweep.lineUp (lives.map (·.root)) with
  | error v =>
    -- an empty interval stops both before they begin
    simp only [hline]
    rfl
  | ok s =>
    obtain ⟨_, -, hs⟩ := bind_eq_ok.1 hline
    obtain ⟨hlodged, hstart⟩ : Sweep.Lodged pool s ∧ s.stock pool = ⟨s, pool.toFinset⟩ := by
      cases hs
      exact Sweep.stock_of_idle rfl rfl
    let setup : Sweep.Setup :=
      { order, pool, ends := (lives.map (·.root)).map fun i => (i.register, i.stop) }
    have htracks : Sweep.Tracks setup.pool _ _ :=
      Sweep.run_stock hlodged (Sweep.coverage (lives.map (·.root)))
    obtain ⟨-, hrun⟩ := hstart ▸ htracks
    simp only [hline, bind, Except.bind]
    rw [hrun]
    cases Sweep.run setup (Sweep.coverage (lives.map (·.root))) s <;> rfl

end RegAlloc
