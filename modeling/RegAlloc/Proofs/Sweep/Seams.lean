import Mathlib.Data.List.Nodup
import RegAlloc.Proofs.Liveness.Coverage
import RegAlloc.Proofs.Sweep.Whole

/-!
# Where two pieces of a value meet in a gap

A piece may end in the gap behind an instruction, and the next piece of the same value
begin there. The moves of the gap run after the instruction has written its results, so
such a seam is harmless only if the value is not itself written there, and if the register
that the first piece leaves is not written there either. A sweep makes sure of the second,
and of the first where the write needs a register: an interval that begins with a write has
its register vacated before the instruction, and an interval that begins in a gap without
one needs its register too soon to be sent away.

- `Interval.Timed` — reads at instructions, writes in gaps, and a write where a life resumes;
- `Interval.Urgent` — an interval that begins in a gap is written there, or needs a register
  at once;
- `Seams` — the invariant: no register is needed at a seam, the register that is left there
  is taken by somebody who does not write it, and an instruction follows;
- `seams_act`, `seams_of_reaches` — every act keeps it, and so does a run.
-/

namespace RegAlloc

namespace Interval

/-- The value is written in a gap. -/
def WrittenAt (i : Interval) (q : Position) : Prop :=
  ∃ u ∈ i.uses, u.position = q ∧ u.access = .write

/-- An interval that is written in gaps and read at instructions. Where it resumes in a gap,
it is written. -/
structure Timed (order : LinearOrder) (i : Interval) : Prop where
  reads : ∀ u ∈ i.uses, u.access = .read → ∃ instruction, order.Stands u.position instruction
  writes : ∀ u ∈ i.uses, u.access = .write ↔ u.position % stride = 1
  resumes : ∀ q, q % stride = 1 → i.start < q → i.covers q = true → i.covers (q - 1) = false →
    i.WrittenAt q

/-- An interval that, if it begins in a gap, is written there or needs a register at once. -/
def Urgent (i : Interval) : Prop :=
  i.start % stride = 1 → i.WrittenAt i.start ∨
    ∃ u ∈ i.uses, u.policy = .register ∧ u.position ≤ i.start + 1

/-- Two pieces of a value that meet in a gap. -/
def Seam (i j : Interval) : Prop :=
  i.register = j.register ∧ i.stop = j.start ∧ j.start % stride = 1

variable {order : LinearOrder} {i j : Interval} {q : Position}

theorem writtenAt_keepBefore {x : Position} (h : (i.keepBefore q).WrittenAt x) : i.WrittenAt x := by
  obtain ⟨u, hu, hwrite⟩ := h
  exact ⟨u, (mem_uses_keepBefore.1 hu).1, hwrite⟩

theorem timed_keepBefore (hshaped : i.Shaped) (h : i.Timed order) (hstart : i.start < q) :
    (i.keepBefore q).Timed order := by
  refine ⟨fun u hu => h.reads u (mem_uses_keepBefore.1 hu).1,
    fun u hu => h.writes u (mem_uses_keepBefore.1 hu).1, fun x hx hlt hcovers hnot => ?_⟩
  rw [start_keepBefore hshaped hstart] at hlt
  obtain ⟨hcovers, hxq⟩ := covers_keepBefore.1 hcovers
  have hnot' : i.covers (x - 1) = false := by
    rw [Bool.eq_false_iff] at hnot ⊢
    exact fun hcov => hnot (covers_keepBefore.2 ⟨hcov, by lia⟩)
  obtain ⟨u, hu, rfl, hwrite⟩ := h.resumes x hx hlt hcovers hnot'
  exact ⟨u, mem_uses_keepBefore.2 ⟨hu, hxq⟩, rfl, hwrite⟩

theorem Timed.relocate (h : i.Timed order) (location : Option Location) :
    { i with location }.Timed order :=
  ⟨h.reads, h.writes, h.resumes⟩

/-- A use that is not a write is at an instruction. -/
theorem Timed.stands (h : i.Timed order) {u : UsePoint} (hu : u ∈ i.uses)
    (heven : u.position % stride = 0) : ∃ instruction, order.Stands u.position instruction := by
  refine h.reads u hu ?_
  cases hwrite : u.access with
  | read => rfl
  | write =>
    have := (h.writes u hu).1 hwrite
    lia

/-- What is cut off resumes where the whole does, and perhaps begins there. -/
theorem writtenAt_of_resumes_cutOff (h : i.Timed order) (hstart : i.start < q)
    {x : Position} (hx : x % stride = 1) (hlt : q < x) (hcovers : i.covers x = true)
    (hnot : i.covers (x - 1) = false) (id : IntervalId) : (i.cutOff q id).WrittenAt x := by
  obtain ⟨u, hu, rfl, hwrite⟩ := h.resumes x hx (by lia) hcovers hnot
  exact ⟨u, mem_uses_cutOff.2 ⟨hu, by lia⟩, rfl, hwrite⟩

theorem timed_cutOff (hshaped : i.Shaped) (h : i.Timed order) (hstart : i.start < q)
    (hstop : q < i.stop) (id : IntervalId) : (i.cutOff q id).Timed order := by
  refine ⟨fun u hu => h.reads u (mem_uses_cutOff.1 hu).1,
    fun u hu => h.writes u (mem_uses_cutOff.1 hu).1, fun x hx hlt hcovers hnot => ?_⟩
  have hle := le_start_cutOff hshaped hstop id
  have hnot' : i.covers (x - 1) = false := by
    rw [Bool.eq_false_iff] at hnot ⊢
    exact fun hcov => hnot (covers_cutOff.2 ⟨hcov, by lia⟩)
  exact writtenAt_of_resumes_cutOff h hstart hx (by lia) (covers_cutOff.1 hcovers).1 hnot' id

/-- An interval that is written where it begins says so with its first use. -/
theorem head_of_writtenAt_start (hshaped : i.Shaped) (hused : i.Used) (h : i.Timed order)
    (hwritten : i.WrittenAt i.start) :
    ∃ u, i.uses.head? = some u ∧ u.access = .write ∧ u.position = i.start := by
  obtain ⟨u, hu, hposition, hwrite⟩ := hwritten
  cases huses : i.uses with
  | nil => simp [huses] at hu
  | cons first rest =>
    -- uses are sorted, so the first one is no later than the write, and none is before the start
    have hfirst : first ∈ i.uses := by simp [huses]
    have hge := start_le hshaped (hused.covered first hfirst)
    have hle : first.position ≤ u.position := by
      have hsorted := hused.sorted
      rw [huses] at hu hsorted
      rcases List.mem_cons.1 hu with rfl | hu
      · exact Int.le_refl _
      · exact (List.pairwise_cons.1 hsorted).1 u hu
    have hodd := (h.writes u hu).1 hwrite
    have heq : first.position = i.start := by lia
    exact ⟨first, rfl, (h.writes first hfirst).2 (by lia), heq⟩

end Interval

/-- An interval that is in a register, or is promised it. -/
def Takes (pieces : List Interval) (promised : Option (String × Interval)) (name : String)
    (k : Interval) : Prop :=
  k ∈ pieces ∧ k.location = some (.register name) ∨ promised = some (name, k)

/-- A seam at which no register is needed, where a register that is left is taken by an
interval that begins there without being written. -/
structure Mended (order : LinearOrder) (pieces : List Interval)
    (promised : Option (String × Interval)) (i j : Interval) : Prop where
  quiet : ∀ u ∈ j.uses, u.position = j.start → u.policy ≠ .register
  taken : ∀ name, i.location = some (.register name) →
    ∃ k, Takes pieces promised name k ∧ k.start = j.start ∧ ¬ k.WrittenAt j.start
  /-- The gap is not the last one. -/
  followed : ∃ instruction, order.Stands (j.start + 1) instruction

/-- A seam stays mended if whoever takes a register in a gap goes on taking it. -/
theorem Mended.mono {order : LinearOrder} {pieces pieces' : List Interval}
    {promised promised' : Option (String × Interval)} {i j j' : Interval}
    (h : Mended order pieces promised i j) (hodd : j.start % stride = 1)
    (hstart : j'.start = j.start) (huses : j'.uses ⊆ j.uses)
    (htakes : ∀ name k, Takes pieces promised name k → k.start % stride = 1 →
      ¬ k.WrittenAt k.start → ∃ k', Takes pieces' promised' name k' ∧ k'.start = k.start ∧
        ∀ q, k'.WrittenAt q → k.WrittenAt q) : Mended order pieces' promised' i j' := by
  refine ⟨fun u hu hu' => h.quiet u (huses hu) (hu'.trans hstart), fun name hloc => ?_,
    hstart ▸ h.followed⟩
  obtain ⟨k, hk, hkstart, hkquiet⟩ := h.taken name hloc
  obtain ⟨k', hk', hkstart', hkwritten⟩ := htakes name k hk (by lia) (hkstart ▸ hkquiet)
  exact ⟨k', hk', by lia, fun hw => hkquiet (hkwritten _ (hstart ▸ hw))⟩

/-- All intervals are timed, those that wait for a register are urgent, and all seams are
mended. -/
structure Seams (order : LinearOrder) (finished pending : List Interval)
    (promised : Option (String × Interval)) : Prop where
  timed : ∀ i ∈ finished ++ pending, i.Timed order
  urgent : ∀ i ∈ pending, (∀ slot, i.location ≠ some (.slot slot)) → i.Urgent
  mended : ∀ i ∈ finished, ∀ j ∈ finished ++ pending, i.Seam j →
    Mended order (finished ++ pending) promised i j

/-- The last piece that was finished can meet pending pieces only. -/
theorem Tiling.mem_pending_of_seam {roots finished pending : List Interval} {i j : Interval}
    (h : Tiling roots (finished ++ [i]) pending) (hj : j ∈ finished ++ [i] ++ pending)
    (hseam : i.Seam j) : j ∈ pending := by
  have hi := Interval.start_lt_stop (h.shaped i (by simp))
  have hjlt := Interval.start_lt_stop (h.shaped j hj)
  obtain ⟨hreg, hstop, -⟩ := hseam
  rcases List.mem_append.1 hj with hj | hj
  · rcases List.mem_append.1 hj with hj | hj
    · have := (List.pairwise_append.1 h.ordered).2.2 j hj i (by simp) hreg.symm
      lia
    · cases List.mem_singleton.1 hj
      lia
  · exact hj

/-- A piece that another one follows is finished. -/
theorem Tiling.mem_finished_of_seam {roots finished pending : List Interval} {i j : Interval}
    (h : Tiling roots finished pending) (hi : i ∈ finished ++ pending)
    (hj : j ∈ finished ++ pending) (hseam : i.Seam j) : i ∈ finished := by
  have hilt := Interval.start_lt_stop (h.shaped i hi)
  have hjlt := Interval.start_lt_stop (h.shaped j hj)
  obtain ⟨hreg, hstop, -⟩ := hseam
  rcases List.mem_append.1 hi with hi | hi
  · exact hi
  rcases List.mem_append.1 hj with hj | hj
  · have := h.before j hj i hi hreg.symm
    lia
  · cases List.inj_on_of_nodup_map h.single hi hj hreg
    lia

namespace Seams

variable {order : LinearOrder} {roots finished pending : List Interval}
  {promised promised' : Option (String × Interval)} {i : Interval}

theorem perm {pending' : List Interval} (h : Seams order finished pending promised)
    (hperm : pending.Perm pending') : Seams order finished pending' promised := by
  have hmem : ∀ {x}, x ∈ finished ++ pending' ↔ x ∈ finished ++ pending :=
    ((hperm.append_left finished).mem_iff).symm
  refine ⟨fun x hx => h.timed x (hmem.1 hx), fun x hx => h.urgent x (hperm.mem_iff.2 hx),
    fun x hx y hy hseam => (h.mended x hx y (hmem.1 hy) hseam).mono hseam.2.2 rfl
      (List.Subset.refl _) ?_⟩
  intro name k hk _ _
  exact ⟨k, hk.imp_left fun ⟨hmem', hloc⟩ => ⟨hmem.2 hmem', hloc⟩, rfl, fun _ h => h⟩

/-- A pending piece may be finished: nothing of its value follows yet. -/
theorem finish (h : Seams order finished (i :: pending) promised)
    (htiling : Tiling roots finished (i :: pending)) :
    Seams order (finished ++ [i]) pending promised := by
  have hsame : finished ++ [i] ++ pending = finished ++ i :: pending := by simp
  refine ⟨hsame ▸ h.timed, fun j hj => h.urgent j (by simp [hj]), fun x hx y hy hseam => ?_⟩
  rcases List.mem_append.1 hx with hx | hx
  · exact hsame ▸ h.mended x hx y (hsame ▸ hy) hseam
  · cases List.mem_singleton.1 hx
    exact absurd hseam.1 (htiling.register_ne (htiling.finish.mem_pending_of_seam hy hseam))

theorem finishAll : ∀ {l finished : List Interval}, Seams order finished (l ++ pending) promised →
    Tiling roots finished (l ++ pending) → Seams order (finished ++ l) pending promised
  | [], finished, h, _ => by simpa using h
  | i :: l, finished, h, htiling => by
    simpa using finishAll (l := l) (h.finish htiling) htiling.finish

/-- A pending piece may be given a location, unless it has taken a register in a gap without
being written there. It may be given the register that it was promised. -/
theorem relocate (h : Seams order finished (i :: pending) promised) {location : Option Location}
    (hurgent : (∀ slot, location ≠ some (.slot slot)) → i.Urgent)
    (hold : ∀ name, i.location = some (.register name) → i.start % stride = 1 →
      i.WrittenAt i.start)
    (hpromised : ∀ name k, promised = some (name, k) →
      promised' = promised ∨ location = some (.register name) ∧ k = i) :
    Seams order finished ({ i with location } :: pending) promised' := by
  have hcases : ∀ {x}, x ∈ finished ++ { i with location } :: pending →
      x ∈ finished ++ i :: pending ∨ x = { i with location } := by
    intro x hx
    simp only [List.mem_append, List.mem_cons] at hx ⊢
    grind
  -- who takes a register at a quiet odd position is not `i`, unless it was promised to `i`
  have htakes : ∀ name k, Takes (finished ++ i :: pending) promised name k →
      k.start % stride = 1 → ¬ k.WrittenAt k.start →
      ∃ k', Takes (finished ++ { i with location } :: pending) promised' name k' ∧
        k'.start = k.start ∧ ∀ q, k'.WrittenAt q → k.WrittenAt q := by
    rintro name k (⟨hk, hloc⟩ | hk) hodd hquiet
    · have hne : k ≠ i := by
        rintro rfl
        exact hquiet (hold name hloc hodd)
      refine ⟨k, .inl ⟨?_, hloc⟩, rfl, fun _ h => h⟩
      simp only [List.mem_append, List.mem_cons] at hk ⊢
      exact hk.imp_right fun hk => .inr (hk.resolve_left hne)
    · rcases hpromised name k hk with heq | ⟨hloc, rfl⟩
      · exact ⟨k, .inr (heq ▸ hk), rfl, fun _ h => h⟩
      · exact ⟨{ k with location }, .inl ⟨by simp, hloc⟩, rfl, fun _ h => h⟩
  constructor
  · intro x hx
    rcases hcases hx with hx | rfl
    · exact h.timed x hx
    · exact (h.timed i (by simp)).relocate location
  · intro x hx hslot
    rcases List.mem_cons.1 hx with rfl | hx
    · exact hurgent hslot
    · exact h.urgent x (by simp [hx]) hslot
  -- a seam with the new piece is one with the old piece
  · intro x hx y hy hseam
    rcases hcases hy with hy | rfl
    · exact (h.mended x hx y hy hseam).mono hseam.2.2 rfl (List.Subset.refl _) htakes
    · exact (h.mended x hx i (by simp) hseam).mono hseam.2.2 rfl (List.Subset.refl _) htakes

/-- Whoever takes a register goes on taking it when a piece is cut. -/
theorem takes_cut (hshaped : i.Shaped) {q : Position} (hstart : i.start < q) (rest : Interval)
    (hpromised : promised = none ∨ promised' = promised) {name : String} {k : Interval}
    (h : Takes (finished ++ i :: pending) promised name k) :
    ∃ k', Takes (finished ++ [i.keepBefore q] ++ rest :: pending) promised' name k' ∧
      k'.start = k.start ∧ ∀ x, k'.WrittenAt x → k.WrittenAt x := by
  rcases h with ⟨hk, hloc⟩ | hk
  · by_cases hki : k = i
    · subst hki
      exact ⟨k.keepBefore q, .inl ⟨by simp, hloc⟩, Interval.start_keepBefore hshaped hstart,
        fun _ => Interval.writtenAt_keepBefore⟩
    · exact ⟨k, .inl ⟨Tiling.mem_cut.2 (.inr (.inr (by grind))), hloc⟩, rfl, fun _ h => h⟩
  · rcases hpromised with hnone | hsame
    · simp [hnone] at hk
    · exact ⟨k, .inr (hsame ▸ hk), rfl, fun _ h => h⟩

/-- What has to hold where a piece is cut in a gap that it does not begin in: the rest needs
no register there, the register that is left is promised to somebody who does not write it,
and an instruction follows. -/
structure Mendable (order : LinearOrder) (promised : Option (String × Interval)) (i : Interval)
    (q : Position) : Prop where
  quiet : ∀ u ∈ i.uses, u.position = q → u.policy ≠ .register
  taken : ∀ name, i.location = some (.register name) →
    ∃ k, promised = some (name, k) ∧ k.start = q ∧ ¬ k.WrittenAt q
  followed : ∃ instruction, order.Stands (q + 1) instruction

/-- The seam that a cut makes is mended. -/
theorem mended_cut (hshaped : i.Shaped) {q : Position} (hstart : i.start < q) (hstop : q < i.stop)
    (id : IntervalId) (location : Option Location) {pieces : List Interval}
    (hnew : q % stride = 1 → i.covers (q - 1) = true → Mendable order promised i q)
    (hseam : (i.keepBefore q).Seam { i.cutOff q id with location }) :
    Mended order pieces promised (i.keepBefore q) { i.cutOff q id with location } := by
  have hmeet : (i.keepBefore q).stop = (i.cutOff q id).start := hseam.2.1
  have hle := Interval.stop_keepBefore_le hshaped hstart
  have hge := Interval.le_start_cutOff hshaped hstop id
  have hq : ({ i.cutOff q id with location } : Interval).start = q := by
    change (i.cutOff q id).start = q
    lia
  have hlast := Interval.covers_last (Interval.shaped_keepBefore hshaped hstart)
  have hkept : (i.keepBefore q).stop = q := by lia
  rw [hkept] at hlast
  -- the two parts meet exactly at the cut
  obtain ⟨hquiet, htaken, hfollowed⟩ := hnew (hq ▸ hseam.2.2) (Interval.covers_keepBefore.1 hlast).1
  constructor
  · intro u hu hposition
    have hu : u ∈ (i.cutOff q id).uses := hu
    exact hquiet u (Interval.mem_uses_cutOff.1 hu).1 (hposition.trans hq)
  · intro name hloc
    rw [hq]
    obtain ⟨k, hk, hkquiet⟩ := htaken name hloc
    exact ⟨k, .inr hk, hkquiet⟩
  · rwa [hq]

/-- A pending piece may be cut, if a seam that this makes is mended. -/
theorem cut (h : Seams order finished (i :: pending) promised)
    (htiling : Tiling roots finished (i :: pending)) {q : Position} (hstart : i.start < q)
    (hstop : q < i.stop) (id : IntervalId) (location : Option Location)
    (hurgent : (∀ slot, location ≠ some (.slot slot)) → (i.cutOff q id).Urgent)
    (hpromised : promised = none ∨ promised' = promised)
    (hnew : q % stride = 1 → i.covers (q - 1) = true → Mendable order promised' i q) :
    Seams order (finished ++ [i.keepBefore q]) ({ i.cutOff q id with location } :: pending)
      promised' := by
  have hi : i.Shaped := htiling.shaped i (by simp)
  have hcut := (htiling.cut hstart hstop id).relocate location
  have hkeptStart := Interval.start_keepBefore hi hstart
  have hrestStart := Interval.le_start_cutOff hi hstop id
  have htimed := h.timed i (by simp)
  constructor
  · intro x hx
    rcases Tiling.mem_cut.1 hx with rfl | rfl | hx
    · exact Interval.timed_keepBefore hi htimed hstart
    · exact (Interval.timed_cutOff hi htimed hstart hstop id).relocate location
    · exact h.timed x (by grind)
  · intro x hx hslot
    rcases List.mem_cons.1 hx with rfl | hx
    · exact hurgent hslot
    · exact h.urgent x (by simp [hx]) hslot
  · intro x hx y hy hseam
    rcases List.mem_append.1 hx with hx | hx
    · -- an old seam, or one with the front of the piece that was cut
      rcases Tiling.mem_cut.1 hy with rfl | rfl | hy
      · have hseam' : x.Seam i := by
          rw [Interval.Seam, hkeptStart] at hseam
          exact hseam
        -- the front starts where the whole piece started
        exact (h.mended x hx i (by simp) hseam').mono hseam'.2.2 hkeptStart
          (fun _ hu => (Interval.mem_uses_keepBefore.1 hu).1)
          fun _ _ hk _ _ => takes_cut hi hstart _ hpromised hk
      -- the rest starts behind the cut, but no finished piece of the register does
      · have hbefore := htiling.before x hx i (by simp) hseam.1
        have hmeet : x.stop = (i.cutOff q id).start := hseam.2.1
        lia
      · exact (h.mended x hx y (by grind) hseam).mono hseam.2.2 rfl (List.Subset.refl _)
          fun _ _ hk _ _ => takes_cut hi hstart _ hpromised hk
    · -- the new seam
      cases List.mem_singleton.1 hx
      rcases List.mem_cons.1 (hcut.mem_pending_of_seam hy hseam) with rfl | hpending
      · exact mended_cut hi hstart hstop id location hnew hseam
      · exact absurd hseam.1 (hcut.register_ne hpending)

end Seams

namespace Sweep

variable {setup : Setup} {roots : List Interval}

/-! ## Acts -/

/-- The rest of an interval that resumes is urgent. -/
theorem urgent_displaced {rival : Interval} {p q : Position} (hshaped : rival.Shaped)
    (h : rival.Timed setup.order) (hq : p < q) (hresumes : rival.covers q = true)
    (hhole : ∀ x, p ≤ x → x < q → rival.covers x = false) (hstart : rival.start < q)
    (id : IntervalId) : (rival.cutOff q id).Urgent := by
  intro hodd
  have hstop := Interval.lt_stop hshaped hresumes
  have heq : (rival.cutOff q id).start = q :=
    Interval.start_eq_of_least (Interval.shaped_cutOff hshaped hstop id)
      (Interval.covers_cutOff.2 ⟨hresumes, Int.le_refl q⟩)
      fun x hx => (Interval.covers_cutOff.1 hx).2
  rw [heq] at hodd ⊢
  obtain ⟨u, hu, rfl, hwrite⟩ := h.resumes q hodd hstart hresumes (hhole _ (by lia) (by lia))
  exact .inl ⟨u, Interval.mem_uses_cutOff.2 ⟨hu, Int.le_refl _⟩, rfl, hwrite⟩

/-- The rest of an interval that is cut for its next required use is urgent. -/
theorem urgent_reloaded {i : Interval} {q limit use : Position} (hshaped : i.Shaped)
    (hused : i.Used) (h : i.Timed setup.order)
    (heven : ∀ span ∈ setup.order.spans, span.first % stride = 0)
    (huse : i.nextRegisterUse? limit = some use)
    (hcut : q = use - 1 ∨ ∃ span ∈ setup.order.spans, q = span.first) (hle : q ≤ use - 1)
    (hstart : i.start < q) (hstop : q < i.stop) (id : IntervalId) :
    (i.cutOff q id).Urgent := by
  intro hodd
  have hrest := Interval.shaped_cutOff hshaped hstop id
  have hge := Interval.le_start_cutOff hshaped hstop id
  obtain ⟨-, ⟨u, hu, rfl, hpolicy⟩, -⟩ := Interval.nextRegisterUse?_eq_some hused huse
  by_cases heq : (i.cutOff q id).start = q
  · -- the cut is not at the start of a block, so it is right before the use
    rw [heq] at hodd ⊢
    refine .inr ⟨u, Interval.mem_uses_cutOff.2 ⟨hu, by lia⟩, hpolicy, ?_⟩
    rcases hcut with hcut | ⟨span, hspan, hcut⟩
    · lia
    · have := heven span hspan
      lia
  · -- the rest begins where the interval resumes
    have hnot : i.covers ((i.cutOff q id).start - 1) = false := by
      rw [Bool.eq_false_iff]
      intro hcov
      have := Interval.start_le hrest (Interval.covers_cutOff.2 ⟨hcov, by lia⟩)
      lia
    have hcovers := (Interval.covers_cutOff.1 (Interval.covers_start hrest)).1
    exact .inl (Interval.writtenAt_of_resumes_cutOff h hstart hodd (by lia) hcovers hnot id)

/-- An interval that has to vacate its register in a gap is vacated for one that is not
written there, but needs the register for the next instruction. -/
theorem quiet_of_evictBy {current : Interval} {p : Position} (hshaped : current.Shaped)
    (hused : current.Used) (h : current.Timed setup.order) (hurgent : current.Urgent)
    (hstart : current.start = p) (hodd : evictBy current p % stride = 1) :
    evictBy current p = p ∧ ¬ current.WrittenAt p ∧
      ∃ instruction, setup.order.Stands (p + 1) instruction := by
  subst hstart
  -- the register is needed from the start on, or at the instruction that writes it
  rcases evictBy_cases current current.start with
    ⟨heq, hnone⟩ | ⟨heq, use, hhead, hwrite, hposition⟩
  · have hquiet : ¬ current.WrittenAt current.start := fun hwritten => by
      obtain ⟨u, hhead, hwrite⟩ := Interval.head_of_writtenAt_start hshaped hused h hwritten
      exact hnone u hhead hwrite
    refine ⟨heq, hquiet, ?_⟩
    obtain hwritten | ⟨u, hu, -, hle⟩ := hurgent (heq ▸ hodd)
    · exact absurd hwritten hquiet
    -- it is read at the next instruction, since nothing is written here
    · have hge := Interval.start_le hshaped (hused.covered u hu)
      have hne : u.position ≠ current.start := fun hposition =>
        hquiet ⟨u, hu, hposition, (h.writes u hu).2 (by lia)⟩
      have hnext : u.position = current.start + 1 := by lia
      exact hnext ▸ h.stands hu (by lia)
  · -- otherwise it would vacate it at an instruction
    have := (h.writes use (List.mem_of_head? hhead)).1 hwrite
    lia

/-- A required use is not as near as an interval that leaves its register must have room for. -/
theorem lt_of_required {i : Interval} {limit bound : Position} (hused : i.Used)
    (hroom : ∀ use, i.nextRegisterUse? limit = some use → bound < use - 1) {u : UsePoint}
    (hu : u ∈ i.uses) (hpolicy : u.policy = .register) (hlimit : limit ≤ u.position) :
    bound + 1 < u.position := by
  cases huse : i.nextRegisterUse? limit with
  | none =>
    have := Interval.nextRegisterUse?_eq_none huse u hu hpolicy
    lia
  | some use =>
    have := hroom use huse
    have := (Interval.nextRegisterUse?_eq_some hused huse).2.2 u hu hpolicy hlimit
    lia

/-- An interval that is sent away whole, having begun in a gap, was written there. -/
theorem writtenAt_of_leaveWhole {i : Interval} {limit : Position} (hshaped : i.Shaped)
    (hused : i.Used) (hurgent : i.Urgent) (hlimit : limit ≤ i.start)
    (hroom : ∀ use, i.nextRegisterUse? limit = some use → i.start < use - 1)
    (hodd : i.start % stride = 1) : i.WrittenAt i.start := by
  obtain hwritten | ⟨u, hu, hpolicy, hle⟩ := hurgent hodd
  · exact hwritten
  · have := Interval.start_le hshaped (hused.covered u hu)
    have := lt_of_required hused hroom hu hpolicy (by lia)
    lia

/-- Every act keeps the seams mended. -/
theorem seams_act {m m' : Midway} (heven : ∀ span ∈ setup.order.spans, span.first % stride = 0)
    (hsound : Sound setup roots m)
    (h : Seams setup.order m.sweep.done (m.hand ++ m.sweep.pending) m.promised)
    (hact : Act setup m m') :
    Seams setup.order m'.sweep.done (m'.hand ++ m'.sweep.pending) m'.promised := by
  cases hact with
  | pick _ _ hperm => exact h.perm (perm_pick _ hperm)
  | @displace p q rival hand promised s hq hresumes hhole hstart _ =>
    have hshaped : rival.Shaped := hsound.shaped (by simp)
    have htimed := h.timed rival (by simp)
    have hstop := Interval.lt_stop hshaped hresumes
    refine Seams.perm (h.cut hsound.tiling hstart hstop s.nextId none (fun _ =>
      urgent_displaced hshaped htimed hq hresumes hhole hstart _) (.inr rfl) fun _ hmeet => ?_)
      (perm_enqueue _ hand (s.finishFront rival q))
    -- the two sides do not meet, since there is a hole before the cut
    simp [hhole (q - 1) (by lia) (by lia)] at hmeet
  | @store p current s s' slot hstart hunplaced hhome =>
    -- memory has no use for a register, so nothing is urgent there
    rw [homeSlot_frame hhome]
    exact h.relocate (fun hslot => absurd rfl (hslot slot)) (by simp [hunplaced]) (by simp)
  | @leaveWhole p i current name s s' slot hcurrent hloc hcovers hlimit hroom hhome =>
    rw [homeSlot_frame hhome]
    -- it began in a gap, so with a write
    have hwritten := writtenAt_of_leaveWhole (hsound.shaped (i := i) (by simp))
      (hsound.used (by simp)) (h.urgent i (by simp) (by simp [hloc])) hlimit hroom
    exact h.relocate (fun hslot => absurd rfl (hslot slot)) (fun _ _ => hwritten) (by simp)
  | @leave p q i current name s s' slot hcurrent hloc hcovers hstart hstop hcut hlimit hroom hhome
      _ hunplaced =>
    rw [homeSlot_frame hhome]
    refine h.cut hsound.tiling hstart hstop s.nextId _ (fun hslot => absurd rfl (hslot slot))
      (.inl rfl) fun hodd _ => ?_
    -- blocks start at even positions, so the cut is not at one of them
    have hq : q = evictBy current p := by
      rcases hcut with hq | ⟨span, hspan, rfl⟩
      · exact hq
      · have := heven span hspan
        lia
    obtain ⟨heq, hwritten, hfollowed⟩ := quiet_of_evictBy (hsound.shaped (by simp))
      (hsound.used (by simp)) (h.timed current (by simp))
      (h.urgent current (by simp) (by simp [hunplaced])) hcurrent (hq ▸ hodd)
    obtain rfl : q = p := hq.trans heq
    -- the register is taken over by `current`, which is not written here
    refine ⟨fun u hu hposition hpolicy => ?_, fun name' hloc' => ?_, hfollowed⟩
    · have := lt_of_required (hsound.used (by simp)) hroom hu hpolicy (by lia)
      lia
    · rw [hloc] at hloc'
      cases hloc'
      exact ⟨current, rfl, hcurrent, hwritten⟩
  | finish => exact h.finish hsound.tiling
  | @reload p q limit use i hand promised s slot hloc hlimit huse hcut hq hle hstart hstop
      hunused =>
    have hshaped : i.Shaped := hsound.shaped (by simp)
    have hused : i.Used := hsound.used (by simp)
    have htimed := h.timed i (by simp)
    refine Seams.perm (h.cut hsound.tiling hstart hstop s.nextId none (fun _ =>
      urgent_reloaded hshaped hused htimed heven huse hcut hle hstart hstop _) (.inr rfl)
      fun hodd _ => ?_) (perm_enqueue _ hand (s.finishFront i q))
    refine ⟨fun u hu hposition hpolicy => ?_, by simp [hloc], ?_⟩
    · have := hunused u hu hpolicy
      lia
    · -- the cut is not at the start of a block, so it is right before the use
      obtain ⟨-, ⟨u, hu, hposition, -⟩, -⟩ := Interval.nextRegisterUse?_eq_some hused huse
      have hnext : u.position = q + 1 := by
        rcases hcut with hcut | ⟨span, hspan, hcut⟩
        · lia
        · have := heven span hspan
          lia
      exact hnext ▸ htimed.stands hu (by lia)
  | @settle p current name promised s hstart hunplaced hname hpromised hclear =>
    refine Seams.perm (h.relocate (fun _ => h.urgent current (by simp) (by simp [hunplaced]))
      (by simp [hunplaced]) ?_) (perm_settle { current with location := some (.register name) } s)
    -- what was promised to `current` is what it gets
    rintro name' k hk
    rcases hpromised with hnone | hsome
    · simp [hnone] at hk
    · rw [hsome] at hk
      cases hk
      exact .inr ⟨rfl, rfl⟩

/-! ## Runs -/

/-- In every state that a run comes through, the seams are mended. -/
theorem seams_of_reaches (heven : ∀ span ∈ setup.order.spans, span.first % stride = 0)
    {p : Position} {s s' : Sweep} (hsound : Sound setup roots ⟨p, [], none, s⟩)
    (h : Seams setup.order s.done s.pending none) (hreach : Reaches setup s s') :
    Seams setup.order s'.done s'.pending none := by
  refine (invariant_of_reaches
    (I := fun m => Seams setup.order m.sweep.done (m.hand ++ m.sweep.pending) m.promised) ?_
    (fun _ _ => seams_act heven) hsound h hreach).elim fun _ hp' => hp'.2
  intro p s current rest hsound h hline
  obtain ⟨ended, hdone, -, hperm⟩ := perm_ready setup [current] { s with waiting := rest }
    current.start
  have htake : Seams setup.order s.done ([current] ++ { s with waiting := rest }.pending) none := by
    simpa [pending, hline] using h
  dsimp only
  rw [hdone]
  exact (htake.perm hperm).finishAll ((hsound.take hline).tiling.perm hperm)

end Sweep

end RegAlloc
