import Mathlib.Data.List.Dedup
import RegAlloc.Proofs.Liveness.Flow
import RegAlloc.Proofs.Sweep.Room

/-!
# Demand for registers

A step of a sweep is stuck only if more values than there are registers are alive where it
stands and all of them are needed in a register by the instruction before, or by the next
one. At an instruction these are values that the instruction names. In a gap they are the
values that the instruction before it reads and that live on, the values it writes, and
those that the next instruction reads: more than either of the two instructions names.

- `Graph.NamesAtMost` — no instruction names too many registers;
- `Liveness.contending`, `Liveness.ContendAtMost` — values that need a register around a gap;
- `Sweep.Stuck.needed` — who needs a register at a stuck step;
- `Analysed.contendAtMost_of_namesAtMost` — one kind of demand bounds the other;
- `Analysed.not_stuck` — no step is stuck if neither demand is too high;
- `sweep_returns_iff` — when a sweep returns.
-/

namespace RegAlloc

/-! ## Demand -/

namespace Graph

/-- The registers of a class that an instruction names, each once. -/
def named (g : Graph) (regClass : Option String) (i : Instruction) : List VReg :=
  ((i.uses.map (·.register) ++ i.defs.map (·.register)).filter (g.inClass regClass)).dedup

/-- Whether an instruction writes a register of a class. -/
def writesClass (g : Graph) (regClass : Option String) (i : Instruction) : Bool :=
  i.defs.any fun d => g.inClass regClass d.register

/-- No instruction names more than `k` registers of a class. -/
def NamesAtMost (g : Graph) (regClass : Option String) (k : Nat) : Prop :=
  ∀ block ∈ g.blocks, ∀ i ∈ block.instructions, (g.named regClass i).length ≤ k

instance (g : Graph) (regClass : Option String) (k : Nat) :
    Decidable (g.NamesAtMost regClass k) :=
  inferInstanceAs (Decidable (∀ block ∈ g.blocks, ∀ i ∈ block.instructions,
    (g.named regClass i).length ≤ k))

variable {g : Graph} {regClass : Option String} {i : Instruction} {r : VReg}

theorem mem_named : r ∈ g.named regClass i ↔ g.inClass regClass r = true ∧ i.mentions r = true := by
  simp only [named, List.mem_dedup, List.mem_filter, List.mem_append, List.mem_map,
    Instruction.mentions, Instruction.reads, Instruction.writes, Bool.or_eq_true, List.any_eq_true,
    beq_iff_eq]
  exact and_comm

theorem NamesAtMost.mono {k l : Nat} (h : g.NamesAtMost regClass k) (hle : k ≤ l) :
    g.NamesAtMost regClass l :=
  fun block hblock i hi => Nat.le_trans (h block hblock i hi) hle

theorem NamesAtMost.length_le {k : Nat} (h : g.NamesAtMost regClass k) {b : BlockId}
    (hi : i ∈ g.instructions b) : (g.named regClass i).length ≤ k := by
  have hb := lt_of_mem_instructions hi
  simp only [instructions, List.getElem?_eq_getElem hb, Option.map_some, Option.getD_some] at hi
  exact h _ (List.getElem_mem hb) i hi

end Graph

namespace Liveness

/-- The registers that are alive in a gap and needed in a register by the instruction before
it or the one behind it. -/
def contending (liveness : Liveness) (gap : Position) : List VReg :=
  (liveness.lives.filter fun life => life.root.covers gap && life.root.uses.any fun u =>
    u.policy == .register && decide (gap - 1 ≤ u.position ∧ u.position ≤ gap + 1)).map
      (·.register)

/-- Behind no instruction that writes a register of the class do more than `k` registers
contend. -/
def ContendAtMost (liveness : Liveness) (order : LinearOrder) (regClass : Option String)
    (k : Nat) : Prop :=
  ∀ span ∈ order.spans, ∀ x ∈ (order.graph.instructions span.block).zipIdx,
    order.graph.writesClass regClass x.1 = true →
      (liveness.contending (span.first + stride * x.2 + 1)).length ≤ k

instance (liveness : Liveness) (order : LinearOrder) (regClass : Option String) (k : Nat) :
    Decidable (liveness.ContendAtMost order regClass k) :=
  inferInstanceAs (Decidable (∀ span ∈ order.spans,
    ∀ x ∈ (order.graph.instructions span.block).zipIdx,
      order.graph.writesClass regClass x.1 = true →
        (liveness.contending (span.first + stride * x.2 + 1)).length ≤ k))

variable {liveness : Liveness} {order : LinearOrder} {regClass : Option String}

theorem mem_contending {gap : Position} {r : VReg} : r ∈ liveness.contending gap ↔
    ∃ life ∈ liveness.lives, life.register = r ∧ life.root.covers gap = true ∧
      ∃ u ∈ life.root.uses, u.policy = .register ∧ gap - 1 ≤ u.position ∧
        u.position ≤ gap + 1 := by
  simp only [contending, List.mem_map, List.mem_filter, Bool.and_eq_true, List.any_eq_true,
    beq_iff_eq, decide_eq_true_iff]
  constructor
  · rintro ⟨life, ⟨hlife, hcovers, hdemand⟩, hregister⟩
    exact ⟨life, hlife, hregister, hcovers, hdemand⟩
  · rintro ⟨life, hlife, hregister, hcovers, hdemand⟩
    exact ⟨life, ⟨hlife, hcovers, hdemand⟩, hregister⟩

theorem ContendAtMost.length_le {k : Nat} (h : liveness.ContendAtMost order regClass k)
    {p : Position} {i : Instruction} (hi : order.Stands p i)
    (hwrites : order.graph.writesClass regClass i = true) :
    (liveness.contending (p + 1)).length ≤ k := by
  obtain ⟨span, hspan, index, hindex, rfl⟩ := hi
  exact h span hspan (i, index) (List.mk_mem_zipIdx_iff_getElem?.2 hindex) hwrites

end Liveness

namespace LinearOrder

/-- The instruction before a position, if there is one, writes no register of the class. -/
def Quiet (order : LinearOrder) (regClass : Option String) (p : Position) : Prop :=
  ∀ j, order.Stands (p - 1) j → order.graph.writesClass regClass j = false

variable {order : LinearOrder} {regClass : Option String} {p : Position}

theorem not_quiet : ¬ order.Quiet regClass p ↔
    ∃ j, order.Stands (p - 1) j ∧ order.graph.writesClass regClass j = true := by
  simp [Quiet]

/-- Where it is quiet, no register of the class is written. -/
theorem Quiet.position_ne (h : order.Quiet regClass p) {r : VReg} {q : Position}
    {j : Instruction} {u : UsePoint} (hj : order.Stands q j) (hby : Track.UsedBy r q j u)
    (hnamed : r ∈ order.graph.named regClass j) (hwrite : u.access = .write) :
    u.position ≠ p := by
  rintro rfl
  rcases hby with ⟨d, hd, rfl, rfl⟩ | ⟨use, -, -, rfl⟩
  · have hclass : order.graph.writesClass regClass j = true :=
      List.any_eq_true.2 ⟨d, hd, (Graph.mem_named.1 hnamed).1⟩
    have hnone := h j (by simpa using hj)
    simp [hclass] at hnone
  · cases hwrite

end LinearOrder

/-! ## Who holds the registers -/

namespace Sweep

variable {setup : Setup} {roots : List Interval} {s : Sweep} {current : Interval} {p : Position}

/-- When no register is free, there are as many active intervals as registers. -/
theorem length_pool_le (hpool : setup.pool.Nodup)
    (htaken : ∀ name ∈ setup.pool, s.isFree name = false) :
    setup.pool.length ≤ s.active.length := by
  have hnodup : (setup.pool.map fun name => some (Location.register name)).Nodup :=
    hpool.map fun a b hab => by simpa using hab
  have hsub : (setup.pool.map fun name => some (Location.register name)) ⊆
      s.active.map (·.location) := by
    refine List.forall_mem_map.2 fun name hname => ?_
    have hheld := htaken name hname
    simp only [isFree, Bool.not_eq_false', List.any_eq_true, isIn_iff] at hheld
    exact List.mem_map.2 hheld
  simpa using hnodup.length_le_of_subset hsub

theorem active_sublist (s : Sweep) (current : Interval) :
    (current :: s.active).Sublist ([current] ++ s.pending) := by
  rw [pending, List.singleton_append]
  exact ((List.sublist_append_left ..).trans (List.sublist_append_right ..)).cons_cons current

/-- The interval that was taken and the active ones belong to different registers. -/
theorem nodup_registers (h : Sound setup roots ⟨p, [current], none, s⟩) :
    ((current :: s.active).map (·.register)).Nodup :=
  h.tiling.single.sublist ((active_sublist s current).map _)

/-- A stuck step needs a register for everybody by the next position. -/
theorem Stuck.needed (hstuck : Stuck setup s current) (hcurrent : current.start = p)
    (h : Sound setup roots ⟨p, [current], none, s⟩)
    (hactive : ∀ i ∈ s.active, i.covers p = true) :
    ∀ i ∈ current :: s.active, i.covers p = true ∧ ∃ limit use, evictBy current p ≤ limit ∧
      limit ≤ use ∧ use ≤ p + 1 ∧ i.nextRegisterUse? limit = some use := by
  subst hcurrent
  obtain ⟨-, use, huse, hle⟩ := hstuck
  have hcovers : ∀ i ∈ current :: s.active, i.covers current.start = true :=
    List.forall_mem_cons.2 ⟨Interval.covers_start (h.shaped (by simp)), hactive⟩
  have hmem : ∀ i ∈ current :: s.active, i ∈ [current] ++ s.pending := fun i hi =>
    (active_sublist s current).subset hi
  -- the candidate for memory could go there by now, so its use is not further away
  have hnear : use ≤ current.start + 1 := by
    have hvictim : (s.victim current current.start).2.interval ∈ current :: s.active := by
      rcases victim_cases s current current.start with heq | ⟨index, i, hindex, heq⟩
      · rw [heq]
        exact List.mem_cons_self
      · rw [heq]
        exact List.mem_cons_of_mem _ (List.mem_of_getElem? hindex)
    have hfrom := memoryFrom_le setup.order (h.shaped (hmem _ hvictim)) (h.used (hmem _ hvictim))
      (hcovers _ hvictim) (evictBy_le current current.start)
    lia
  -- nobody's next use is further away than the victim's
  obtain ⟨hthis, hothers⟩ := victim_furthest huse
  intro i hi
  refine ⟨hcovers i hi, ?_⟩
  rcases List.mem_cons.1 hi with rfl | hi
  · obtain ⟨u, hu, hnext⟩ := hthis
    have hge := (Interval.nextRegisterUse?_eq_some (h.used (by simp)) hnext).1
    exact ⟨i.start, u, evictBy_le i i.start, hge, by lia, hnext⟩
  · obtain ⟨u, hu, hnext⟩ := hothers i hi
    have hge := (Interval.nextRegisterUse?_eq_some (h.used (by simp [pending, hi])) hnext).1
    exact ⟨evictBy current current.start, u, Int.le_refl _, hge, by lia, hnext⟩

end Sweep

/-! ## Who needs them -/

namespace Analysed

variable {g : Graph} {regClass : Option String} {order : LinearOrder} {liveness : Liveness}
  {finished pending : List Interval} {i : Interval} {p : Position}

/-- A use of a life is made by an instruction that names the register. -/
theorem exists_user (h : Analysed g regClass order liveness) {life : Lifetime}
    (hlife : life ∈ liveness.lives) {u : UsePoint} (hu : u ∈ life.root.uses) :
    ∃ q j, order.Stands q j ∧ Track.UsedBy life.register q j u ∧
      life.register ∈ order.graph.named regClass j := by
  obtain ⟨hoccurs, -, id, hscan⟩ := LinearOrder.mem_livesOf (h.lives_eq ▸ hlife)
  have huses : u ∈ (order.scan life.register).track.uses := by
    rw [hscan] at hu
    exact hu
  obtain ⟨q, j, hj, hby⟩ := (LinearOrder.mem_uses_scan ..).1 huses
  exact ⟨q, j, hj, hby,
    Graph.mem_named.2 ⟨(LinearOrder.mem_occurring.1 hoccurs).1, hby.mentions⟩⟩

/-- Whoever contends behind an instruction is named by it or by the next one. -/
theorem named_of_contending (h : Analysed g regClass order liveness) {before : Instruction}
    (hbefore : order.Stands p before) {r : VReg} (hr : r ∈ liveness.contending (p + 1)) :
    r ∈ order.graph.named regClass before ∨
      ∃ j, order.Stands (p + stride) j ∧ r ∈ order.graph.named regClass j := by
  obtain ⟨life, hlife, rfl, -, u, hu, -, hge, hle⟩ := Liveness.mem_contending.1 hr
  obtain ⟨q, j, hj, hby, hnamed⟩ := h.exists_user hlife hu
  have heven := hbefore.even h.regular
  have heven' := hj.even h.regular
  have hq : q = p ∨ q = p + stride := by
    rcases hby with ⟨d, -, -, rfl⟩ | ⟨use, -, -, rfl⟩ <;> dsimp only at hge hle <;> lia
  rcases hq with rfl | rfl
  · exact .inl (hj.unique h.regular hbefore ▸ hnamed)
  · exact .inr ⟨j, hj, hnamed⟩

/-- Around a gap, no more registers contend than the two instructions there name. -/
theorem contendAtMost_of_namesAtMost (h : Analysed g regClass order liveness) {m k : Nat}
    (hnames : order.graph.NamesAtMost regClass m) (hk : 2 * m ≤ k) :
    liveness.ContendAtMost order regClass k := by
  rintro span hspan ⟨before, index⟩ hx -
  have hbefore : order.Stands (span.first + stride * index) before :=
    ⟨span, hspan, index, List.mk_mem_zipIdx_iff_getElem?.1 hx, rfl⟩
  generalize span.first + stride * (index : Int) = p at hbefore ⊢
  have hfew : ∀ {q : Position} {j : Instruction}, order.Stands q j →
      (order.graph.named regClass j).length ≤ m := by
    rintro q j ⟨span, -, l, hl, -⟩
    exact hnames.length_le (List.mem_of_getElem? hl)
  -- at most one instruction stands behind the gap
  have hbehind : ∃ l : List VReg, l.length ≤ m ∧
      ∀ j, order.Stands (p + stride) j → order.graph.named regClass j ⊆ l := by
    by_cases hnext : ∃ j, order.Stands (p + stride) j
    · obtain ⟨next, hnext⟩ := hnext
      exact ⟨_, hfew hnext, fun j hj => hj.unique h.regular hnext ▸ List.Subset.refl _⟩
    · exact ⟨[], Nat.zero_le m, fun j hj => absurd ⟨j, hj⟩ hnext⟩
  obtain ⟨behind, hlength, hbehind⟩ := hbehind
  -- who contends in the gap is named before it or behind it
  have hsub : liveness.contending (p + 1) ⊆ order.graph.named regClass before ++ behind := by
    intro r hr
    rcases h.named_of_contending hbefore hr with hnamed | ⟨j, hj, hnamed⟩
    · exact List.mem_append_left _ hnamed
    · exact List.mem_append_right _ (hbehind j hj hnamed)
  have hnodup : (liveness.contending (p + 1)).Nodup := by
    have hsingle := h.rooted.single
    rw [List.map_map] at hsingle
    exact hsingle.sublist (List.filter_sublist.map _)
  calc (liveness.contending (p + 1)).length
      ≤ (order.graph.named regClass before ++ behind).length := hnodup.length_le_of_subset hsub
    _ = (order.graph.named regClass before).length + behind.length := List.length_append
    _ ≤ m + m := Nat.add_le_add (hfew hbefore) hlength
    _ ≤ k := by omega

/-- A use of a piece is a use of its life. -/
theorem exists_demand (h : Analysed g regClass order liveness)
    (htiling : Tiling (liveness.lives.map (·.root)) finished pending) (hi : i ∈ pending)
    (hcovers : i.covers p = true) {u : UsePoint} (hu : u ∈ i.uses) :
    ∃ life ∈ liveness.lives, life.register = i.register ∧ life.root.covers p = true ∧
      u ∈ life.root.uses := by
  have hmem : i ∈ finished ++ pending := List.mem_append_right _ hi
  obtain ⟨root, hroot, hregister, hlives⟩ := (htiling.covers _ p).1 ⟨i, hmem, rfl, hcovers⟩
  obtain ⟨root', hroot', hregister', hused⟩ := (htiling.uses _ u).1 ⟨i, hmem, rfl, hu⟩
  cases List.inj_on_of_nodup_map h.rooted.single hroot hroot' (hregister.trans hregister'.symm)
  obtain ⟨life, hlife, rfl⟩ := List.mem_map.1 hroot
  exact ⟨life, hlife, hregister, hlives, hused⟩

section NotStuck

variable {pool : List String} {s : Sweep} {current : Interval}
  (h : Analysed g regClass order liveness)
  (hsound : Sweep.Sound (Sweep.setupOf order (liveness.lives.map (·.root)) pool)
    (liveness.lives.map (·.root)) ⟨current.start, [current], none, s⟩)
  (hactive : ∀ i ∈ s.active, i.covers current.start = true)
  (hstuck : Sweep.Stuck (Sweep.setupOf order (liveness.lives.map (·.root)) pool) s current)

include h hsound

/-- The interval that was taken needs its register where it starts, unless it is written
there. -/
theorem evictBy_of_quiet (hquiet : order.Quiet regClass current.start) :
    Sweep.evictBy current current.start = current.start := by
  rcases Sweep.evictBy_cases current current.start with ⟨heq, -⟩ | ⟨-, u, hhead, hwrite, hat⟩
  · exact heq
  · have hcurrent : current ∈ [current] ++ s.pending := by simp
    obtain ⟨life, hlife, -, -, hu⟩ := h.exists_demand hsound.tiling hcurrent
      (Interval.covers_start (hsound.shaped hcurrent)) (List.mem_of_head? hhead)
    obtain ⟨q, j, hj, hby, hnamed⟩ := h.exists_user hlife hu
    exact absurd hat (hquiet.position_ne hj hby hnamed hwrite)

include hactive hstuck

/-- Where a step is stuck, everybody's life demands a register. -/
theorem demand_of_stuck : ∀ i ∈ current :: s.active, ∃ life ∈ liveness.lives,
    life.register = i.register ∧ life.root.covers current.start = true ∧
      ∃ u ∈ life.root.uses, u.policy = .register ∧
        Sweep.evictBy current current.start ≤ u.position ∧ u.position ≤ current.start + 1 := by
  intro i hi
  obtain ⟨hcovers, limit, use, hlimit, hge, hle, hnext⟩ :=
    hstuck.needed rfl hsound hactive i hi
  have hmem : i ∈ [current] ++ s.pending := (Sweep.active_sublist s current).subset hi
  obtain ⟨-, ⟨u, hu, rfl, hpolicy⟩, -⟩ :=
    Interval.nextRegisterUse?_eq_some (hsound.used hmem) hnext
  obtain ⟨life, hlife, hregister, hlives, hused⟩ :=
    h.exists_demand hsound.tiling hmem hcovers hu
  exact ⟨life, hlife, hregister, hlives, u, hused, hpolicy, by lia, hle⟩

/-- If nothing is written where a step is stuck, one instruction names everybody. -/
theorem named_of_stuck (hquiet : order.Quiet regClass current.start) :
    ∃ b, ∃ j ∈ order.graph.instructions b,
      (current :: s.active).map (·.register) ⊆ order.graph.named regClass j := by
  have hregular := h.regular
  have hlimit := h.evictBy_of_quiet hsound hquiet
  -- the instruction that stands there, or behind if this is a gap
  have hstands : ∀ i ∈ current :: s.active, ∃ j,
      order.Stands (current.start + current.start % stride) j ∧
        i.register ∈ order.graph.named regClass j := by
    intro i hi
    obtain ⟨life, hlife, hregister, -, u, hu, -, hge, hle⟩ :=
      h.demand_of_stuck hsound hactive hstuck i hi
    obtain ⟨q, j, hj, hby, hnamed⟩ := h.exists_user hlife hu
    have heven := hj.even hregular
    have hread := hquiet.position_ne hj hby hnamed
    -- a write is excluded here, and of the positions left only one is even
    have hq : q = current.start + current.start % stride := by
      rcases hby with ⟨d, -, -, rfl⟩ | ⟨use, -, -, rfl⟩
      · have := hread rfl
        dsimp only at hge hle this
        lia
      · dsimp only at hge hle
        lia
    exact ⟨j, hq ▸ hj, hregister ▸ hnamed⟩
  obtain ⟨j, hj, -⟩ := hstands current List.mem_cons_self
  obtain ⟨span, hspan, k, hk, -⟩ := id hj
  refine ⟨span.block, j, List.mem_of_getElem? hk, List.forall_mem_map.2 fun i hi => ?_⟩
  obtain ⟨j', hj', hnamed⟩ := hstands i hi
  exact hj.unique hregular hj' ▸ hnamed

end NotStuck

/-- No step is stuck if no instruction names more registers than there are, and no more than
there are contend behind an instruction that writes. -/
theorem not_stuck (h : Analysed g regClass order liveness) {pool : List String}
    (hpool : pool.Nodup) (hnames : order.graph.NamesAtMost regClass pool.length)
    (hcontend : liveness.ContendAtMost order regClass pool.length) {s : Sweep} {current : Interval}
    (hsound : Sweep.Sound (Sweep.setupOf order (liveness.lives.map (·.root)) pool)
      (liveness.lives.map (·.root)) ⟨current.start, [current], none, s⟩)
    (hactive : ∀ i ∈ s.active, i.covers current.start = true) :
    ¬ Sweep.Stuck (Sweep.setupOf order (liveness.lives.map (·.root)) pool) s current := by
  intro hstuck
  have hlength := Sweep.length_pool_le hpool hstuck.1
  have hnodup := Sweep.nodup_registers hsound
  -- whatever lists everybody is longer than the pool
  have hcrowd : ∀ few : List VReg, (current :: s.active).map (·.register) ⊆ few →
      pool.length < few.length := by
    intro few hsub
    have hle := hnodup.length_le_of_subset hsub
    rw [List.length_map, List.length_cons] at hle
    exact Nat.lt_of_le_of_lt hlength hle
  by_cases hquiet : order.Quiet regClass current.start
  -- at a quiet position one instruction names everybody
  · obtain ⟨b, j, hj, hsub⟩ := h.named_of_stuck hsound hactive hstuck hquiet
    exact Nat.not_lt.2 (hnames.length_le hj) (hcrowd _ hsub)
  · -- behind an instruction that writes, everybody contends
    obtain ⟨j, hj, hwrites⟩ := LinearOrder.not_quiet.1 hquiet
    have hfew := hcontend.length_le hj hwrites
    rw [Int.sub_add_cancel] at hfew
    refine Nat.not_lt.2 hfew (hcrowd _ (List.forall_mem_map.2 fun i hi => ?_))
    obtain ⟨life, hlife, hregister, hcovers, u, hu, hpolicy, hge, hle⟩ :=
      h.demand_of_stuck hsound hactive hstuck i hi
    have hlimit := Sweep.le_evictBy current current.start
    exact Liveness.mem_contending.2
      ⟨life, hlife, hregister, hcovers, u, hu, hpolicy, by lia, hle⟩

/-- So a sweep returns. -/
theorem returns_of_demand (h : Analysed g regClass order liveness) {pool : List String}
    (hpool : pool.Nodup) (hnames : order.graph.NamesAtMost regClass pool.length)
    (hcontend : liveness.ContendAtMost order regClass pool.length) :
    ∃ swept, sweep order liveness.lives pool = .ok swept := by
  refine (Sweep.returns_iff h.rooted).2 ?_
  rintro ⟨s, current, rest, hreach, hline, hstuck⟩
  obtain ⟨p, hopening⟩ :=
    Sweep.sound_opening (Sweep.setupOf order (liveness.lives.map (·.root)) pool) h.rooted
  obtain ⟨p', hsound⟩ := Sweep.sound_of_reaches hopening hreach
  exact h.not_stuck hpool hnames hcontend (hsound.take hline).advance
    (fun i hi => Sweep.mem_active_advanced hi) hstuck

end Analysed

/-- A sweep returns exactly if it never comes to a step at which no register is free and the
value that has to go to memory is needed again before a stay there could end. That is so if
no instruction names more registers than there are and no more than there are contend in the
gap behind an instruction that writes, and so if there are twice as many registers as an
instruction names. -/
theorem sweep_returns_iff {g : Graph} {regClass : Option String} {order : LinearOrder}
    {liveness : Liveness} (h : Analysed g regClass order liveness) (pool : List String)
    (hpool : pool.Nodup) :
    ((∃ swept, sweep order liveness.lives pool = .ok swept) ↔
      ¬ Sweep.GetsStuck (Sweep.setupOf order (liveness.lives.map (·.root)) pool)
        (Sweep.opening (liveness.lives.map (·.root)))) ∧
    (order.graph.NamesAtMost regClass pool.length →
      liveness.ContendAtMost order regClass pool.length →
      ∃ swept, sweep order liveness.lives pool = .ok swept) ∧
    ∀ m, order.graph.NamesAtMost regClass m → 2 * m ≤ pool.length →
      ∃ swept, sweep order liveness.lives pool = .ok swept := by
  have hreturns : (∃ swept, sweep order liveness.lives pool = .ok swept) ↔ _ :=
    Sweep.returns_iff h.rooted
  have hfree := h.returns_of_demand hpool
  refine ⟨hreturns, hfree, fun m hnames hm => hfree ?_ (h.contendAtMost_of_namesAtMost hnames hm)⟩
  exact hnames.mono (by omega)

/-- Three values for two registers, of which the third is read before the others are. -/
def thirdReadFirst : Graph := Graph.run {} [
  .createRegister {}, .createRegister {}, .createRegister {}, .addBlock,
  .addInstruction (0 : Nat) { opcode := "a", defs := [{ register := (0 : Nat) }] },
  .addInstruction (0 : Nat) { opcode := "b", defs := [{ register := (1 : Nat) }] },
  .addInstruction (0 : Nat) { opcode := "c", defs := [{ register := (2 : Nat) }] },
  .addInstruction (0 : Nat) { opcode := "d", uses := [{ register := (2 : Nat) }] },
  .addInstruction (0 : Nat) { opcode := "e", uses := [{ register := (0 : Nat) },
    { register := (1 : Nat) }] }]

theorem sweep_returns_iff_thirdReadFirst : ∃ order liveness,
    Analysed thirdReadFirst none order liveness ∧ ["r0", "r1"].Nodup ∧
      order.graph.NamesAtMost none 2 ∧ liveness.ContendAtMost order none 2 ∧
      (∃ swept, sweep order liveness.lives ["r0", "r1"] = .ok swept) ∧
      ∃ swept, sweep order liveness.lives ["r0", "r1", "r2", "r3"] = .ok swept := by
  have h : Analysed thirdReadFirst none _ _ := ⟨⟨_, rfl⟩, ⟨_, rfl⟩, ⟨_, rfl⟩⟩
  obtain ⟨-, hreturns, -⟩ := sweep_returns_iff h ["r0", "r1"] (by decide)
  obtain ⟨-, -, hdouble⟩ := sweep_returns_iff h ["r0", "r1", "r2", "r3"] (by decide)
  exact ⟨_, _, h, by decide, by decide, by decide, hreturns (by decide) (by decide),
    hdouble 2 (by decide) (by decide)⟩

/-- The fourth instruction reads a value that lives on and writes another one, and the fifth
reads a third. -/
def crowdedGap : Graph := Graph.run {} [
  .createRegister {}, .createRegister {}, .createRegister {}, .createRegister {}, .addBlock,
  .addInstruction (0 : Nat) { opcode := "a", defs := [{ register := (0 : Nat) }] },
  .addInstruction (0 : Nat) { opcode := "b", defs := [{ register := (1 : Nat) }] },
  .addInstruction (0 : Nat) { opcode := "c", defs := [{ register := (3 : Nat) }] },
  .addInstruction (0 : Nat)
    { opcode := "d", uses := [{ register := (1 : Nat) }], defs := [{ register := (2 : Nat) }] },
  .addInstruction (0 : Nat) { opcode := "e", uses := [{ register := (0 : Nat) }] },
  .addInstruction (0 : Nat) { opcode := "f", uses := [{ register := (0 : Nat) },
    { register := (1 : Nat) }] }]

/-- No instruction names more than two registers, and yet two are not enough: three values
contend in the gap between the two. -/
theorem sweep_stops_crowdedGap : ∃ order liveness,
    Analysed crowdedGap none order liveness ∧ ["r0", "r1"].Nodup ∧
      order.graph.NamesAtMost none 2 ∧ liveness.contending 7 = [0, 1, 2] ∧
      sweep order liveness.lives ["r0", "r1"] = .error (.tooManyValues 8) := by
  have h : Analysed crowdedGap none _ _ := ⟨⟨_, rfl⟩, ⟨_, rfl⟩, ⟨_, rfl⟩⟩
  exact ⟨_, _, h, by decide, by decide, by decide, rfl⟩

end RegAlloc
