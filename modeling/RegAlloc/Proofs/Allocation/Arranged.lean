import RegAlloc.Pipeline
import RegAlloc.Proofs.Liveness.Flow
import RegAlloc.Proofs.Sweep.Pieces
import RegAlloc.Proofs.Sweep.Service
import RegAlloc.Proofs.Sweep.Vacated

/-!
# How an allocation is arranged

What a sweep sees to: the pieces of every register lie one after the other, tile its life
and suit its uses, seams in gaps are mended, and slots are counted and left in good order.

- `Graph.of_allocate` — the stages that a successful allocation went through;
- `Allocation.Arranged` — what is known once an allocation has been swept;
- `Arranged.locate?_of_covers`, `Arranged.exists_used` — looking pieces up;
- `Arranged.covers_or_seam` — the piece that a gap begins with;
- `Analysed.arranged` — every allocation that is swept is arranged.
-/

namespace RegAlloc

/-! ## The stages -/

theorem Options.eq_of_resolve {options resolved : Options} {messages : Messages Issue}
    (h : options.resolve = .success resolved messages) : resolved = options := by
  rw [Options.resolve] at h
  split at h
  · cases h
    rfl
  · cases h

/-- The stages of a successful allocation, after the linear order. -/
theorem LinearOrder.of_allocate {order : LinearOrder} {options : Options} {a : Allocation}
    {messages : Messages Issue} (h : order.allocate options = .ok (.success a messages)) :
    ∃ liveness swept resolution,
      (∃ messages, order.analyze options.regClass = .ok (.success liveness messages)) ∧
      RegAlloc.sweep order liveness.lives options.registers = .ok swept ∧
      RegAlloc.resolve order { liveness with lives := swept.lives } (.slot swept.slotCount) =
        .ok resolution ∧
      (options.verify = true → a.verify = .ok ()) ∧
      a =
        { order
          liveness := { liveness with lives := swept.lives }
          intervals := swept.intervals
          registers := options.registers
          slotCount := swept.slotCount
          resolution } := by
  rw [LinearOrder.allocate] at h
  split at h
  · cases h
  · next resolved _ hresolved =>
    cases Options.eq_of_resolve hresolved
    rw [bind_eq_ok] at h
    obtain ⟨analysed, hanalysed, h⟩ := h
    split at h
    · cases h
    · next liveness messages' =>
      simp only [Allocation.sweep, Allocation.resolve, Allocation.start, bind_eq_ok] at h
      -- the sweep and the resolution each only fill in what they find
      obtain ⟨_, ⟨swept, hswept, ⟨⟩⟩, _, ⟨resolution, hresolution, ⟨⟩⟩, h⟩ := h
      split at h
      · next hverify =>
        rw [bind_eq_ok] at h
        obtain ⟨⟨⟩, hchecked, ⟨⟩⟩ := h
        exact ⟨liveness, swept, resolution, ⟨_, hanalysed⟩, hswept, hresolution,
          fun _ => hchecked, rfl⟩
      · next hverify =>
        cases h
        exact ⟨liveness, swept, resolution, ⟨_, hanalysed⟩, hswept, hresolution,
          fun hverify' => absurd hverify' hverify, rfl⟩

/-- A successful allocation puts the graph in order and goes through all stages. -/
theorem Graph.of_allocate {g : Graph} {options : Options} {a : Allocation}
    {messages : Messages Issue} (h : g.allocate options = .ok (.success a messages)) :
    ∃ order, (∃ messages, g.linearize = .ok (.success order messages)) ∧
      ∃ messages, order.allocate options = .ok (.success a messages) := by
  rw [Graph.allocate] at h
  split at h
  · cases h
  · next resolved _ hresolved =>
    cases Options.eq_of_resolve hresolved
    rw [bind_eq_ok] at h
    obtain ⟨ordered, hordered, h⟩ := h
    split at h
    · cases h
    · next order _ =>
      rw [bind_eq_ok] at h
      obtain ⟨outcome, houtcome, h⟩ := h
      cases outcome with
      | failure _ => cases h
      | success value _ =>
        cases h
        exact ⟨order, ⟨_, hordered⟩, _, houtcome⟩

/-- An allocation is about the linear order of its graph. -/
theorem Graph.linearize_of_allocate {g : Graph} {options : Options} {a : Allocation}
    {messages : Messages Issue} (h : g.allocate options = .ok (.success a messages)) :
    ∃ messages, g.linearize = .ok (.success a.order messages) := by
  obtain ⟨order, hordered, _, hallocate⟩ := of_allocate h
  obtain ⟨_, _, _, -, -, -, -, rfl⟩ := LinearOrder.of_allocate hallocate
  exact hordered

/-! ## What they establish -/

/-- What is known of an allocation of a class of registers once it has been swept. -/
structure Allocation.Arranged (a : Allocation) (regClass : Option String) : Prop where
  regular : a.order.Regular
  single : (a.liveness.lives.map (·.register)).Nodup
  laid : ∀ life ∈ a.liveness.lives, life.Laid
  occurs : ∀ r, r ∈ a.order.occurring regClass ↔ ∃ life ∈ a.liveness.lives, life.register = r
  /-- The pieces of a register cover what its scan does. -/
  covers : ∀ life ∈ a.liveness.lives, ∀ p, (∃ i ∈ life.pieces, i.covers p = true) ↔
    Ranges.covers (a.order.scan life.register).track.ranges p = true
  uses : ∀ life ∈ a.liveness.lives, ∀ u, (∃ i ∈ life.pieces, u ∈ i.uses) ↔
    u ∈ (a.order.scan life.register).track.uses
  mem_intervals : ∀ i, i ∈ a.intervals ↔ ∃ life ∈ a.liveness.lives, i ∈ life.pieces
  numbered : a.intervals.map (·.id) = Sweep.ids a.intervals.length
  used : ∀ i ∈ a.intervals, i.Used
  served : ∀ i ∈ a.intervals, i.Served a.registers
  timed : ∀ i ∈ a.intervals, i.Timed a.order
  mended : ∀ i ∈ a.intervals, ∀ j ∈ a.intervals, i.Seam j → Mended a.order a.intervals none i j
  counted : ∀ i ∈ a.intervals, ∀ slot, i.location = some (.slot slot) →
    ∃ n : Nat, slot = n ∧ n < a.slotCount
  /-- Where a piece in a slot ends and its value lives on, no other value is written there. -/
  leftBy : ∀ i ∈ a.intervals, ∀ j ∈ a.intervals, i.register ≠ j.register → ∀ slot,
    i.location = some (.slot slot) → j.location = some (.slot slot) →
      Ranges.covers (a.order.scan i.register).track.ranges i.stop = true → ¬ j.WrittenAt i.stop
  liveInto : ∀ span ∈ a.order.spans, ∀ r, r ∈ a.liveness.liveInto span.block ↔
    r ∈ a.order.occurring regClass ∧
      Ranges.covers (a.order.scan r).track.ranges span.first = true
  liveIntoNodup : ∀ span ∈ a.order.spans, (a.liveness.liveInto span.block).Nodup
  entry : ∀ span, a.order.spans.head? = some span → ∀ life ∈ a.liveness.lives,
    Ranges.covers (a.order.scan life.register).track.ranges span.first = false

namespace Allocation.Arranged

variable {a : Allocation} {regClass : Option String} {life : Lifetime} {i k : Interval}
  {p gap : Position}

theorem mem_of_piece (h : a.Arranged regClass) (hlife : life ∈ a.liveness.lives)
    (hi : i ∈ life.pieces) : i ∈ a.intervals :=
  (h.mem_intervals i).2 ⟨life, hlife, hi⟩

theorem ascending (h : a.Arranged regClass) : ∀ i ∈ a.intervals, Ranges.Ascending i.ranges := by
  intro i hi
  obtain ⟨life, hlife, hmem⟩ := (h.mem_intervals i).1 hi
  exact ((h.laid life hlife).shaped i hmem).ordered.ascending

theorem eq_of_register (h : a.Arranged regClass) {other : Lifetime}
    (hlife : life ∈ a.liveness.lives) (hother : other ∈ a.liveness.lives)
    (hregister : life.register = other.register) : life = other :=
  List.inj_on_of_nodup_map h.single hlife hother hregister

theorem life?_register (h : a.Arranged regClass) (hlife : life ∈ a.liveness.lives) :
    a.liveness.life? life.register = some life :=
  Lifetime.find?_register h.single hlife

/-- Every piece has a location. -/
theorem exists_location (h : a.Arranged regClass) (hi : i ∈ a.intervals) :
    ∃ l, i.location = some l := by
  obtain ⟨l, hl, -⟩ := h.served i hi
  exact ⟨l, hl⟩

/-- A register is found where the piece is that covers a position. -/
theorem locate?_of_covers (h : a.Arranged regClass) (hlife : life ∈ a.liveness.lives)
    (hi : i ∈ life.pieces) (hcovers : i.covers p = true) :
    ∃ l, i.location = some l ∧ a.locate? life.register p = some l := by
  obtain ⟨l, hl⟩ := h.exists_location (h.mem_of_piece hlife hi)
  refine ⟨l, hl, ?_⟩
  rw [locate?, h.life?_register hlife, Option.bind_some,
    (h.laid life hlife).pieceAt?_eq_some.2 ⟨hi, hcovers⟩, Option.bind_some, hl]

theorem locate?_eq_some (h : a.Arranged regClass) {r : VReg} {l : Location} :
    a.locate? r p = some l ↔ ∃ life ∈ a.liveness.lives, life.register = r ∧
      ∃ i ∈ life.pieces, i.covers p = true ∧ i.location = some l := by
  simp only [locate?, Option.bind_eq_some_iff]
  constructor
  · rintro ⟨i, ⟨life, hlife, hi⟩, hl⟩
    have hmem : life ∈ a.liveness.lives := List.mem_of_find?_eq_some hlife
    obtain ⟨hi, hcovers⟩ := (h.laid life hmem).pieceAt?_eq_some.1 hi
    exact ⟨life, hmem, by simpa using List.find?_some hlife, i, hi, hcovers, hl⟩
  · rintro ⟨life, hlife, rfl, i, hi, hcovers, hl⟩
    exact ⟨i, ⟨life, h.life?_register hlife, (h.laid life hlife).pieceAt?_eq_some.2 ⟨hi, hcovers⟩⟩,
      hl⟩

/-- No piece is in the scratch location. -/
theorem ne_scratch (h : a.Arranged regClass) (hi : i ∈ a.intervals) {l : Location}
    (hl : i.location = some l) : l ≠ a.scratch := by
  rintro rfl
  obtain ⟨n, hslot, hlt⟩ := h.counted i hi _ hl
  lia

/-- A use of a register by an instruction is a use of the piece that covers it. -/
theorem exists_used (h : a.Arranged regClass) {instruction : Instruction}
    (hstands : a.order.Stands p instruction) {r : VReg}
    (hclass : a.order.graph.inClass regClass r = true) {u : UsePoint}
    (hused : Track.UsedBy r p instruction u) :
    ∃ life ∈ a.liveness.lives, life.register = r ∧
      ∃ i ∈ life.pieces, u ∈ i.uses ∧ i.covers u.position = true := by
  have hmentions := hused.mentions
  obtain ⟨span, -, index, hindex, -⟩ := id hstands
  have hmem := List.mem_of_getElem? hindex
  obtain ⟨life, hlife, rfl⟩ := (h.occurs r).1 (LinearOrder.mem_occurring.2
    ⟨hclass, Graph.mentions_iff.2 ⟨_, _, hmem, hmentions⟩⟩)
  obtain ⟨i, hi, hu⟩ := (h.uses life hlife u).2
    ((LinearOrder.mem_uses_scan ..).2 ⟨p, instruction, hstands, hused⟩)
  exact ⟨life, hlife, rfl, i, hi, hu, (h.used i (h.mem_of_piece hlife hi)).covered u hu⟩

/-- A value that begins in a gap is written by the instruction before. -/
theorem writes_of_begins (h : a.Arranged regClass) (heven : p % stride = 0)
    (hlife : life ∈ a.liveness.lives) (hi : i ∈ life.pieces) (hgap : i.covers (p + 1) = true)
    (hbegins : ∀ k ∈ life.pieces, k.covers p = false) :
    ∃ instruction, a.order.Stands p instruction ∧ instruction.writes life.register = true := by
  have hcovers := (h.covers life hlife (p + 1)).1 ⟨i, hi, hgap⟩
  have hnot : Ranges.covers (a.order.scan life.register).track.ranges (p + 1 - 1) = false := by
    rw [Int.add_sub_cancel, Bool.eq_false_iff, ne_eq, ← h.covers life hlife]
    rintro ⟨k, hk, hkp⟩
    simp [hbegins k hk] at hkp
  obtain ⟨instruction, hstands, hwrites⟩ :=
    LinearOrder.writes_of_begins h.regular (by lia) hcovers hnot
  rw [Int.add_sub_cancel] at hstands
  exact ⟨instruction, hstands, hwrites⟩

/-- A value that begins in a gap is written there. -/
theorem writtenAt_of_begins (h : a.Arranged regClass) (hodd : gap % stride = 1)
    (hlife : life ∈ a.liveness.lives) (hi : i ∈ life.pieces) (hgap : i.covers gap = true)
    (hbegins : ∀ k ∈ life.pieces, k.covers (gap - 1) = false) : i.WrittenAt gap := by
  obtain ⟨instruction, hstands, hwrites⟩ :=
    h.writes_of_begins (by lia) hlife hi (by simpa using hgap) hbegins
  simp only [Instruction.writes, List.any_eq_true, beq_iff_eq] at hwrites
  obtain ⟨d, hd, hregister⟩ := hwrites
  obtain ⟨j, hj, hu⟩ := (h.uses life hlife ⟨gap - 1 + 1, d.policy, .write⟩).2
    ((LinearOrder.mem_uses_scan ..).2 ⟨_, instruction, hstands, .inl ⟨d, hd, hregister, rfl⟩⟩)
  rw [Int.sub_add_cancel] at hu
  cases (h.laid life hlife).unique hj hi
    ((h.used j (h.mem_of_piece hlife hj)).covered _ hu) hgap
  exact ⟨_, hu, rfl, rfl⟩

/-- Pieces of a value that meet in a gap leave a mended seam. -/
theorem seam_of_meet (h : a.Arranged regClass) (hlife : life ∈ a.liveness.lives)
    (hi : i ∈ life.pieces) (hk : k ∈ life.pieces) (hmeet : i.stop = k.start)
    (hodd : k.start % stride = 1) : i.Seam k ∧ Mended a.order a.intervals none i k := by
  have hlaid := h.laid life hlife
  have hseam : i.Seam k :=
    ⟨(hlaid.register i hi).trans (hlaid.register k hk).symm, hmeet, hodd⟩
  exact ⟨hseam, h.mended i (h.mem_of_piece hlife hi) k (h.mem_of_piece hlife hk) hseam⟩

/-- The piece that a gap begins with covers it, or ends there and leaves a mended seam. -/
theorem covers_or_seam (h : a.Arranged regClass) (hodd : gap % stride = 1)
    (hlife : life ∈ a.liveness.lives) (hk : life.pieceBefore? gap = some k) :
    k ∈ life.pieces ∧ (k.covers gap = true ∨
      ∃ j ∈ life.pieces, j.start = gap ∧ k.Seam j ∧ Mended a.order a.intervals none k j) := by
  have hlaid := h.laid life hlife
  obtain ⟨hkmem, j, hj, hjgap, hbefore⟩ := hlaid.of_pieceBefore? hk
  refine ⟨hkmem, ?_⟩
  by_cases hkj : k = j
  · exact .inl (hkj ▸ hjgap)
  · obtain hbefore | ⟨rfl, -⟩ := hbefore
    · obtain ⟨hstop, hstart⟩ := hlaid.meet_of_ne hkmem hj hkj hbefore (by simpa using hjgap)
      exact .inr ⟨j, hj, by lia, h.seam_of_meet hlife hkmem hj (by lia) (by lia)⟩
    · exact absurd rfl hkj

end Allocation.Arranged

namespace Sweep

variable {order : LinearOrder} {lives : List Lifetime} {pool : List String} {s : Sweep}

/-- When a sweep is over, its pieces tile the lifetimes and no piece is left in a gap. -/
theorem tiling_of_reaches {roots : List Interval} (hrooted : Rooted roots)
    (hreach : Reaches (setupOf order roots pool) (opening roots) s) (hempty : s.waiting = []) :
    Tiling roots s.done (s.active ++ s.inactive) := by
  obtain ⟨p, hopening⟩ := sound_opening (setupOf order roots pool) hrooted
  obtain ⟨p', hsound⟩ := sound_of_reaches hopening hreach
  simpa [pending, hempty] using hsound.tiling

/-- The seams between the pieces that a sweep leaves are mended. -/
theorem mended_of_reaches {roots : List Interval} (hrooted : Rooted roots)
    (heven : ∀ span ∈ order.spans, span.first % stride = 0)
    (htimed : ∀ root ∈ roots, root.Timed order ∧ root.Urgent)
    (hreach : Reaches (setupOf order roots pool) (opening roots) s) (hempty : s.waiting = []) :
    (∀ i ∈ s.placed, i.Timed order) ∧
      ∀ i ∈ s.placed, ∀ j ∈ s.placed, i.Seam j → Mended order s.placed none i j := by
  obtain ⟨p, hopening⟩ := sound_opening (setupOf order roots pool) hrooted
  -- as the sweep opens, only roots wait, and nothing has been cut
  have hmem : ∀ i, i ∈ (opening roots).pending → i ∈ roots := by
    intro i hi
    simpa [pending, opening] using hi
  have hseams : Seams order (opening roots).done (opening roots).pending none :=
    ⟨fun i hi => (htimed i (hmem i hi)).1, fun i hi _ => (htimed i (hmem i hi)).2,
      by simp [opening]⟩
  have hend := seams_of_reaches heven hopening hseams hreach
  have htiling := tiling_of_reaches hrooted hreach hempty
  have hpending : s.pending = s.active ++ s.inactive := by simp [pending, hempty]
  have hplaced : ∀ {i}, i ∈ s.placed ↔ i ∈ s.done ++ s.pending := by
    rw [hpending]
    exact s.placed_perm.mem_iff.symm
  refine ⟨fun i hi => hend.timed i (hplaced.1 hi), fun i hi j hj hseam => ?_⟩
  -- of two pieces that meet, the earlier one is finished
  have hidone : i ∈ s.done := by
    rw [hplaced, hpending] at hi hj
    exact htiling.mem_finished_of_seam hi hj hseam
  -- in the end nothing is promised, so whoever takes a register has been placed
  refine (hend.mended i hidone j (hplaced.1 hj) hseam).mono hseam.2.2 rfl (List.Subset.refl _) ?_
  rintro name k (⟨hk, hloc⟩ | hk) - -
  · exact ⟨k, .inl ⟨hplaced.2 hk, hloc⟩, rfl, fun _ h => h⟩
  · cases hk

/-- The slots that the pieces of a sweep are in have been counted. -/
theorem counted_placed {roots : List Interval} (hrooted : Rooted roots)
    (hreach : Reaches (setupOf order roots pool) (opening roots) s) :
    ∀ i ∈ s.placed, ∀ slot, i.location = some (.slot slot) →
      ∃ n : Nat, slot = n ∧ n < s.slotCount := by
  obtain ⟨p, hopening⟩ := sound_opening (setupOf order roots pool) hrooted
  obtain ⟨p', hsound⟩ := sound_of_reaches hopening hreach
  obtain ⟨p'', hcounted⟩ :=
    counted_of_reaches hopening ⟨by simp [opening], by simp [opening]⟩ hreach
  intro i hi slot hloc
  rcases List.mem_append.1 (s.placed_perm.mem_iff.2 hi) with hi | hi
  · exact hcounted.pieces i (by simp [hi]) slot hloc
  · obtain ⟨-, name, -, hreg⟩ := hsound.begun i hi
    simp [hreg] at hloc

end Sweep

namespace LinearOrder

variable {order : LinearOrder} {regClass : Option String}

/-- No register is live as the program starts. -/
theorem not_covers_entry (h : order.Regular)
    (hentry : order.entryIssues (order.scans regClass) = []) {span : Span}
    (hspan : order.spans.head? = some span) {r : VReg} (hr : r ∈ order.occurring regClass) :
    Ranges.covers (order.scan r).track.ranges span.first = false := by
  rw [Bool.eq_false_iff]
  intro hcovers
  have hmem := List.mem_of_head? hspan
  rw [covers_first_iff h hmem, ← liveInto_iff h hmem] at hcovers
  simp only [entryIssues, hspan, List.map_eq_nil_iff, selectScanned,
    List.filter_eq_nil_iff] at hentry
  exact hentry (r, order.scan r) (by simpa [scans] using hr) hcovers

/-- The lifetimes are numbered in order. -/
theorem ids_livesOf (scans : List (VReg × Scan)) :
    ((livesOf scans).map (·.root)).map (·.id) =
      Sweep.ids ((livesOf scans).map (·.root)).length := by
  have hids : ((livesOf scans).map (·.root)).map (·.id) =
      (scans.zipIdx.map Prod.snd).map Int.ofNat := by
    simp only [livesOf, List.map_map]
    rfl
  rw [hids, List.zipIdx_map_snd, ← List.range_eq_range', Sweep.ids]
  simp [livesOf]

/-- The lifetime of a register covers and uses what the scan of the register does. -/
theorem exists_root_iff {life : Lifetime} (hlife : life ∈ livesOf (order.scans regClass))
    (P : List Range → List UsePoint → Prop) :
    (∃ i ∈ (livesOf (order.scans regClass)).map (·.root), i.register = life.register ∧
        P i.ranges i.uses) ↔
      P (order.scan life.register).track.ranges (order.scan life.register).track.uses := by
  constructor
  · rintro ⟨_, hi, hreg, hP⟩
    obtain ⟨other, hother, rfl⟩ := List.mem_map.1 hi
    obtain ⟨-, -, id, hroot⟩ := mem_livesOf hother
    have hsame : other.register = life.register := hreg
    rw [hroot, hsame] at hP
    exact hP
  · intro hP
    obtain ⟨-, -, id, hroot⟩ := mem_livesOf hlife
    exact ⟨life.root, List.mem_map_of_mem hlife, rfl, by rw [hroot]; exact hP⟩

end LinearOrder

/-- Every allocation that is swept is arranged. -/
theorem Analysed.arranged {g : Graph} {regClass : Option String} {order : LinearOrder}
    {liveness : Liveness} (hall : Analysed g regClass order liveness) {pool : List String}
    {a : Allocation} (h : (Allocation.start order liveness pool).sweep = .ok a) :
    a.Arranged regClass := by
  rw [Allocation.sweep, bind_eq_ok] at h
  obtain ⟨swept, hswept, ⟨⟩⟩ := h
  have hregular := hall.regular
  have hrooted := hall.rooted
  have hlives := hall.lives_eq
  obtain ⟨s, hreach, hempty, rfl⟩ := (Sweep.sweep_ensures hrooted).of_eq_ok hswept
  have htiling := Sweep.tiling_of_reaches hrooted hreach hempty
  have hperm := s.placed_perm
  have hroots : ∀ root ∈ liveness.lives.map (·.root), root.Timed order ∧ root.Urgent :=
    List.forall_mem_map.2 fun life hlife => LinearOrder.timed_root hregular (hlives ▸ hlife)
  obtain ⟨htimed, hmended⟩ :=
    Sweep.mended_of_reaches hrooted hregular.even_first hroots hreach hempty
  have hsingle : (liveness.lives.map (·.register)).Nodup := by
    have hnodup := hrooted.single
    rwa [List.map_map] at hnodup
  have hchildren : ∀ life ∈ liveness.lives, life.children = [] := fun life hlife =>
    (LinearOrder.mem_livesOf (hlives ▸ hlife)).2.1
  have hcollect := Sweep.laid_collect_all htiling hsingle hperm hchildren
  -- the pieces of a register, among those placed
  have hpieces : ∀ life ∈ liveness.lives, ∀ P : Interval → Prop,
      (∃ i ∈ (Sweep.collect s.placed life).pieces, P i) ↔
        ∃ i ∈ s.done ++ (s.active ++ s.inactive), i.register = life.register ∧ P i := by
    intro life hlife P
    simp only [(hcollect life hlife).2.2, hperm.mem_iff, and_assoc]
  refine
    { regular := hregular
      single := ?single
      laid := List.forall_mem_map.2 fun life hlife => (hcollect life hlife).1
      occurs := fun r => ?occurs
      covers := List.forall_mem_map.2 fun life hlife p => ?covers
      uses := List.forall_mem_map.2 fun life hlife u => ?uses
      mem_intervals := Sweep.mem_placed_iff htiling hsingle hperm hchildren
      numbered := Sweep.ids_placed hrooted (hlives ▸ LinearOrder.ids_livesOf _) hreach hempty
      used := fun i hi => htiling.used i (hperm.mem_iff.2 hi)
      served := Sweep.served_placed hrooted hreach
      timed := htimed
      mended := hmended
      counted := fun i hi slot hloc => ?counted
      leftBy := fun i hi j hj hne slot hislot hjslot hcovers => ?leftBy
      liveInto := fun span hspan r => ?liveInto
      liveIntoNodup := fun span hspan => ?liveIntoNodup
      entry := fun span hspan => List.forall_mem_map.2 fun life hlife => ?entry }
  case single => exact Sweep.registers_collect htiling hsingle hperm hchildren ▸ hsingle
  case occurs =>
    change _ ↔ ∃ life ∈ liveness.lives.map (Sweep.collect s.placed), life.register = r
    rw [← List.mem_map, Sweep.registers_collect htiling hsingle hperm hchildren, hlives,
      LinearOrder.registers_livesOf]
    rfl
  case covers =>
    rw [(hcollect life hlife).2.1, hpieces life hlife, htiling.covers, hlives]
    exact LinearOrder.exists_root_iff (hlives ▸ hlife) fun ranges _ => Ranges.covers ranges p = true
  case uses =>
    rw [(hcollect life hlife).2.1, hpieces life hlife, htiling.uses, hlives]
    exact LinearOrder.exists_root_iff (hlives ▸ hlife) fun _ uses => u ∈ uses
  case counted =>
    obtain ⟨n, hn, hlt⟩ := Sweep.counted_placed hrooted hreach i hi slot hloc
    exact ⟨n, hn, Int.ofNat_lt.2 hlt⟩
  case leftBy =>
    -- a write is behind its instruction, as it was in the root
    have hwrites : ∀ root ∈ liveness.lives.map (·.root), ∀ u ∈ root.uses, u.access = .write →
        u.position % stride = 1 := fun root hroot u hu => ((hroots root hroot).1.writes u hu).1
    refine Sweep.leftBy_placed hrooted hwrites hreach i hi j hj hne slot hislot hjslot ?_
    obtain ⟨_, howner, hpiece⟩ := (Sweep.mem_placed_iff htiling hsingle hperm hchildren i).1 hi
    obtain ⟨life, hlife, rfl⟩ := List.mem_map.1 howner
    rw [(((hcollect life hlife).2.2 i).1 hpiece).2] at hcovers ⊢
    rw [hlives]
    exact (LinearOrder.exists_root_iff (hlives ▸ hlife) fun ranges _ =>
      Ranges.covers ranges i.stop = true).2 hcovers
  case liveInto =>
    exact (hall.mem_liveInto hspan).trans
      (and_congr_right fun _ => (LinearOrder.covers_first_iff hregular hspan).symm)
  case liveIntoNodup => exact hall.nodup_liveInto hspan
  case entry =>
    rw [(hcollect life hlife).2.1]
    exact LinearOrder.not_covers_entry hregular
      (List.append_eq_nil_iff.1 hall.errors_eq_nil).2 hspan
      (LinearOrder.mem_livesOf (hlives ▸ hlife)).1

/-- Every successful allocation is arranged. -/
theorem Graph.arranged_of_allocate {g : Graph} (hg : g.Built) {options : Options} {a : Allocation}
    {messages : Messages Issue} (h : g.allocate options = .ok (.success a messages)) :
    a.Arranged options.regClass := by
  obtain ⟨order, hordered, _, hallocate⟩ := of_allocate h
  obtain ⟨liveness, swept, resolution, hanalysed, hswept, -, -, rfl⟩ :=
    LinearOrder.of_allocate hallocate
  have hall : Analysed g options.regClass order liveness := ⟨hg, hordered, hanalysed⟩
  have hsweep : (Allocation.start order liveness options.registers).sweep = .ok _ :=
    bind_eq_ok.2 ⟨swept, hswept, rfl⟩
  -- the moves, which were found later, play no part
  have harranged := hall.arranged hsweep
  exact { harranged with }

end RegAlloc
