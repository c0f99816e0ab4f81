import RegAlloc.Proofs.Liveness.Grouping
import RegAlloc.Proofs.Liveness.Pass

/-!
# The analysis is the analysis of each register

After the backward pass, what is live at loop headers is spread over their loops, the deaths are
grouped, and what is wrong with the program is reported. All of it can be said register by
register: an analysis of a linear order finds what the scans of its registers find.

- `spread_liveSets`, `LinearOrder.spread_liveIn` — the registers live into the blocks;
- `LinearOrder.grouped_killsOf` — the deaths;
- `LinearOrder.analyze_eq` — the analysis.
-/

namespace RegAlloc

/-! ## Spreading over loops -/

section Spread

variable {order : LinearOrder} {occ : List VReg}

/-- Adding some registers of an ascending list to others of it. -/
theorem foldl_insertRegister_filter (hocc : occ.Pairwise (· < ·)) (p q : VReg → Bool) :
    (occ.filter q).foldl (fun l r => insertRegister r l) (occ.filter p) =
      occ.filter fun r => p r || q r := by
  refine (pairwise_foldl_insertRegister (hocc.filter p)).eq_of_mem_iff (hocc.filter _) fun r => ?_
  simp only [mem_foldl_insertRegister, List.mem_filter, Bool.or_eq_true]
  grind

/-- The registers of a list that are live into each block of an order. -/
def liveSets (order : LinearOrder) (occ : List VReg) (live : Span → VReg → Bool) :
    List (BlockId × List VReg) :=
  order.spans.map fun span => (span.block, occ.filter (live span))

theorem addLiveIn_liveSets (hocc : occ.Pairwise (· < ·)) (b : BlockId) (q : VReg → Bool)
    (live : Span → VReg → Bool) : addLiveIn b (occ.filter q) (liveSets order occ live) =
      liveSets order occ fun span r => live span r || (span.block == b && q r) := by
  unfold addLiveIn liveSets
  rw [List.map_map]
  refine List.map_congr_left fun span _ => Prod.ext rfl ?_
  dsimp only [Function.comp_apply]
  by_cases hb : span.block = b
  · simp only [hb, beq_self_eq_true, if_true, Bool.true_and]
    exact foldl_insertRegister_filter hocc _ _
  · have hne : (span.block == b) = false := by simpa using hb
    simp [hne]

/-- Adding registers to several blocks. -/
theorem foldl_addLiveIn_liveSets (hocc : occ.Pairwise (· < ·)) (q : VReg → Bool) :
    ∀ (inside : List Span) (live : Span → VReg → Bool),
      inside.foldl (fun liveIn span => addLiveIn span.block (occ.filter q) liveIn)
          (liveSets order occ live) =
        liveSets order occ fun span r =>
          live span r || (inside.any (·.block == span.block) && q r)
  | [], live => by simp
  | x :: inside, live => by
    rw [List.foldl_cons, addLiveIn_liveSets hocc, foldl_addLiveIn_liveSets hocc q inside]
    congr 1
    funext span r
    rw [List.any_cons, Bool.and_or_distrib_right, ← Bool.or_assoc, Bool.beq_comm]

/-- The blocks of a loop are found by their stretches. -/
theorem spread_liveSets (h : order.Regular) (hocc : occ.Pairwise (· < ·)) (start stop : Position)
    (q : VReg → Bool) (live : Span → VReg → Bool) :
    LoopSpan.spread order (liveSets order occ live) ⟨start, stop, occ.filter q⟩ =
      liveSets order occ fun span r =>
        live span r || ((decide (start ≤ span.first) && decide (span.first < stop)) && q r) := by
  unfold LoopSpan.spread
  rw [foldl_addLiveIn_liveSets hocc]
  refine List.map_congr_left fun span hspan => ?_
  -- a block is inside if its own span is, and no other span is of the block
  have hinside : ((order.spans.filter fun x => decide (start ≤ x.first) &&
      decide (x.first < stop)).any (·.block == span.block)) =
      (decide (start ≤ span.first) && decide (span.first < stop)) := by
    rw [Bool.eq_iff_iff, List.any_eq_true]
    constructor
    · rintro ⟨x, hx, hblock⟩
      obtain ⟨hmem, hin⟩ := List.mem_filter.1 hx
      cases h.span_unique hmem hspan (beq_iff_eq.1 hblock)
      exact hin
    · intro hin
      exact ⟨span, List.mem_filter.2 ⟨hspan, hin⟩, beq_self_eq_true _⟩
  simp only [hinside]

/-- Spreading over several loops. -/
theorem foldl_spread_liveSets (h : order.Regular) (hocc : occ.Pairwise (· < ·)) :
    ∀ (loops : List LoopSpan) (live : Span → VReg → Bool),
      (∀ loop ∈ loops, ∃ q : VReg → Bool, loop.live = occ.filter q) →
      loops.foldl (LoopSpan.spread order) (liveSets order occ live) =
        liveSets order occ fun span r => live span r || loops.any fun loop =>
          (decide (loop.start ≤ span.first) && decide (span.first < loop.stop)) && r ∈ loop.live
  | [], live, _ => by simp
  | ⟨start, stop, rs⟩ :: loops, live, hloops => by
    obtain ⟨⟨q, hq⟩, hrest⟩ := List.forall_mem_cons.1 hloops
    dsimp only at hq
    subst hq
    rw [List.foldl_cons, spread_liveSets h hocc, foldl_spread_liveSets h hocc loops _ hrest]
    refine List.map_congr_left fun span _ => Prod.ext rfl (List.filter_congr fun r hr => ?_)
    have hmem : decide (r ∈ occ.filter q) = q r := by simp [hr]
    dsimp only
    rw [List.any_cons, hmem, Bool.or_assoc]

end Spread

namespace LinearOrder

variable {order : LinearOrder} {regClass : Option String} {s : Pass}

/-- The registers live into the blocks when the pass is over. -/
theorem liveIn_eq_liveSets (h : order.Regular) (hs : Pass.Scanned order regClass order.spans s) :
    s.liveIn =
      liveSets order (order.occurring regClass) fun span r => order.needed r span.block := by
  have hnodup : (s.liveIn.map (·.1)).Nodup := hs.blocks ▸ h.nodup
  have hself : s.liveIn.map (fun entry => (entry.1, (s.liveIn.lookup entry.1).getD [])) =
      s.liveIn := by
    refine (List.map_congr_left fun entry hentry => ?_).trans (List.map_id _)
    rw [(Table.mem_iff_lookup hnodup).1 hentry]
    rfl
  calc s.liveIn
    _ = (s.liveIn.map (·.1)).map fun b => (b, (s.liveIn.lookup b).getD []) := by
      rw [List.map_map]
      exact hself.symm
    _ = liveSets order (order.occurring regClass) fun span r => order.needed r span.block := by
      rw [hs.blocks, List.map_map]
      refine List.map_congr_left fun span _ => Prod.ext rfl ?_
      exact hs.liveIn span.block

/-- A header with a latch is the header of a loop. -/
theorem mem_headers_of_latchEnd {b : BlockId} {stop : Position}
    (hlatch : order.latchEnd? b = some stop) : b ∈ order.headers := by
  have hmem := List.max?_mem hlatch
  obtain ⟨edge, hedge, -⟩ := List.mem_filterMap.1 hmem
  obtain ⟨hedge, htarget⟩ := List.mem_filter.1 hedge
  rw [headers, List.mem_eraseDups]
  exact List.mem_map.2 ⟨edge, hedge, beq_iff_eq.1 htarget⟩

/-- The loops that the pass found keep alive what the loops of the order do. -/
theorem any_loops (h : order.Regular) (hs : Pass.Scanned order regClass order.spans s) {r : VReg}
    (hr : r ∈ order.occurring regClass) (first : Position) :
    (s.loops.any fun loop =>
        (decide (loop.start ≤ first) && decide (first < loop.stop)) && r ∈ loop.live) =
      order.headers.any fun b => order.loopContains b first && order.needed r b := by
  rw [Bool.eq_iff_iff, List.any_eq_true, List.any_eq_true]
  constructor
  -- a recorded loop is that of some header
  · rintro ⟨loop, hloop, hholds⟩
    obtain ⟨span, hspan, stop, hlatch, rfl⟩ := (hs.loops loop).1 hloop
    simp only [Bool.and_eq_true, decide_eq_true_eq, List.mem_filter] at hholds
    refine ⟨span.block, mem_headers_of_latchEnd hlatch, ?_⟩
    rw [loopContains, h.span?_eq_some.2 ⟨hspan, rfl⟩, hlatch]
    simp [hholds.1, hholds.2.2]
  -- a header that has a latch was recorded with its loop
  · rintro ⟨b, -, hholds⟩
    rw [Bool.and_eq_true, loopContains] at hholds
    split at hholds
    · next span stop hfound hlatch =>
      obtain ⟨hspan, rfl⟩ := h.span?_eq_some.1 hfound
      refine ⟨_, (hs.loops _).2 ⟨span, hspan, stop, hlatch, rfl⟩, ?_⟩
      simpa [hr] using hholds
    · cases hholds.1

/-- The registers live into the blocks, loops included. -/
theorem spread_liveIn (h : order.Regular) (hs : Pass.Scanned order regClass order.spans s) :
    s.loops.foldl (LoopSpan.spread order) s.liveIn = order.liveInSets (order.scans regClass) := by
  have hloops : ∀ loop ∈ s.loops, ∃ q : VReg → Bool,
      loop.live = (order.occurring regClass).filter q := by
    intro loop hloop
    obtain ⟨span, -, stop, -, rfl⟩ := (hs.loops loop).1 hloop
    exact ⟨_, rfl⟩
  rw [liveIn_eq_liveSets h hs,
    foldl_spread_liveSets h (order.pairwise_occurring regClass) _ _ hloops]
  refine List.map_congr_left fun span _ => Prod.ext rfl ?_
  dsimp only
  rw [selectScanned_scans]
  refine List.filter_congr fun r hr => ?_
  rw [any_loops h hs hr]
  rfl

/-! ## Errors -/

/-- The errors of the pass are the reads after a last use. -/
theorem errors_eq (hs : Pass.Scanned order regClass order.spans s) :
    s.errors = order.readsAfterKill (order.scans regClass) := by
  have hneeds : ∀ b, Pass.Follows.needs order regClass (order.neededAfter · b) = fun r =>
      ((order.scans regClass).lookup r).map fun scan => scan.neededAfter order b := by
    intro b
    funext r
    rw [lookup_scans, Pass.Follows.needs, apply_ite (Option.map _)]
    rfl
  rw [hs.errors, readsAfterKill]
  simp only [hneeds]

/-- What is live into the first block is live at the entry. -/
theorem entryErrors_eq (h : order.Regular) (scans : List (VReg × Scan)) :
    order.entryErrors (order.liveInSets scans) = order.entryIssues scans := by
  rw [entryErrors, entryIssues, blocks, List.head?_map]
  cases hhead : order.spans.head? with
  | none => rfl
  | some span =>
    have hlookup : (order.liveInSets scans).lookup span.block =
        some (selectScanned scans (order.liveInto · span)) :=
      Table.lookup_map h.nodup span (List.mem_of_head? hhead)
    simp only [Option.map_some, hlookup, Option.getD_some]

/-- The registers that have no interval are those that do not occur. -/
theorem unusedWarnings_eq (hs : Pass.Scanned order regClass order.spans s) :
    order.unusedWarnings regClass s.intervals = order.unusedIssues regClass := by
  unfold unusedWarnings unusedIssues
  congr 1
  refine List.filter_congr fun register _ => ?_
  cases hclass : order.graph.inClass regClass register.id with
  | false => rfl
  | true =>
    -- there is an interval for each register of the class that is mentioned, and for no other
    have hregisters : s.intervals.map (·.register) = order.occurring regClass := by
      rw [hs.follows.intervals, Pass.intervalsOf, List.map_map]
      exact List.zipIdx_map_fst ..
    have hany : s.intervals.any (·.register == register.id) = order.graph.mentions register.id := by
      rw [Bool.eq_iff_iff, List.any_eq_true]
      have hmem : register.id ∈ order.occurring regClass ↔ _ := mem_occurring
      rw [← hregisters, List.mem_map, hclass] at hmem
      simpa using hmem
    rw [hany]

/-! ## Lives and deaths -/

theorem lives_eq (hs : Pass.Scanned order regClass order.spans s) :
    s.intervals.map (fun root => ({ root } : Lifetime)) = livesOf (order.scans regClass) := by
  rw [hs.follows.intervals, livesOf, Pass.intervalsOf, scans, List.map_map, List.zipIdx_map,
    List.map_map]
  rfl

end LinearOrder

namespace Track

variable {t : Track}

/-- A use of the register by the instruction at a position. -/
def UsedAt (p : Position) (u : UsePoint) : Prop :=
  (u.position = p ∧ u.access = .read) ∨ (u.position = p + 1 ∧ u.access = .write)

/-- Every death is at an instruction that uses the register. -/
def DiesInUse (t : Track) : Prop := ∀ p ∈ t.deaths, ∃ u ∈ t.uses, UsedAt p u

namespace DiesInUse

/-- An instruction that uses the register may be where it dies. -/
theorem use (h : t.DiesInUse) {t' : Track} {p : Position} {u : UsePoint} (hu : UsedAt p u)
    (huses : t'.uses = Interval.insertUse u t.uses)
    (hdeaths : t'.deaths = if t.live then t.deaths else p :: t.deaths) : t'.DiesInUse := by
  have hold : ∀ q ∈ t.deaths, ∃ u ∈ t'.uses, UsedAt q u := by
    intro q hq
    obtain ⟨v, hv, hat⟩ := h q hq
    exact ⟨v, huses ▸ mem_insertBefore.2 (.inr hv), hat⟩
  intro q hq
  rw [hdeaths] at hq
  split at hq
  · exact hold q hq
  · rcases List.mem_cons.1 hq with rfl | hq
    · exact ⟨u, huses ▸ mem_insertBefore.2 (.inl rfl), hu⟩
    · exact hold q hq

theorem instruction (h : t.DiesInUse) (r : VReg) (first p : Position) (i : Instruction) :
    (t.instruction r first p i).DiesInUse := by
  refine List.foldlRecOn (motive := DiesInUse) _ (Track.read first p) ?_ fun t ht u _ =>
    ht.use (u := ⟨p, u.policy, .read⟩) (.inl ⟨rfl, rfl⟩) rfl rfl
  exact List.foldlRecOn (motive := DiesInUse) _ (Track.write p) h fun t ht d _ =>
    ht.use (u := ⟨p + 1, d.policy, .write⟩) (.inr ⟨rfl, rfl⟩) rfl rfl

theorem code (h : t.DiesInUse) (r : VReg) (first : Position) : ∀ (body : List Instruction)
    (p : Position), (t.code r first p body).DiesInUse
  | [], _ => h
  | i :: rest, p => (code h r first rest (p + stride)).instruction r first p i

theorem extend_if (h : t.DiesInUse) (c : Prop) [Decidable c] (start stop : Position) :
    (if c then t.extend start stop else t).DiesInUse := by
  split
  · exact h
  · exact h

theorem block (h : t.DiesInUse) (order : LinearOrder) (r : VReg) (span : Span) (out : Bool) :
    (t.block order r span out).DiesInUse := by
  have hopened : ({ t with live := out } : Track).DiesInUse := h
  rw [Track.block]
  split
  · exact ((hopened.extend_if _ _ _).code r _ _ _).extend_if _ _ _
  · exact (hopened.extend_if _ _ _).code r _ _ _

end DiesInUse

end Track

namespace LinearOrder

variable {order : LinearOrder} {regClass : Option String} {s : Pass}

theorem diesInUse_scanSpans (order : LinearOrder) (r : VReg) :
    ∀ spans : List Span, (order.scanSpans r spans).track.DiesInUse
  | [] => by simp [scanSpans, Track.DiesInUse]
  | span :: later => (diesInUse_scanSpans order r later).block order r span _

/-- A value dies where an instruction stands. -/
theorem exists_stands_of_mem_deaths {r : VReg} {p : Position}
    (hp : p ∈ (order.scan r).track.deaths) : ∃ i, order.Stands p i := by
  obtain ⟨u, hu, hat⟩ := diesInUse_scanSpans order r order.spans p hp
  obtain ⟨q, i, hstands, hused⟩ := (mem_uses_scan order r u).1 hu
  have hq : p = q := by
    rcases hused with ⟨d, -, -, rfl⟩ | ⟨use, -, -, rfl⟩
    · rcases hat with ⟨-, haccess⟩ | ⟨hposition, -⟩
      · cases haccess
      · dsimp only at hposition
        lia
    · rcases hat with ⟨hposition, -⟩ | ⟨-, haccess⟩
      · exact hposition.symm
      · cases haccess
  exact ⟨i, hq ▸ hstands⟩

/-- The slots stand at consecutive even positions. -/
theorem positions_slots (h : order.Regular) : order.slots.map (·.position) =
    (List.range order.slots.length).map fun k : Nat => (k : Int) * stride := by
  refine List.ext_getElem (by simp) fun k hk _ => ?_
  have hk : k < order.slots.length := by simpa using hk
  have hslot : order.slotAt? ((k : Int) * stride) = some order.slots[k] := by
    have hindex : ((k : Int) * stride / stride).toNat = k := by lia
    rw [slotAt?, if_neg (by lia), hindex, List.getElem?_eq_getElem hk]
  have hposition := (h.slotAt _ _ hslot).1
  simp only [List.getElem_map, List.getElem_range]
  lia

/-- An instruction has a slot. -/
theorem mem_positions_of_stands (h : order.Regular) {p : Position} {i : Instruction}
    (hstands : order.Stands p i) : p ∈ order.slots.map (·.position) := by
  obtain ⟨span, hspan, k, hk, rfl⟩ := hstands
  obtain ⟨hlt, -⟩ := List.getElem?_eq_some_iff.1 hk
  have hstop := h.stop span hspan
  have heven := h.even_first span hspan
  obtain ⟨slot, hslot⟩ := Option.isSome_iff_exists.1
    (h.hasSlot span hspan (span.first + stride * k) (by lia) (by lia))
  have hposition := (h.slotAt _ _ hslot).1
  refine List.mem_map.2 ⟨slot, ?_, by lia⟩
  rw [slotAt?] at hslot
  split at hslot
  · cases hslot
  · exact List.mem_of_getElem? hslot

/-- The deaths that the scans find, grouped by position. -/
theorem grouped_killsOf (h : order.Regular) (hs : Pass.Scanned order regClass order.spans s) :
    DeathsGrouped s.kills (order.killsOf (order.scans regClass)) := by
  -- a position has an entry if something dies there
  have hmem : ∀ p rs, (p, rs) ∈ order.killsOf (order.scans regClass) ↔
      p ∈ order.slots.map (·.position) ∧ rs ≠ [] ∧
        rs = (order.occurring regClass).filter fun r => p ∈ (order.scan r).track.deaths := by
    intro p rs
    simp only [killsOf, List.mem_filter, List.mem_map, selectScanned_scans, Prod.mk.injEq,
      Bool.not_eq_true', List.isEmpty_eq_false_iff]
    grind
  refine ⟨?_, ?_, ?_, fun p r => ?_⟩
  -- the positions of the slots are ascending
  · have hsorted : (order.slots.map (·.position)).Pairwise (· < ·) := by
      rw [positions_slots h]
      exact List.pairwise_map.2 (List.pairwise_lt_range.imp fun hlt => by lia)
    refine hsorted.sublist ?_
    have hsub := (List.filter_sublist (p := fun entry : Position × List VReg => !entry.2.isEmpty)
      (l := order.slots.map fun slot => (slot.position, selectScanned (order.scans regClass)
        (slot.position ∈ ·.track.deaths)))).map (·.1)
    rw [List.map_map] at hsub
    exact hsub
  · rintro ⟨p, rs⟩ hentry
    rw [((hmem p rs).1 hentry).2.2]
    exact (order.pairwise_occurring regClass).filter _
  · rintro ⟨p, rs⟩ hentry
    exact ((hmem p rs).1 hentry).2.1
  · rw [hs.follows.kills]
    constructor
    · rintro ⟨hr, hdies⟩
      -- a death is at an instruction, so it is at a slot
      obtain ⟨i, hstands⟩ := exists_stands_of_mem_deaths hdies
      have hdying : r ∈ (order.occurring regClass).filter fun r =>
          p ∈ (order.scan r).track.deaths := List.mem_filter.2 ⟨hr, decide_eq_true hdies⟩
      exact ⟨_, (hmem p _).2 ⟨mem_positions_of_stands h hstands, List.ne_nil_of_mem hdying, rfl⟩,
        hdying⟩
    · rintro ⟨rs, hrs, hr⟩
      rw [((hmem p rs).1 hrs).2.2, List.mem_filter, decide_eq_true_eq] at hr
      exact hr

/-! ## The analysis -/

/-- The analysis of a linear order returns, and finds what the scans of its registers find. -/
theorem analyze_eq (h : order.Regular) (hindexed : order.graph.Indexed)
    (regClass : Option String) : order.analyze regClass = .ok (order.analyzeEach regClass) := by
  obtain ⟨s, hpass, hs⟩ := exists_pass h hindexed regClass
  refine bind_eq_ok.2 ⟨s, hpass, ?_⟩
  have hkills : groupKills s.kills = order.killsOf (order.scans regClass) :=
    (grouped_groupKills s.kills).unique (grouped_killsOf h hs)
  dsimp only
  rw [spread_liveIn h hs, errors_eq hs, entryErrors_eq h, lives_eq hs, hkills,
    unusedWarnings_eq hs, analyzeEach]
  exact (apply_ite Except.ok ..).symm

end LinearOrder

end RegAlloc
