import Mathlib.Data.List.Chain
import Mathlib.Dynamics.PeriodicPts.Lemmas
import RegAlloc.Proofs.Move.Emitted

/-!
# One save for each cycle

When no move can be made, every location that is written is read once and every location that
is read is written: what is left are cycles, with nothing hanging off them. Saving the value of
one location opens the cycle that it is on and no other, and all of that cycle is made before
moves are blocked again. So the values that are saved are one of each cycle.

- `Move.Feeds`, `Move.IsCycle` — the cycles of parallel moves;
- `IsCycle.eq_of_mem` — no location is on two cycles;
- `exists_isCycle_of_blocked` — blocked moves are on cycles;
- `isCycle_make_iff`, `isCycle_save_iff` — what a step does to the cycles;
- `Sequenced.saves` — the values that are saved;
- `saves_one_per_cycle` — what a sequence of moves consists of.
-/

namespace RegAlloc

namespace Move

/-! ## Walking around a cycle -/

section Cycle

variable {α : Type} {r : α → α → Prop} {c : Cycle α} {a b : α}

/-- A cycle can be entered anywhere. -/
theorem exists_cons_of_mem_cycle (ha : a ∈ c) : ∃ l : List α, c = ↑(a :: l) := by
  induction c using Quotient.inductionOn' with
  | _ l =>
    obtain ⟨front, behind, rfl⟩ := List.append_of_mem (show a ∈ l from ha)
    exact ⟨behind ++ front, Cycle.coe_eq_coe.2 List.isRotated_append⟩

theorem exists_next_of_chain (h : c.Chain r) (ha : a ∈ c) : ∃ b ∈ c, r a b := by
  obtain ⟨l, rfl⟩ := exists_cons_of_mem_cycle ha
  rw [Cycle.chain_coe_cons] at h
  cases l with
  | nil => exact ⟨a, by simp, by simpa using h⟩
  | cons b l => exact ⟨b, by simp, (List.isChain_cons_cons.1 h).1⟩

theorem exists_previous_of_chain (h : c.Chain r) (hb : b ∈ c) : ∃ a ∈ c, r a b := by
  obtain ⟨l, rfl⟩ := exists_cons_of_mem_cycle hb
  rw [Cycle.chain_coe_cons, ← List.cons_append, List.isChain_append] at h
  have hlast := List.getLast?_eq_some_getLast (List.cons_ne_nil b l)
  exact ⟨_, List.getLast_mem _, h.2.2 _ hlast b rfl⟩

theorem chain_imp_of_mem {s : α → α → Prop} (h : c.Chain r)
    (hrs : ∀ a ∈ c, ∀ b ∈ c, r a b → s a b) : c.Chain s := by
  induction c using Cycle.induction_on with
  | nil => exact Cycle.Chain.nil s
  | cons a l =>
    rw [Cycle.chain_coe_cons] at h ⊢
    have hmem : ∀ x ∈ a :: (l ++ [a]), x ∈ (↑(a :: l) : Cycle α) := by
      intro x hx
      rw [Cycle.mem_coe_iff]
      grind
    exact h.imp_of_mem_imp fun x y hx hy => hrs x (hmem x hx) y (hmem y hy)

/-- A cycle on which each element decides the next is its orbit. -/
theorem eq_periodicOrbit {f : α → α} (hnodup : c.Nodup) (hchain : c.Chain fun a b => f a = b)
    (ha : a ∈ c) : c = Function.periodicOrbit f a := by
  obtain ⟨l, rfl⟩ := exists_cons_of_mem_cycle ha
  rw [Cycle.nodup_coe_iff] at hnodup
  rw [Cycle.chain_coe_cons, List.isChain_iff_getElem] at hchain
  -- going around the cycle is iterating the map
  have hiterate : ∀ i (hi : i < (a :: (l ++ [a])).length), (a :: (l ++ [a]))[i] = f^[i] a := by
    intro i
    induction i with
    | zero => exact fun _ => rfl
    | succ i ih =>
      intro hi
      rw [← hchain i hi, ih, Function.iterate_succ_apply']
  have hlist : a :: l = (List.range (l.length + 1)).map fun n => f^[n] a := by
    refine List.ext_getElem (by simp) fun i hi _ => ?_
    rw [List.getElem_map, List.getElem_range, ← hiterate i (by simp at hi ⊢; omega)]
    exact (List.getElem_append_left hi).symm
  have hperiodic : Function.IsPeriodicPt f (l.length + 1) a := by
    have hlast := hiterate (l.length + 1) (by simp)
    simpa [Function.IsPeriodicPt, Function.IsFixedPt] using hlast.symm
  have hperiod : Function.minimalPeriod f a = l.length + 1 := by
    refine le_antisymm (hperiodic.minimalPeriod_le (by omega)) (Nat.le_of_not_lt fun hlt => ?_)
    have hpos := hperiodic.minimalPeriod_pos (by omega)
    rw [hlist, List.nodup_map_iff_inj_on List.nodup_range] at hnodup
    -- otherwise the cycle would come back to its first element too soon
    have hzero := hnodup _ (List.mem_range.2 hlt) 0 (by simp) Function.iterate_minimalPeriod
    omega
  rw [Function.periodicOrbit_def, hperiod, ← hlist]

end Cycle

/-! ## Cycles of moves -/

variable {moves pending others rest out : List Move} {scratch l l' : Location} {m reader : Move}

/-- Whether what one location is to hold is read from another. -/
def Feeds (moves : List Move) (target source : Location) : Prop :=
  ∃ m ∈ moves, m.target = target ∧ m.source = source

/-- A cycle of at least two locations, each to hold what the next one holds. -/
structure IsCycle (moves : List Move) (c : Cycle Location) : Prop where
  nodup : c.Nodup
  nontrivial : c.Nontrivial
  feeds : c.Chain (Feeds moves)

/-- Where a location is fed from, itself if no move leads to it. -/
def feedOf (moves : List Move) (l : Location) : Location :=
  ((moves.find? (·.target == l)).map (·.source)).getD l

theorem feedOf_target (hnodup : (moves.map (·.target)).Nodup) (hm : m ∈ moves) :
    feedOf moves m.target = m.source := by
  obtain ⟨x, hx⟩ : ∃ x, moves.find? (·.target == m.target) = some x :=
    Option.isSome_iff_exists.1 (List.find?_isSome.2 ⟨m, hm, by simp⟩)
  have htarget : x.target = m.target := by simpa using List.find?_some hx
  have hsame := List.inj_on_of_nodup_map hnodup (List.mem_of_find?_eq_some hx) hm htarget
  rw [feedOf, hx, hsame]
  rfl

theorem feedOf_eq_of_feeds (hnodup : (moves.map (·.target)).Nodup) (h : Feeds moves l l') :
    feedOf moves l = l' := by
  obtain ⟨m, hm, rfl, rfl⟩ := h
  exact feedOf_target hnodup hm

/-- What decides whether a cycle of some moves is one of others. -/
theorem IsCycle.of_feeds {c : Cycle Location} (h : IsCycle pending c)
    (hfeeds : ∀ l ∈ c, ∀ l' ∈ c, Feeds pending l l' → Feeds rest l l') : IsCycle rest c :=
  ⟨h.nodup, h.nontrivial, chain_imp_of_mem h.feeds hfeeds⟩

namespace IsCycle

variable {c c' : Cycle Location}

theorem exists_target (h : IsCycle moves c) (hl : l ∈ c) : ∃ m ∈ moves, m.target = l := by
  obtain ⟨_, -, m, hm, htarget, -⟩ := exists_next_of_chain h.feeds hl
  exact ⟨m, hm, htarget⟩

theorem exists_reader (h : IsCycle moves c) (hl : l ∈ c) :
    ∃ m ∈ moves, m.target ∈ c ∧ m.source = l := by
  obtain ⟨_, hmem, m, hm, rfl, hsource⟩ := exists_previous_of_chain h.feeds hl
  exact ⟨m, hm, hmem, hsource⟩

theorem eq_orbit (h : IsCycle moves c) (hnodup : (moves.map (·.target)).Nodup) (hl : l ∈ c) :
    c = Function.periodicOrbit (feedOf moves) l :=
  eq_periodicOrbit h.nodup (h.feeds.imp fun _ _ => feedOf_eq_of_feeds hnodup) hl

/-- No location is on two cycles. -/
theorem eq_of_mem (h : IsCycle moves c) (h' : IsCycle moves c')
    (hnodup : (moves.map (·.target)).Nodup) (hl : l ∈ c) (hl' : l ∈ c') : c = c' :=
  (h.eq_orbit hnodup hl).trans (h'.eq_orbit hnodup hl').symm

end IsCycle

/-- When all targets are read, whatever is read is on a cycle. -/
theorem exists_isCycle_of_blocked (hnodup : (pending.map (·.target)).Nodup)
    (hmoving : ∀ m ∈ pending, m.source ≠ m.target)
    (hblocked : ∀ m ∈ pending, ∃ x ∈ pending, x.source = m.target) (hm : m ∈ pending) :
    ∃ c, IsCycle pending c ∧ m.source ∈ c := by
  let targets : Set Location := {l | l ∈ pending.map (·.target)}
  have hperm := perm_of_blocked hnodup hblocked
  have hsource : ∀ m ∈ pending, m.source ∈ targets := fun m hm =>
    hperm.mem_iff.2 (List.mem_map_of_mem hm)
  -- whatever is read is also written, so the moves map their targets to targets
  have hmaps : Set.MapsTo (feedOf pending) targets targets := by
    intro l hl
    obtain ⟨x, hx, rfl⟩ := List.mem_map.1 hl
    rw [feedOf_target hnodup hx]
    exact hsource x hx
  have hinjective : Set.InjOn (feedOf pending) targets := by
    intro l hl l' hl' heq
    obtain ⟨x, hx, rfl⟩ := List.mem_map.1 hl
    obtain ⟨y, hy, rfl⟩ := List.mem_map.1 hl'
    rw [feedOf_target hnodup hx, feedOf_target hnodup hy] at heq
    rw [List.inj_on_of_nodup_map (hperm.nodup_iff.1 hnodup) hx hy heq]
  -- a one-to-one map of finitely many locations brings each of them back
  have hperiodic : m.source ∈ Function.periodicPts (feedOf pending) := by
    have : Finite targets := (List.finite_toSet (pending.map (·.target))).to_subtype
    obtain ⟨n, hn, hreturns⟩ := (hmaps.restrict_inj.2 hinjective).mem_periodicPts
      ⟨m.source, hsource m hm⟩
    rw [Function.IsPeriodicPt, Function.IsFixedPt, hmaps.iterate_restrict] at hreturns
    exact ⟨n, hn, congrArg Subtype.val hreturns⟩
  have hfeeds : ∀ n, Feeds pending ((feedOf pending)^[n] m.source)
      ((feedOf pending)^[n + 1] m.source) := by
    intro n
    obtain ⟨x, hx, heq⟩ := List.mem_map.1 (hmaps.iterate n (hsource m hm))
    rw [Function.iterate_succ_apply', ← heq, feedOf_target hnodup hx]
    exact ⟨x, hx, rfl, rfl⟩
  refine ⟨Function.periodicOrbit (feedOf pending) m.source,
    ⟨Function.nodup_periodicOrbit, ?_, (Function.periodicOrbit_chain' _ hperiodic).2 hfeeds⟩,
    Function.self_mem_periodicOrbit hperiodic⟩
  -- a cycle of one location would be a move that stays
  rw [Function.nodup_periodicOrbit.nontrivial_iff, Cycle.length_subsingleton_iff,
    Function.periodicOrbit_length]
  intro hle
  have hpos := Function.minimalPeriod_pos_of_mem_periodicPts hperiodic
  have hfixed := Function.minimalPeriod_eq_one_iff_isFixedPt.1 (Nat.le_antisymm hle hpos)
  obtain ⟨x, hx, htarget, hsource⟩ := hfeeds 0
  exact hmoving x hx (hsource.trans (hfixed.trans htarget.symm))

/-! ## What a step does to the cycles -/

/-- A move whose target nobody else reads is on no cycle. -/
theorem isCycle_make_iff (hperm : pending.Perm (m :: others)) (hmoves : m.source ≠ m.target)
    (hunread : ∀ x ∈ others, x.source ≠ m.target) {c : Cycle Location} :
    IsCycle pending c ↔ IsCycle others c := by
  constructor
  · intro h
    -- nobody reads what `m` writes, so it is on no cycle
    have hleft : m.target ∉ c := by
      intro hmem
      obtain ⟨x, hx, -, hsource⟩ := h.exists_reader hmem
      rcases List.mem_cons.1 (hperm.mem_iff.1 hx) with rfl | hx
      · exact hmoves hsource
      · exact hunread x hx hsource
    refine h.of_feeds fun l hl l' _ hfeeds => ?_
    obtain ⟨x, hx, rfl, rfl⟩ := hfeeds
    rcases List.mem_cons.1 (hperm.mem_iff.1 hx) with rfl | hx
    · exact absurd hl hleft
    · exact ⟨x, hx, rfl, rfl⟩
  · intro h
    refine h.of_feeds fun l _ l' _ hfeeds => ?_
    obtain ⟨x, hx, rfl, rfl⟩ := hfeeds
    exact ⟨x, hperm.mem_iff.2 (List.mem_cons_of_mem _ hx), rfl, rfl⟩

/-- Redirecting a reader opens the cycle that it reads from, and no other one. -/
theorem isCycle_save_iff (hperm : pending.Perm (reader :: others))
    (hblocked : ∀ m ∈ pending, ∃ x ∈ pending, x.source = m.target)
    (hredirected : rest.Perm ({ reader with source := scratch } :: others))
    (hnodup : (pending.map (·.target)).Nodup) (hscratch : scratch ∉ pending.map (·.target))
    {c : Cycle Location} : IsCycle rest c ↔ IsCycle pending c ∧ reader.source ∉ c := by
  -- whoever is blocked has one reader, so nobody else reads what `reader` does
  have hsources : reader.source ∉ others.map (·.source) := by
    have hreaders := (hperm.map (·.source)).nodup_iff.1
      ((perm_of_blocked hnodup hblocked).nodup_iff.1 hnodup)
    exact (List.nodup_cons.1 hreaders).1
  constructor
  · intro h
    have hclear : scratch ∉ c := by
      intro hmem
      obtain ⟨x, hx, htarget⟩ := h.exists_target hmem
      exact hscratch ((Sequenced.targets_redirected hperm hredirected).mem_iff.1
        (List.mem_map.2 ⟨x, hx, htarget⟩))
    -- whoever still reads from the cycle is not the one that was redirected
    have hother : ∀ x ∈ rest, x.source ∈ c → x ∈ others := by
      intro x hx hmem
      rcases List.mem_cons.1 (hredirected.mem_iff.1 hx) with rfl | hx
      · exact absurd hmem hclear
      · exact hx
    refine ⟨h.of_feeds fun l _ l' hl' hfeeds => ?_, fun hmem => ?_⟩
    · obtain ⟨x, hx, rfl, rfl⟩ := hfeeds
      exact ⟨x, hperm.mem_iff.2 (List.mem_cons_of_mem _ (hother x hx hl')), rfl, rfl⟩
    · obtain ⟨x, hx, -, hsource⟩ := h.exists_reader hmem
      exact hsources (List.mem_map.2 ⟨x, hother x hx (hsource ▸ hmem), hsource⟩)
  · rintro ⟨h, hopen⟩
    refine h.of_feeds fun l _ l' hl' hfeeds => ?_
    obtain ⟨x, hx, rfl, rfl⟩ := hfeeds
    rcases List.mem_cons.1 (hperm.mem_iff.1 hx) with rfl | hx
    · exact absurd hl' hopen
    · exact ⟨x, hredirected.mem_iff.2 (List.mem_cons_of_mem _ hx), rfl, rfl⟩

/-- The values that are saved come from the cycles, one from each. -/
theorem Sequenced.saves (h : Sequenced scratch pending out)
    (hnodup : (pending.map (·.target)).Nodup) (hscratch : scratch ∉ pending.map (·.target))
    (hmoving : ∀ m ∈ pending, m.source ≠ m.target) :
    ∃ cycles : List (Cycle Location), cycles.Nodup ∧ (∀ c, c ∈ cycles ↔ IsCycle pending c) ∧
      List.Forall₂ (fun save c => save.source ∈ c) (out.filter (·.target == scratch)) cycles := by
  induction h with
  -- without moves there is no cycle
  | done =>
    refine ⟨[], .nil, fun c => ⟨fun hc => by simp at hc, fun hc => ?_⟩, .nil⟩
    obtain ⟨l, _, -, hl, -⟩ := hc.nontrivial
    obtain ⟨m, hm, -⟩ := hc.exists_target hl
    simp at hm
  | @make pending others out m hperm hunread _ ih =>
    -- making a move that nobody waits for changes no cycle
    have htargets := hperm.map (·.target)
    rw [htargets.nodup_iff, List.map_cons, List.nodup_cons] at hnodup
    rw [htargets.mem_iff, List.map_cons, List.mem_cons, not_or] at hscratch
    obtain ⟨cycles, hdistinct, hcycles, hsaves⟩ := ih hnodup.2 hscratch.2 fun x hx =>
      hmoving x (hperm.mem_iff.2 (by simp [hx]))
    refine ⟨cycles, hdistinct, fun c => ?_, ?_⟩
    · rw [hcycles, isCycle_make_iff hperm (hmoving m (hperm.mem_iff.2 (by simp))) hunread]
    · rwa [List.filter_cons_of_neg (by simpa using Ne.symm hscratch.1)]
  | @save pending rest others out reader hperm hblocked hredirected _ ih =>
    have htargets := targets_redirected hperm hredirected
    have hreader : reader ∈ pending := hperm.mem_iff.2 (by simp)
    have hmoving' : ∀ m ∈ rest, m.source ≠ m.target := by
      intro m hm
      rcases List.mem_cons.1 (hredirected.mem_iff.1 hm) with rfl | hm
      · intro heq
        exact hscratch (List.mem_map.2 ⟨reader, hreader, heq.symm⟩)
      · exact hmoving m (hperm.mem_iff.2 (by simp [hm]))
    obtain ⟨cycles, hdistinct, hcycles, hsaves⟩ := ih (htargets.nodup_iff.2 hnodup)
      (fun hs => hscratch (htargets.mem_iff.1 hs)) hmoving'
    have hsave {c : Cycle Location} : IsCycle rest c ↔ IsCycle pending c ∧ reader.source ∉ c :=
      isCycle_save_iff hperm hblocked hredirected hnodup hscratch
    -- the reader that was saved is on a cycle, which is opened now
    obtain ⟨opened, hopened, hmem⟩ := exists_isCycle_of_blocked hnodup hmoving hblocked hreader
    refine ⟨opened :: cycles, List.nodup_cons.2 ⟨fun hc => ?_, hdistinct⟩, fun c => ?_, ?_⟩
    · exact (hsave.1 ((hcycles opened).1 hc)).2 hmem
    · rw [List.mem_cons, hcycles, hsave]
      constructor
      · rintro (rfl | ⟨hc, -⟩)
        · exact hopened
        · exact hc
      · intro hc
        -- the cycle through the reader is the only one that is lost
        by_cases hon : reader.source ∈ c
        · exact .inl (hc.eq_of_mem hopened hnodup hon hmem)
        · exact .inr ⟨hc, hon⟩
    · rw [List.filter_cons_of_pos (by simp)]
      exact .cons hmem hsaves

/-- Moves that stay in place are on no cycle. -/
theorem isCycle_moving_iff (hnodup : (moves.map (·.target)).Nodup) {c : Cycle Location} :
    IsCycle (moving moves) c ↔ IsCycle moves c := by
  constructor
  · intro h
    refine h.of_feeds fun l _ l' _ hfeeds => ?_
    obtain ⟨x, hx, rfl, rfl⟩ := hfeeds
    exact ⟨x, (mem_moving.1 hx).1, rfl, rfl⟩
  · intro h
    refine h.of_feeds fun l hl l' _ hfeeds => ?_
    obtain ⟨x, hx, rfl, rfl⟩ := hfeeds
    refine ⟨x, mem_moving.2 ⟨hx, fun hstays => ?_⟩, rfl, rfl⟩
    -- a move that stays would be a cycle of its own
    have hfixed : Function.IsFixedPt (feedOf moves) x.target :=
      (feedOf_target hnodup hx).trans hstays
    have hlength := Cycle.length_nontrivial h.nontrivial
    rw [h.eq_orbit hnodup hl, Function.periodicOrbit_length,
      Function.minimalPeriod_eq_one_iff_isFixedPt.2 hfixed] at hlength
    omega

end Move

/-- Moves to different targets, none of them the scratch location, are put in order by making
each of them that does not stay in place once, with its register and to its target, and by
saving one value in the scratch location for each cycle of at least two locations; nothing else
is done. The saves follow the cycles in a list of all of them, and each reads from its own. -/
theorem saves_one_per_cycle {moves : List Move} {scratch : Location}
    (hnodup : (moves.map (·.target)).Nodup) (hscratch : ∀ m ∈ moves, m.target ≠ scratch) :
    ∃ out, Move.sequence moves scratch = .ok out ∧
      ((out.filter (·.target != scratch)).map Move.delivery).Perm
        ((Move.moving moves).map Move.delivery) ∧
      ∃ cycles : List (Cycle Location), cycles.Nodup ∧
        (∀ c, c ∈ cycles ↔ Move.IsCycle moves c) ∧
        List.Forall₂ (fun save c => save.source ∈ c) (out.filter (·.target == scratch)) cycles := by
  obtain ⟨out, hout, hsequenced⟩ := Move.sequence_eq_ok hscratch
  have hmoving : ((Move.moving moves).map (·.target)).Nodup :=
    hnodup.sublist (List.filter_sublist.map _)
  have htargets : scratch ∉ (Move.moving moves).map (·.target) := by
    intro hs
    obtain ⟨m, hm, heq⟩ := List.mem_map.1 hs
    exact hscratch m (Move.mem_moving.1 hm).1 heq
  obtain ⟨cycles, hdistinct, hcycles, hsaves⟩ :=
    hsequenced.saves hmoving htargets fun m hm => (Move.mem_moving.1 hm).2
  refine ⟨out, hout, hsequenced.made htargets, cycles, hdistinct, fun c => ?_, hsaves⟩
  rw [hcycles, Move.isCycle_moving_iff hnodup]

/-- A ring of three registers with two readers beside it, one of them behind the other, an
exchange with memory, and a value that stays. -/
def ringAndExchange : List Move :=
  [⟨0, .register "r0", .register "r1"⟩, ⟨1, .register "r1", .register "r2"⟩,
    ⟨2, .register "r2", .register "r0"⟩, ⟨1, .register "r1", .register "r3"⟩,
    ⟨3, .register "r3", .slot 2⟩, ⟨4, .register "r4", .slot 0⟩, ⟨5, .slot 0, .register "r4"⟩,
    ⟨6, .register "r5", .register "r5"⟩]

/-- Two values are saved, one of the ring and one of the exchange. -/
theorem saves_one_per_cycle_ringAndExchange :
    (ringAndExchange.map (·.target)).Nodup ∧ (∀ m ∈ ringAndExchange, m.target ≠ .slot 1) ∧
      ∃ out, Move.sequence ringAndExchange (.slot 1) = .ok out ∧
        (out.filter (·.target == .slot 1)).map (·.source) = [.register "r1", .slot 0] ∧
        ∃ cycles : List (Cycle Location), cycles.Nodup ∧
          (∀ c, c ∈ cycles ↔ Move.IsCycle ringAndExchange c) ∧
          List.Forall₂ (fun save c => save.source ∈ c)
            (out.filter (·.target == .slot 1)) cycles := by
  obtain ⟨out, hout, -, hcycles⟩ :=
    @saves_one_per_cycle ringAndExchange (.slot 1) (by decide) (by decide)
  refine ⟨by decide, by decide, out, hout, ?_, hcycles⟩
  cases hout
  rfl

end RegAlloc
