import Mathlib.Algebra.GroupWithZero.Nat
import Mathlib.Data.List.Nodup
import Mathlib.Data.List.Perm.Subperm
import RegAlloc.Proofs.Ensures
import RegAlloc.Proofs.Execution

/-!
# Parallel moves in sequence

Moves that are meant to happen at once are made one by one: a move whose target nobody
still reads is made, and when there is none, one target is saved in the scratch location for
its reader. If no two moves lead to one location, then at that moment every location that
is read is a target as well, so nobody reads the scratch location yet.

- `Move.Sequenced` — the two things a step can do;
- `Move.sequence_eq_ok` — putting moves in order succeeds, and is a sequence of such steps;
- `Sequenced.transfers` — every target receives what the source of its move held;
- `Sequenced.finds`, `Sequenced.of_finds` — the moves find the values that they name exactly
  when the parallel ones do;
- `Move.exists_read_iff` — what is read, apart from the scratch location;
- `sequence_parallel` — moves to different targets have in order the effect that they have
  at once.
-/

namespace RegAlloc

open Allocation (runMoves runMoves_cons runMoves_of_ne)

namespace Move

variable {scratch : Location} {pending out : List Move}

/-- How moves that are meant to happen at once are put in order, step by step. -/
inductive Sequenced (scratch : Location) : List Move → List Move → Prop where
  | done : Sequenced scratch [] []
  /-- Make a move whose target no other one reads. -/
  | make {pending others out : List Move} {m : Move} (hperm : pending.Perm (m :: others))
      (hunread : ∀ x ∈ others, x.source ≠ m.target) (hrest : Sequenced scratch others out) :
      Sequenced scratch pending (m :: out)
  /-- When all targets are still to be read, save what one move reads. -/
  | save {pending rest others out : List Move} {reader : Move}
      (hperm : pending.Perm (reader :: others))
      (hblocked : ∀ m ∈ pending, ∃ x ∈ pending, x.source = m.target)
      (hredirected : rest.Perm ({ reader with source := scratch } :: others))
      (hrest : Sequenced scratch rest out) :
      Sequenced scratch pending (⟨reader.register, reader.source, scratch⟩ :: out)

/-! ## Steps -/

/-- The move that is picked is not in the way of the others. -/
theorem of_pickReady?_eq_some : ∀ {later earlier others : List Move} {m : Move},
    pickReady? earlier later = some (m, others) →
      (earlier ++ later).Perm (m :: others) ∧ ∀ x ∈ others, x.source ≠ m.target
  | first :: later, earlier, others, m, h => by
    rw [pickReady?] at h
    split at h
    · simpa using of_pickReady?_eq_some h
    · next hunread =>
      cases h
      refine ⟨List.perm_middle, fun x hx heq => hunread ?_⟩
      exact List.any_eq_true.2 ⟨x, hx, by simp [heq]⟩

/-- If none is picked, all targets are read. -/
theorem of_pickReady?_eq_none : ∀ {later earlier : List Move}, pickReady? earlier later = none →
    ∀ m ∈ later, ∃ x ∈ earlier ++ later, x.source = m.target
  | first :: later, earlier, h, m, hm => by
    rw [pickReady?] at h
    split at h
    · next hread =>
      rcases List.mem_cons.1 hm with rfl | hm
      · obtain ⟨x, hx, heq⟩ := List.any_eq_true.1 hread
        refine ⟨x, ?_, by simpa using heq⟩
        simp only [List.mem_append, List.mem_cons] at hx ⊢
        exact hx.imp_right .inr
      · obtain ⟨x, hx, heq⟩ := of_pickReady?_eq_none h m hm
        exact ⟨x, by simpa using hx, heq⟩
    · cases h

/-- A location that is read has a reader, which reads the scratch location instead. -/
theorem exists_redirect? (scratch : Location) {blocked : Location} : ∀ {moves : List Move},
    (∃ x ∈ moves, x.source = blocked) →
    ∃ reader redirected others, redirect? blocked scratch moves = some (reader, redirected) ∧
      reader.source = blocked ∧ moves.Perm (reader :: others) ∧
      redirected.Perm ({ reader with source := scratch } :: others)
  | m :: rest, h => by
    rw [redirect?]
    by_cases hm : m.source = blocked
    · exact ⟨m, _, rest, by simp [hm], hm, .refl _, .refl _⟩
    · obtain ⟨x, hx, hread⟩ := h
      obtain ⟨reader, redirected, others, hfound, hreader, hperm, hredirected⟩ :=
        exists_redirect? scratch
          ⟨x, (List.mem_cons.1 hx).resolve_left fun heq => hm (heq ▸ hread), hread⟩
      exact ⟨reader, m :: redirected, m :: others, by simp [hm, hfound], hreader,
        (hperm.cons m).trans (.swap ..), (hredirected.cons m).trans (.swap ..)⟩

/-- A bound on the number of steps: each move is made once, and saved at most once before. -/
def stepsLeft (scratch : Location) (pending : List Move) : Nat :=
  (pending.map fun m => if m.source = scratch then 1 else 2).sum

theorem stepsLeft_cons (scratch : Location) (m : Move) (pending : List Move) :
    stepsLeft scratch (m :: pending) =
      (if m.source = scratch then 1 else 2) + stepsLeft scratch pending := by
  simp [stepsLeft]

theorem stepsLeft_lt_cons (scratch : Location) (m : Move) (pending : List Move) :
    stepsLeft scratch pending < stepsLeft scratch (m :: pending) := by
  rw [stepsLeft_cons]
  split <;> omega

theorem stepsLeft_le (scratch : Location) (pending : List Move) :
    stepsLeft scratch pending ≤ 2 * pending.length := by
  induction pending with
  | nil => exact Nat.le_refl _
  | cons m pending ih =>
    rw [stepsLeft_cons, List.length_cons]
    split <;> omega

theorem stepsLeft_perm (scratch : Location) {l l' : List Move} (h : l.Perm l') :
    stepsLeft scratch l = stepsLeft scratch l' :=
  (h.map _).sum_nat

/-- With enough fuel, moves that do not lead to the scratch location are put in order. -/
theorem sequencePending_eq_ok : ∀ (fuel : Nat) (pending : List Move),
    (∀ m ∈ pending, m.target ≠ scratch) → stepsLeft scratch pending ≤ fuel →
    ∃ out, sequencePending scratch fuel pending = .ok out ∧ Sequenced scratch pending out
  | _, [], _, _ => ⟨[], by simp [sequencePending], .done⟩
  | 0, m :: rest, _, hfuel => by
    have := stepsLeft_lt_cons scratch m rest
    omega
  | fuel + 1, first :: rest, htargets, hfuel => by
    rw [sequencePending]
    cases hpick : pickReady? [] (first :: rest) with
    | some found =>
      obtain ⟨hperm, hunread⟩ := of_pickReady?_eq_some hpick
      rw [List.nil_append] at hperm
      rw [stepsLeft_perm scratch hperm] at hfuel
      have hlt := stepsLeft_lt_cons scratch found.1 found.2
      obtain ⟨out, hout, hsequenced⟩ := sequencePending_eq_ok fuel found.2
        (fun m hm => htargets m (hperm.mem_iff.2 (List.mem_cons_of_mem _ hm))) (by omega)
      exact ⟨found.1 :: out, by simp [hout, bind, Except.bind, pure, Except.pure],
        .make hperm hunread hsequenced⟩
    | none =>
      have hblocked := of_pickReady?_eq_none hpick
      rw [List.nil_append] at hblocked
      obtain ⟨reader, redirected, others, hfound, hreader, hperm, hredirected⟩ :=
        exists_redirect? scratch (hblocked first (by simp))
      have hsource : reader.source ≠ scratch := hreader ▸ htargets first (by simp)
      have htargets' : ∀ m ∈ redirected, m.target ≠ scratch := by
        intro m hm
        rcases List.mem_cons.1 (hredirected.mem_iff.1 hm) with rfl | hm
        · exact htargets reader (hperm.mem_iff.2 (by simp))
        · exact htargets m (hperm.mem_iff.2 (by simp [hm]))
      obtain ⟨out, hout, hsequenced⟩ := sequencePending_eq_ok fuel redirected htargets' (by
        rw [stepsLeft_perm scratch hperm, stepsLeft_cons, if_neg hsource] at hfuel
        rw [stepsLeft_perm scratch hredirected, stepsLeft_cons, if_pos rfl]
        omega)
      refine ⟨⟨reader.register, reader.source, scratch⟩ :: out, ?_,
        .save hperm hblocked hredirected hsequenced⟩
      simp [hfound, hout, hreader, bind, Except.bind, pure, Except.pure]

/-- The moves that do not stay in place. -/
def moving (moves : List Move) : List Move := moves.filter fun m => m.source != m.target

theorem mem_moving {moves : List Move} {m : Move} :
    m ∈ moving moves ↔ m ∈ moves ∧ m.source ≠ m.target := by
  simp [moving]

/-- Moves that stay in place do not count. -/
@[simp] theorem sequence_moving (moves : List Move) (scratch : Location) :
    sequence (moving moves) scratch = sequence moves scratch := by
  simp [sequence, moving, List.filter_filter]

/-- Moves that do not lead to the scratch location are put in order. -/
theorem sequence_eq_ok {moves : List Move} (h : ∀ m ∈ moves, m.target ≠ scratch) :
    ∃ out, sequence moves scratch = .ok out ∧ Sequenced scratch (moving moves) out :=
  sequencePending_eq_ok _ _ (fun m hm => h m (mem_moving.1 hm).1) (stepsLeft_le ..)

/-! ## Where moves lead -/

/-- When all targets of different moves are read, each is read once and nothing else is. -/
theorem perm_of_blocked (hnodup : (pending.map (·.target)).Nodup)
    (hblocked : ∀ m ∈ pending, ∃ x ∈ pending, x.source = m.target) :
    (pending.map (·.target)).Perm (pending.map (·.source)) := by
  have hsub : pending.map (·.target) ⊆ pending.map (·.source) := by
    intro l hl
    obtain ⟨m, hm, rfl⟩ := List.mem_map.1 hl
    obtain ⟨x, hx, heq⟩ := hblocked m hm
    exact List.mem_map.2 ⟨x, hx, heq⟩
  exact (hnodup.subperm hsub).perm_of_length_le (by simp)

/-- When all targets of different moves are read, everything that is read is a target. -/
theorem exists_target_of_blocked (hnodup : (pending.map (·.target)).Nodup)
    (hblocked : ∀ m ∈ pending, ∃ x ∈ pending, x.source = m.target) :
    ∀ x ∈ pending, ∃ m ∈ pending, m.target = x.source := by
  intro x hx
  exact List.mem_map.1
    ((perm_of_blocked hnodup hblocked).mem_iff.2 (List.mem_map_of_mem hx))

namespace Sequenced

/-- Targets stay away from the scratch location when a reader is redirected. -/
theorem targets_redirected {rest others : List Move} {reader : Move}
    (hperm : pending.Perm (reader :: others))
    (hredirected : rest.Perm ({ reader with source := scratch } :: others)) :
    (rest.map (·.target)).Perm (pending.map (·.target)) :=
  (hredirected.map (·.target)).trans (hperm.map (·.target)).symm

/-- The moves in order lead to where the parallel ones do, or to the scratch location. -/
theorem target_mem (h : Sequenced scratch pending out) :
    ∀ m ∈ out, m.target = scratch ∨ m.target ∈ pending.map (·.target) := by
  induction h with
  | done => simp
  | make hperm _ _ ih =>
    intro x hx
    rw [(hperm.map (·.target)).mem_iff, List.map_cons, List.mem_cons]
    rcases List.mem_cons.1 hx with rfl | hx
    · exact .inr (.inl rfl)
    · exact (ih x hx).imp_right .inr
  | save hperm _ hredirected _ ih =>
    intro x hx
    rcases List.mem_cons.1 hx with rfl | hx
    · exact .inl rfl
    · exact (ih x hx).imp_right (targets_redirected hperm hredirected).mem_iff.1

variable {V : Type} {store : Location → V} {tag : VReg → V}

/-- A location that is no target is left alone. -/
theorem untouched (h : Sequenced scratch pending out) {l : Location} (hscratch : l ≠ scratch)
    (htarget : l ∉ pending.map (·.target)) (store : Location → V) :
    runMoves store out l = store l := by
  refine runMoves_of_ne fun m hm heq => ?_
  rcases h.target_mem m hm with hs | ht
  · exact hscratch (heq ▸ hs)
  · exact htarget (heq ▸ ht)

/-- When a value has to be saved, nobody reads the scratch location: whatever is read is a
target. -/
theorem source_ne_of_blocked (hnodup : (pending.map (·.target)).Nodup)
    (hscratch : scratch ∉ pending.map (·.target))
    (hblocked : ∀ m ∈ pending, ∃ x ∈ pending, x.source = m.target) :
    ∀ m ∈ pending, m.source ≠ scratch := by
  rintro m hm rfl
  obtain ⟨x, hx, hread⟩ := exists_target_of_blocked hnodup hblocked m hm
  exact hscratch (hread ▸ List.mem_map_of_mem hx)

/-- If no two moves lead to one location, every target receives what the source of its move
held at the start. -/
theorem transfers (h : Sequenced scratch pending out) (hnodup : (pending.map (·.target)).Nodup)
    (hscratch : scratch ∉ pending.map (·.target)) (store : Location → V) :
    ∀ m ∈ pending, runMoves store out m.target = store m.source := by
  induction h generalizing store with
  | done => simp
  | @make pending others out m hperm hunread hrest ih =>
    have htargets := hperm.map (·.target)
    rw [htargets.nodup_iff, List.map_cons, List.nodup_cons] at hnodup
    rw [htargets.mem_iff, List.map_cons, List.mem_cons, not_or] at hscratch
    intro x hx
    rw [runMoves_cons]
    -- the move is made at once, and nothing later writes its target
    rcases List.mem_cons.1 (hperm.mem_iff.1 hx) with rfl | hx
    · rw [hrest.untouched (Ne.symm hscratch.1) hnodup.1, Function.update_self]
    · rw [ih hnodup.2 hscratch.2 _ x hx, Function.update_of_ne (hunread x hx)]
  | @save pending rest others out reader hperm hblocked hredirected hrest ih =>
    have htargets := targets_redirected hperm hredirected
    have hmoved := ih (htargets.nodup_iff.2 hnodup) (fun hs => hscratch (htargets.mem_iff.1 hs))
      (Function.update store scratch (store reader.source))
    intro m hm
    rw [runMoves_cons]
    -- the value that was saved is found in the scratch location
    rcases List.mem_cons.1 (hperm.mem_iff.1 hm) with rfl | hother
    · exact (hmoved { m with source := scratch } (hredirected.mem_iff.2 (by simp))).trans
        (Function.update_self ..)
    · rw [hmoved m (hredirected.mem_iff.2 (by simp [hother])),
        Function.update_of_ne (source_ne_of_blocked hnodup hscratch hblocked m hm)]

/-- If the sources hold the values of their registers and no two moves lead to one location,
every target receives the value that it is meant for. -/
theorem delivers (h : Sequenced scratch pending out) (hnodup : (pending.map (·.target)).Nodup)
    (hscratch : scratch ∉ pending.map (·.target))
    (htag : ∀ m ∈ pending, store m.source = tag m.register) :
    ∀ m ∈ pending, runMoves store out m.target = tag m.register :=
  fun m hm => (h.transfers hnodup hscratch store m hm).trans (htag m hm)

end Sequenced

/-! ## What moves find -/

/-- Moves of which each finds the value of the register that it names. -/
def Finds {V : Type} (tag : VReg → V) : (Location → V) → List Move → Prop
  | _, [] => True
  | store, m :: rest =>
    store m.source = tag m.register ∧
      Finds tag (Function.update store m.target (store m.source)) rest

namespace Sequenced

variable {V : Type} {store : Location → V} {tag : VReg → V}

/-- If the parallel moves find their values, so do the moves in order. -/
theorem finds (h : Sequenced scratch pending out) (hnodup : (pending.map (·.target)).Nodup)
    (hscratch : scratch ∉ pending.map (·.target))
    (htag : ∀ m ∈ pending, store m.source = tag m.register) : Finds tag store out := by
  induction h generalizing store with
  | done => trivial
  | @make pending others out m hperm hunread hrest ih =>
    have htargets := hperm.map (·.target)
    rw [htargets.nodup_iff, List.map_cons, List.nodup_cons] at hnodup
    rw [htargets.mem_iff, List.map_cons, List.mem_cons, not_or] at hscratch
    refine ⟨htag m (hperm.mem_iff.2 (by simp)), ih hnodup.2 hscratch.2 fun x hx => ?_⟩
    rw [Function.update_of_ne (hunread x hx)]
    exact htag x (hperm.mem_iff.2 (by simp [hx]))
  | @save pending rest others out reader hperm hblocked hredirected hrest ih =>
    have htargets := targets_redirected hperm hredirected
    refine ⟨htag reader (hperm.mem_iff.2 (by simp)), ih (htargets.nodup_iff.2 hnodup)
      (fun hs => hscratch (htargets.mem_iff.1 hs)) fun m hm => ?_⟩
    -- what was to be read can still be read, the saved value in the scratch location
    rcases List.mem_cons.1 (hredirected.mem_iff.1 hm) with rfl | hm
    · rw [Function.update_self]
      exact htag reader (hperm.mem_iff.2 (by simp))
    · have hmem : m ∈ pending := hperm.mem_iff.2 (by simp [hm])
      rw [Function.update_of_ne (source_ne_of_blocked hnodup hscratch hblocked m hmem)]
      exact htag m hmem

/-- If the moves in order find their values, so do the parallel ones: a location is never
written while somebody still has to read it. -/
theorem of_finds (h : Sequenced scratch pending out) (hfinds : Finds tag store out) :
    ∀ m ∈ pending, m.source ≠ scratch → store m.source = tag m.register := by
  induction h generalizing store with
  | done => simp
  | @make pending others out m hperm hunread _ ih =>
    intro x hx hsource
    rcases List.mem_cons.1 (hperm.mem_iff.1 hx) with rfl | hx
    · exact hfinds.1
    · have hfound := ih hfinds.2 x hx hsource
      rwa [Function.update_of_ne (hunread x hx)] at hfound
  | @save pending rest others out reader hperm _ hredirected _ ih =>
    intro x hx hsource
    rcases List.mem_cons.1 (hperm.mem_iff.1 hx) with rfl | hx
    · exact hfinds.1
    · have hfound := ih hfinds.2 x (hredirected.mem_iff.2 (by simp [hx])) hsource
      rwa [Function.update_of_ne hsource] at hfound

/-- What is read, apart from the scratch location, a parallel move reads. -/
theorem of_mem (h : Sequenced scratch pending out) : ∀ m ∈ out, m.source ≠ scratch →
    ∃ x ∈ pending, x.register = m.register ∧ x.source = m.source := by
  induction h with
  | done => simp
  | @make pending others out m hperm _ _ ih =>
    intro x hx hsource
    rcases List.mem_cons.1 hx with rfl | hx
    · exact ⟨x, hperm.mem_iff.2 (by simp), rfl, rfl⟩
    · obtain ⟨y, hy, heq⟩ := ih x hx hsource
      exact ⟨y, hperm.mem_iff.2 (by simp [hy]), heq⟩
  | @save pending rest others out reader hperm _ hredirected _ ih =>
    -- what is saved is read from where the reader was to read it
    intro x hx hsource
    rcases List.mem_cons.1 hx with rfl | hx
    · exact ⟨reader, hperm.mem_iff.2 (by simp), rfl, rfl⟩
    · obtain ⟨y, hy, heq⟩ := ih x hx hsource
      rcases List.mem_cons.1 (hredirected.mem_iff.1 hy) with rfl | hy
      · exact absurd heq.2.symm hsource
      · exact ⟨y, hperm.mem_iff.2 (by simp [hy]), heq⟩

/-- What a parallel move reads is read. -/
theorem exists_mem (h : Sequenced scratch pending out) : ∀ x ∈ pending,
    ∃ m ∈ out, m.register = x.register ∧ m.source = x.source := by
  induction h with
  | done => simp
  | @make pending others out m hperm _ _ ih =>
    intro x hx
    rcases List.mem_cons.1 (hperm.mem_iff.1 hx) with rfl | hx
    · exact ⟨x, by simp, rfl, rfl⟩
    · obtain ⟨y, hy, heq⟩ := ih x hx
      exact ⟨y, by simp [hy], heq⟩
  | @save pending rest others out reader hperm _ hredirected _ ih =>
    intro x hx
    rcases List.mem_cons.1 (hperm.mem_iff.1 hx) with rfl | hx
    · exact ⟨_, List.mem_cons_self, rfl, rfl⟩
    · obtain ⟨y, hy, heq⟩ := ih x (hredirected.mem_iff.2 (by simp [hx]))
      exact ⟨y, by simp [hy], heq⟩

/-- Every move that is made is of a register that is to be moved. -/
theorem register_mem (h : Sequenced scratch pending out) : ∀ m ∈ out,
    ∃ x ∈ pending, x.register = m.register := by
  induction h with
  | done => simp
  | @make pending others out m hperm _ _ ih =>
    intro y hy
    rcases List.mem_cons.1 hy with rfl | hy
    · exact ⟨y, hperm.mem_iff.2 (by simp), rfl⟩
    · obtain ⟨x, hx, heq⟩ := ih y hy
      exact ⟨x, hperm.mem_iff.2 (by simp [hx]), heq⟩
  | @save pending rest others out reader hperm _ hredirected _ ih =>
    intro y hy
    rcases List.mem_cons.1 hy with rfl | hy
    · exact ⟨reader, hperm.mem_iff.2 (by simp), rfl⟩
    · obtain ⟨x, hx, heq⟩ := ih y hy
      -- the redirected move is still that of the reader's register
      rcases List.mem_cons.1 (hredirected.mem_iff.1 hx) with rfl | hx
      · exact ⟨reader, hperm.mem_iff.2 (by simp), heq⟩
      · exact ⟨x, hperm.mem_iff.2 (by simp [hx]), heq⟩

end Sequenced

/-- Moves in order are of the registers that the parallel ones are of. -/
theorem exists_register_of_sequence {moves : List Move} (hout : sequence moves scratch = .ok out)
    (h : ∀ m ∈ moves, m.target ≠ scratch) {m : Move} (hm : m ∈ out) :
    ∃ x ∈ moves, x.register = m.register := by
  obtain ⟨_, hout', hsequenced⟩ := sequence_eq_ok h
  cases hout.symm.trans hout'
  obtain ⟨x, hx, heq⟩ := hsequenced.register_mem m hm
  exact ⟨x, (mem_moving.1 hx).1, heq⟩

/-- What the moves in order read for a register, apart from the scratch location, is what the
parallel ones read that do not stay in place. -/
theorem exists_read_iff {moves : List Move} (hout : sequence moves scratch = .ok out)
    (htargets : ∀ m ∈ moves, m.target ≠ scratch) {r : VReg} {l : Location} (hl : l ≠ scratch) :
    (∃ m ∈ out, m.register = r ∧ m.source = l) ↔
      ∃ x ∈ moves, x.register = r ∧ x.source = l ∧ x.target ≠ l := by
  obtain ⟨_, hout', hsequenced⟩ := sequence_eq_ok htargets
  cases hout.symm.trans hout'
  constructor
  · rintro ⟨m, hm, rfl, rfl⟩
    obtain ⟨x, hx, hregister, hsource⟩ := hsequenced.of_mem m hm hl
    obtain ⟨hx, hmoves⟩ := mem_moving.1 hx
    exact ⟨x, hx, hregister, hsource, fun heq => hmoves (hsource.trans heq.symm)⟩
  · rintro ⟨x, hx, rfl, rfl, hmoves⟩
    exact hsequenced.exists_mem x (mem_moving.2 ⟨hx, hmoves.symm⟩)

end Move

/-! ## The effect of a sequence -/

/-- Moves to different targets can be put in order, unless one leads to the scratch location,
and then have the effect that they have at once: every target receives what the source of its
move held, and all other locations but the scratch location keep what they hold. If each
source holds the value of the register of its move, each move in the order, also one that
saves, reads the value of the register that it names. -/
theorem sequence_parallel {moves : List Move} {scratch : Location}
    (hnodup : (moves.map (·.target)).Nodup) (hscratch : ∀ m ∈ moves, m.target ≠ scratch) :
    ∃ out, Move.sequence moves scratch = .ok out ∧ ∀ (V : Type) (store : Location → V),
      (∀ m ∈ moves, runMoves store out m.target = store m.source) ∧
      (∀ l, l ≠ scratch → l ∉ moves.map (·.target) → runMoves store out l = store l) ∧
      ∀ tag : VReg → V, (∀ m ∈ moves, store m.source = tag m.register) →
        Move.Finds tag store out := by
  obtain ⟨out, hout, hsequenced⟩ := Move.sequence_eq_ok hscratch
  -- only the moves that change something are put in order
  have hsub : ((Move.moving moves).map (·.target)).Sublist (moves.map (·.target)) :=
    List.filter_sublist.map _
  have htargets : scratch ∉ (Move.moving moves).map (·.target) := by
    intro hs
    obtain ⟨m, hm, heq⟩ := List.mem_map.1 (hsub.mem hs)
    exact hscratch m hm heq
  have hmoving : ((Move.moving moves).map (·.target)).Nodup := hnodup.sublist hsub
  refine ⟨out, hout, fun V store => ⟨fun m hm => ?_, fun l hl hother => ?_, fun tag htag => ?_⟩⟩
  · by_cases hmoves : m.source = m.target
    · -- no other move leads to where a value stays
      rw [hmoves]
      refine hsequenced.untouched (hscratch m hm) (fun htarget => ?_) store
      obtain ⟨x, hx, heq⟩ := List.mem_map.1 htarget
      obtain ⟨hx, hxmoves⟩ := Move.mem_moving.1 hx
      cases List.inj_on_of_nodup_map hnodup hx hm heq
      exact hxmoves hmoves
    · exact hsequenced.transfers hmoving htargets store m (Move.mem_moving.2 ⟨hm, hmoves⟩)
  · exact hsequenced.untouched hl (fun htarget => hother (hsub.mem htarget)) store
  · exact hsequenced.finds hmoving htargets fun m hm => htag m (Move.mem_moving.1 hm).1

/-- Two exchanges, one of them between a register and memory, a second reader of what is
exchanged, and a value that stays. -/
def exchanges : List Move :=
  [⟨0, .register "r0", .register "r1"⟩, ⟨1, .register "r1", .register "r0"⟩,
    ⟨2, .register "r2", .slot 0⟩, ⟨3, .slot 0, .register "r2"⟩,
    ⟨0, .register "r0", .register "r3"⟩, ⟨4, .register "r4", .register "r4"⟩]

/-- The exchanges have their effect, with both values saved in one place. -/
theorem sequence_parallel_exchanges :
    (exchanges.map (·.target)).Nodup ∧ (∀ m ∈ exchanges, m.target ≠ .slot 1) ∧
      ∃ out, Move.sequence exchanges (.slot 1) = .ok out ∧
        ∀ (V : Type) (store : Location → V),
          (∀ m ∈ exchanges, runMoves store out m.target = store m.source) ∧
          (∀ l, l ≠ .slot 1 → l ∉ exchanges.map (·.target) → runMoves store out l = store l) ∧
          ∀ tag : VReg → V, (∀ m ∈ exchanges, store m.source = tag m.register) →
            Move.Finds tag store out :=
  ⟨by decide, by decide, sequence_parallel (by decide) (by decide)⟩

end RegAlloc
