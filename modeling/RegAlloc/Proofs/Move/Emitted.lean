import RegAlloc.Proofs.Move.Parallel

/-!
# What a sequence of moves consists of

Putting parallel moves in order emits each of them once, with its register and its target,
and besides only moves that save a value in the scratch location, no register twice. What is
saved is read again later. So if different registers move, no two moves of the sequence bring
the same register to the same location, and none of them can stand in for another.

- `Move.delivery` — what a move is for: a register and where it goes;
- `Sequenced.made`, `Sequenced.saved` — the moves that are made, and those that save;
- `Sequenced.nodup_deliveries` — no delivery is emitted twice;
- `Sequenced.read_of_save` — what is saved is read later.
-/

namespace RegAlloc

namespace Move

variable {scratch : Location} {pending out : List Move}

/-- What a move is for: a register, and where it goes. -/
def delivery (m : Move) : VReg × Location := (m.register, m.target)

namespace Sequenced

/-- Apart from saves, the moves in order deliver what the parallel ones do. -/
theorem made (h : Sequenced scratch pending out) (hscratch : scratch ∉ pending.map (·.target)) :
    ((out.filter (·.target != scratch)).map delivery).Perm (pending.map delivery) := by
  induction h with
  | done => exact .refl _
  | @make pending others out m hperm _ _ ih =>
    rw [(hperm.map (·.target)).mem_iff, List.map_cons, List.mem_cons, not_or] at hscratch
    have hmade : (m.target != scratch) = true := by simpa using Ne.symm hscratch.1
    rw [List.filter_cons, if_pos hmade, List.map_cons]
    exact ((ih hscratch.2).cons _).trans (hperm.map delivery).symm
  | @save pending rest others out reader hperm _ hredirected _ ih =>
    have htargets := targets_redirected hperm hredirected
    rw [List.filter_cons_of_neg (by simp)]
    -- redirecting a reader changes only what it reads
    calc ((out.filter (·.target != scratch)).map delivery).Perm
          (rest.map delivery) := ih fun hs => hscratch (htargets.mem_iff.1 hs)
      _ |>.Perm (({ reader with source := scratch } :: others).map delivery) :=
          hredirected.map delivery
      _ |>.Perm (pending.map delivery) := (hperm.map delivery).symm

/-- Each save is of a register whose move does not read the scratch location yet. -/
theorem saved (h : Sequenced scratch pending out) (hnodup : (pending.map (·.target)).Nodup)
    (hscratch : scratch ∉ pending.map (·.target)) :
    ((out.filter (·.target == scratch)).map (·.register)).Subperm
      ((pending.filter (·.source != scratch)).map (·.register)) := by
  induction h with
  | done => exact .refl _
  | @make pending others out m hperm _ _ ih =>
    have htargets := hperm.map (·.target)
    rw [htargets.nodup_iff, List.map_cons, List.nodup_cons] at hnodup
    rw [htargets.mem_iff, List.map_cons, List.mem_cons, not_or] at hscratch
    have hmade : ¬ (m.target == scratch) = true := by simpa using Ne.symm hscratch.1
    rw [List.filter_cons, if_neg hmade]
    -- a move that is made saves nothing
    have hothers : (others.filter (·.source != scratch)).Sublist
        ((m :: others).filter (·.source != scratch)) := (List.sublist_cons_self m others).filter _
    exact (ih hnodup.2 hscratch.2).trans
      ((hothers.map _).subperm.trans ((hperm.filter _).map _).symm.subperm)
  | @save pending rest others out reader hperm hblocked hredirected _ ih =>
    have htargets := targets_redirected hperm hredirected
    -- the value that is saved comes from where it still is, not from the scratch location
    have hreader : (reader.source != scratch) = true := by
      simpa using source_ne_of_blocked hnodup hscratch hblocked reader (hperm.mem_iff.2 (by simp))
    have hsaved := ih (htargets.nodup_iff.2 hnodup) fun hs => hscratch (htargets.mem_iff.1 hs)
    have hrest := (hredirected.filter (·.source != scratch)).map (·.register)
    have hpending := (hperm.filter (·.source != scratch)).map (·.register)
    rw [List.filter_cons_of_neg (by simp)] at hrest
    rw [List.filter_cons, if_pos hreader] at hpending
    rw [List.filter_cons_of_pos (by simp), List.map_cons]
    exact ((List.subperm_cons _).2 (hsaved.trans hrest.subperm)).trans hpending.symm.subperm

/-- If different registers move to different targets, no delivery is emitted twice. -/
theorem nodup_deliveries (h : Sequenced scratch pending out)
    (hnodup : (pending.map (·.target)).Nodup) (hscratch : scratch ∉ pending.map (·.target))
    (hregisters : (pending.map (·.register)).Nodup) : (out.map delivery).Nodup := by
  have hmade : ((out.filter (·.target != scratch)).map delivery).Nodup := by
    refine (h.made hscratch).nodup_iff.2 (List.Nodup.of_map Prod.fst ?_)
    rw [List.map_map]
    exact hregisters
  have hsaved : ((out.filter (·.target == scratch)).map delivery).Nodup := by
    refine List.Nodup.of_map Prod.fst ?_
    obtain ⟨l, hperm, hsub⟩ := h.saved hnodup hscratch
    rw [List.map_map]
    exact hperm.nodup_iff.1 (hregisters.sublist (hsub.trans (List.filter_sublist.map _)))
  have hperm := (List.filter_append_perm (·.target != scratch) out).symm.map delivery
  simp only [bne, Bool.not_not] at hperm hmade
  rw [hperm.nodup_iff, List.map_append]
  -- a value goes to its target or to the scratch location, never to both in one move
  refine hmade.append hsaved fun d hd hd' => ?_
  obtain ⟨m, hm, rfl⟩ := List.mem_map.1 hd
  obtain ⟨x, hx, heq⟩ := List.mem_map.1 hd'
  have htarget : x.target = m.target := congrArg Prod.snd heq
  simp only [List.mem_filter, beq_iff_eq, Bool.not_eq_true', beq_eq_false_iff_ne] at hm hx
  exact hm.2 (htarget ▸ hx.2)

/-- What is saved in the scratch location is read there by a later move. -/
theorem read_of_save (h : Sequenced scratch pending out)
    (hscratch : scratch ∉ pending.map (·.target)) :
    ∀ {before behind : List Move} {m : Move}, out = before ++ m :: behind → m.target = scratch →
      ∃ x ∈ behind, x.register = m.register ∧ x.source = scratch := by
  induction h with
  | done =>
    intro before behind m hsplit
    simp at hsplit
  | @make pending others out made hperm _ _ ih =>
    rw [(hperm.map (·.target)).mem_iff, List.map_cons, List.mem_cons, not_or] at hscratch
    intro before behind m hsplit hsave
    cases before with
    -- a move that is made does not lead to the scratch location
    | nil =>
      cases hsplit
      exact absurd hsave.symm hscratch.1
    | cons first before =>
      cases hsplit
      exact ih hscratch.2 rfl hsave
  | @save pending rest others out reader hperm _ hredirected hrest ih =>
    intro before behind m hsplit hsave
    cases before with
    | nil =>
      -- the reader that was redirected reads what was saved
      cases hsplit
      exact hrest.exists_mem { reader with source := scratch } (hredirected.mem_iff.2 (by simp))
    | cons first before =>
      cases hsplit
      have htargets := targets_redirected hperm hredirected
      exact ih (fun hs => hscratch (htargets.mem_iff.1 hs)) rfl hsave

end Sequenced

end Move

end RegAlloc
