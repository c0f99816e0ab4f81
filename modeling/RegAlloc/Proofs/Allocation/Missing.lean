import RegAlloc.Edit
import RegAlloc.Proofs.Allocation.Edges
import RegAlloc.Proofs.Allocation.Freshness
import RegAlloc.Proofs.Allocation.Gaps
import RegAlloc.Proofs.Move.Emitted

/-!
# Missing moves are noticed

A replay finds in a location only what was there at the start or what a move has brought.
As a group of moves begins, no value that moves is at its target yet and the scratch location
holds nothing, and each delivery is made by one move only. So without one of the moves, a
value does not arrive, or one that was saved is not found again.

- `Contents.held_or_written`, `Contents.found_or_written` — where values in a replay come from;
- `Contents.Loses`, `Contents.loses_eraseIdx` — a replay in which some value does not arrive;
- `Allocation.Transfers` — what the moves of edges and gaps have in common;
- `Disjoint.edge_noticed`, `Disjoint.gap_noticed` — the checks of edges and gaps notice it;
- `missing_moves_noticed` — no move and no group of a successful allocation can be left out.
-/

namespace RegAlloc

/-! ## Replaying with a move left out -/

namespace Contents

variable {contents after : Contents} {scratch : Location} {pending out : List Move}

/-- What a location holds after a replay was there before, or some move has brought it. -/
theorem held_or_written {l : Location} {r : VReg} : ∀ {moves : List Move} {contents : Contents},
    contents.replay moves = .ok after → after.get? l = some r →
      contents.get? l = some r ∨ ∃ m ∈ moves, m.register = r ∧ m.target.text = l.text
  | [], contents, hreplay, hget => by
    cases hreplay
    exact .inl hget
  | m :: rest, contents, hreplay, hget => by
    rw [replay, List.foldlM_cons, bind_eq_ok] at hreplay
    obtain ⟨next, hmove, hrest⟩ := hreplay
    rcases held_or_written hrest hget with hheld | ⟨x, hx, hwritten⟩
    · rw [move] at hmove
      split at hmove
      · cases hmove
        rw [get?_put] at hheld
        split at hheld
        · next htext => exact .inr ⟨m, by simp, Option.some.inj hheld, htext.symm⟩
        · exact .inl hheld
      · cases hmove
    · exact .inr ⟨x, by simp [hx], hwritten⟩

/-- What a move of a replay finds was there before, or an earlier move has brought it. -/
theorem found_or_written {before behind : List Move} {m : Move}
    (hreplay : contents.replay (before ++ m :: behind) = .ok after) :
    contents.get? m.source = some m.register ∨
      ∃ x ∈ before, x.register = m.register ∧ x.target.text = m.source.text := by
  rw [replay, List.foldlM_append, bind_eq_ok] at hreplay
  obtain ⟨between, hbefore, hreplay⟩ := hreplay
  rw [List.foldlM_cons, bind_eq_ok] at hreplay
  obtain ⟨next, hmove, -⟩ := hreplay
  rw [move] at hmove
  split at hmove
  · next hfound => exact held_or_written hbefore hfound
  · cases hmove

/-- Moves that lose a value: if they can be replayed at all, some register of those that move
has not arrived. -/
def Loses (contents : Contents) (pending moves : List Move) : Prop :=
  ∀ after, contents.replay moves = .ok after → ∃ m ∈ pending, after.get? m.target ≠ some m.register

/-- Making no move loses every value that has to move. -/
theorem loses_nil (hne : pending ≠ [])
    (hunmade : ∀ m ∈ pending, contents.get? m.target ≠ some m.register) :
    contents.Loses pending [] := by
  intro after hreplay
  cases hreplay
  obtain ⟨m, hm⟩ := List.exists_mem_of_ne_nil _ hne
  exact ⟨m, hm, hunmade m hm⟩

/-- If different registers move, and none of them is at its target or in the scratch location
yet, then leaving out any move of the sequence loses a value. -/
theorem loses_eraseIdx {K : Location → Prop} (hK : ∀ l m, K l → K m → l.text = m.text → l = m)
    (hscratchK : K scratch) (htargetsK : ∀ m ∈ pending, K m.target)
    (h : Move.Sequenced scratch pending out) (hnodup : (pending.map (·.target)).Nodup)
    (hscratch : scratch ∉ pending.map (·.target)) (hregisters : (pending.map (·.register)).Nodup)
    (hunmade : ∀ m ∈ pending, contents.get? m.target ≠ some m.register)
    (hunsaved : ∀ r, contents.get? scratch ≠ some r) {n : Nat} (hn : n < out.length) :
    contents.Loses pending (out.eraseIdx n) := by
  intro after hreplay
  obtain ⟨before, lost, behind, hsplit, herase⟩ : ∃ before lost behind,
      out = before ++ lost :: behind ∧ out.eraseIdx n = before ++ behind :=
    ⟨out.take n, out[n], out.drop (n + 1), by simp, List.eraseIdx_eq_take_drop_succ ..⟩
  rw [herase] at hreplay
  -- every place that is written has a text of its own
  have hplace : ∀ m ∈ out, K m.target := by
    intro m hm
    rcases h.target_mem m hm with htarget | htarget
    · exact htarget ▸ hscratchK
    · obtain ⟨x, hx, heq⟩ := List.mem_map.1 htarget
      exact heq ▸ htargetsK x hx
  -- no other move brings the register there
  have honly : ∀ x ∈ before ++ behind, x.register = lost.register →
      x.target.text ≠ lost.target.text := by
    intro x hx hregister htext
    have hdeliveries := h.nodup_deliveries hnodup hscratch hregisters
    rw [hsplit, (List.perm_middle.map Move.delivery).nodup_iff, List.map_cons,
      List.nodup_cons] at hdeliveries
    have hxout : x ∈ out := hsplit ▸ (List.perm_middle.mem_iff.2 (List.mem_cons_of_mem _ hx))
    have htarget := hK _ _ (hplace x hxout) (hplace lost (by simp [hsplit])) htext
    exact hdeliveries.1 (List.mem_map.2 ⟨x, hx, Prod.ext hregister htarget⟩)
  by_cases hsave : lost.target = scratch
  · -- the value that was to be saved is not there when it is read
    obtain ⟨reader, hreader, hregister, hsource⟩ := h.read_of_save hscratch hsplit hsave
    obtain ⟨between, rest, rfl⟩ := List.append_of_mem hreader
    rw [← List.append_assoc] at hreplay
    rcases found_or_written hreplay with hfound | ⟨x, hx, hxregister, hxtext⟩
    · rw [hsource] at hfound
      exact absurd hfound (hunsaved _)
    · refine absurd hxtext ?_
      rw [hsource, ← hsave]
      refine honly x ?_ (hxregister.trans hregister)
      rw [← List.append_assoc]
      exact List.mem_append_left _ hx
  · -- the value does not arrive
    have hmade : lost.delivery ∈ (out.filter (·.target != scratch)).map Move.delivery :=
      List.mem_map_of_mem (List.mem_filter.2 ⟨by simp [hsplit], by simpa using hsave⟩)
    obtain ⟨m, hm, heq⟩ := List.mem_map.1 ((h.made hscratch).mem_iff.1 hmade)
    obtain ⟨hregister, htarget⟩ := Prod.ext_iff.1 heq
    change m.register = lost.register at hregister
    change m.target = lost.target at htarget
    refine ⟨m, hm, fun hget => ?_⟩
    -- the value was there before, or another move brings it
    rcases held_or_written hreplay hget with hheld | ⟨x, hx, hxregister, hxtext⟩
    · exact hunmade m hm hheld
    · exact honly x hx (hxregister.trans hregister) (htarget ▸ hxtext)

end Contents

/-! ## Moves of edges and gaps -/

variable {a : Allocation} {regClass : Option String} {span target : Span} {gap : Position}
  {resolution : Resolution}

namespace Allocation

/-- Parallel moves that start in a gap: each reads a value where it is as the gap begins, and
different registers move to different places. -/
structure Transfers (a : Allocation) (gap : Position) (moves : List Move) : Prop where
  odd : gap % stride = 1
  places : ∀ m ∈ moves, Place a.liveness.lives a.scratch m.target
  targets : ∀ m ∈ moves, m.target ≠ a.scratch
  nodup : ((Move.moving moves).map (·.target)).Nodup
  registers : (Move.moving moves).Pairwise fun m x => m.register ≠ x.register
  sources : ∀ m ∈ Move.moving moves, a.locateBefore? m.register gap = some m.source

namespace Disjoint

/-- As the moves begin, no value that moves is at its target. -/
theorem unmade (h : a.Disjoint regClass) {moves : List Move} (ht : a.Transfers gap moves) :
    ∀ m ∈ Move.moving moves,
      (contentsBefore a.liveness.lives gap).get? m.target ≠ some m.register := by
  intro m hm hget
  obtain ⟨hmem, hmoves⟩ := Move.mem_moving.1 hm
  rw [h.get?_contentsBefore ht.odd (ht.places m hmem), ht.sources m hm] at hget
  exact hmoves (Option.some.inj hget)

/-- As the moves of a gap begin, the scratch location holds no value. -/
theorem unsaved (h : a.Disjoint regClass) (hodd : gap % stride = 1) (r : VReg) :
    (contentsBefore a.liveness.lives gap).get? a.scratch ≠ some r := by
  intro hget
  rw [h.get?_contentsBefore hodd (.inl rfl), h.locateBefore?_eq_some] at hget
  obtain ⟨life, hlife, -, i, hi, hl⟩ := hget
  exact h.ne_scratch (h.mem_of_piece hlife ((h.laid life hlife).of_pieceBefore? hi).1) hl rfl

/-- Leaving out one of the moves loses a value. -/
theorem loses_eraseIdx (h : a.Disjoint regClass) {moves out : List Move}
    (ht : a.Transfers gap moves) (hout : Move.sequence moves a.scratch = .ok out) {n : Nat}
    (hn : n < out.length) :
    (contentsBefore a.liveness.lives gap).Loses (Move.moving moves) (out.eraseIdx n) := by
  obtain ⟨_, hout', hsequenced⟩ := Move.sequence_eq_ok ht.targets
  cases hout.symm.trans hout'
  refine Contents.loses_eraseIdx h.place_eq (.inl rfl)
    (fun m hm => ht.places m (Move.mem_moving.1 hm).1) hsequenced ht.nodup (fun hs => ?_)
    (List.pairwise_map.2 ht.registers) (h.unmade ht) (h.unsaved ht.odd) hn
  obtain ⟨m, hm, heq⟩ := List.mem_map.1 hs
  exact ht.targets m (Move.mem_moving.1 hm).1 heq

theorem transfers_edge (h : a.Disjoint regClass) (hspan : span ∈ a.order.spans)
    (htarget : target ∈ a.order.spans) :
    a.Transfers (span.last + 1) (a.edgeTransfers span target) where
  odd := h.regular.odd_exit hspan
  places m hm := (h.place_of_edgeTransfer m hm).1
  targets m hm := (h.place_of_edgeTransfer m hm).2
  nodup := h.nodup_edgeTransfers htarget
  registers := h.registers_edgeTransfers htarget
  sources _ hm := (mem_edgeTransfers.1 (Move.mem_moving.1 hm).1).2.1

theorem transfers_gap (h : a.Disjoint regClass)
    (hgaps : resolveGaps a.order a.liveness a.scratch = .ok a.resolution.gaps)
    (horderly : a.Orderly) (hodd : gap % stride = 1) :
    a.Transfers gap (a.gapTransfers gap) where
  odd := hodd
  places m hm := (within_gapTransfers m hm).2
  targets := h.target_ne_scratch
  nodup := h.nodup_gapTransfers horderly
  registers := h.registers_gapTransfers horderly
  sources m hm := by
    obtain ⟨hm, hmoves⟩ := Move.mem_moving.1 hm
    obtain ⟨life, i, j, hcross, hregister, hsource, htarget⟩ := mem_gapTransfers.1 hm
    obtain ⟨after, hreplay, -⟩ := h.replay_gapMoves hgaps horderly hodd
    rw [hregister, ← hsource]
    refine h.locateBefore?_of_replay hgaps hcross (fun heq => hmoves ?_) hreplay
    rw [hsource, htarget] at heq
    exact Option.some.inj heq

/-! ## What the check notices -/

/-- The check fails if the moves of an edge lose a value. -/
theorem edge_noticed (h : a.Disjoint regClass) (hspan : span ∈ a.order.spans)
    (htarget : target ∈ a.order.spans)
    (hedge : target.block ∈ a.order.graph.successors span.block)
    (hloses : (contentsBefore a.liveness.lives (span.last + 1)).Loses
      (Move.moving (a.edgeTransfers span target))
      ({ a with resolution }.edgeMoves span.block target.block)) :
    ∃ v, { a with resolution }.verify = .error v := by
  cases hverify : { a with resolution }.verify with
  | error v => exact ⟨v, rfl⟩
  | ok _ =>
    obtain ⟨after, hreplay, harrived⟩ := (checked_of_verify hverify).edges span hspan
      target.block hedge target (h.regular.span?_eq_some.2 ⟨htarget, rfl⟩)
    obtain ⟨m, hm, hlost⟩ := hloses after hreplay
    obtain ⟨hlive, hbefore, hlocate⟩ := mem_edgeTransfers.1 (Move.mem_moving.1 hm).1
    obtain ⟨life, hlife, hregister, i, hi, -⟩ := h.locateBefore?_eq_some.1 hbefore
    refine absurd (harrived m.register hlive life ?_ (by simp [hi]) m.target hlocate) hlost
    exact hregister ▸ h.life?_register hlife

/-- The check fails if the moves of a gap lose a value. -/
theorem gap_noticed (hne : Move.moving (a.gapTransfers gap) ≠ [])
    (hloses : (contentsBefore a.liveness.lives gap).Loses (Move.moving (a.gapTransfers gap))
      ({ a with resolution }.gapMoves gap)) :
    ∃ v, { a with resolution }.verify = .error v := by
  cases hverify : { a with resolution }.verify with
  | error v => exact ⟨v, rfl⟩
  | ok _ =>
    -- each value that is to move in the gap is checked when its crossing is
    have hbridge : ∀ m ∈ Move.moving (a.gapTransfers gap), ∃ after,
        (contentsBefore a.liveness.lives gap).replay ({ a with resolution }.gapMoves gap) =
            .ok after ∧ after.get? m.target = some m.register := by
      intro m hm
      obtain ⟨life, i, j, hcross, hregister, -, htarget⟩ :=
        mem_gapTransfers.1 (Move.mem_moving.1 hm).1
      obtain ⟨after, hreplay, harrived⟩ := (checked_of_verify hverify).bridges life hcross.mem i j
        hcross.neighbours hcross.touches gap hcross.splits
      exact ⟨after, hreplay, hregister ▸ harrived m.target htarget⟩
    obtain ⟨first, hfirst⟩ := List.exists_mem_of_ne_nil _ hne
    obtain ⟨after, hreplay, -⟩ := hbridge first hfirst
    obtain ⟨m, hm, hlost⟩ := hloses after hreplay
    obtain ⟨_, hreplay', harrived⟩ := hbridge m hm
    cases hreplay.symm.trans hreplay'
    exact absurd harrived hlost

end Disjoint

end Allocation

/-! ## Leaving moves out -/

section Only

variable {α : Type} {p : α → Bool} {l : List α} {n : Nat} {x : α}

/-- Of elements of which only one is looked for, none before it and none behind it is. -/
theorem not_of_pairwise (hl : l.Pairwise fun y z => p y = true → p z = false)
    (hx : l[n]? = some x) (hp : p x = true) :
    (∀ y ∈ l.take n, p y = false) ∧ ∀ z ∈ l.drop (n + 1), p z = false := by
  obtain ⟨hn, rfl⟩ := List.getElem?_eq_some_iff.1 hx
  rw [← List.take_append_drop n l, List.drop_eq_getElem_cons hn, List.pairwise_append,
    List.pairwise_cons] at hl
  obtain ⟨-, ⟨hbehind, -⟩, hbefore⟩ := hl
  refine ⟨fun y hy => ?_, fun z hz => hbehind z hz hp⟩
  rw [Bool.eq_false_iff]
  intro hpy
  rw [hbefore y hy _ List.mem_cons_self hpy] at hp
  cases hp

/-- The only element that is looked for is found when it has been changed. -/
theorem find?_modify (hl : l.Pairwise fun y z => p y = true → p z = false)
    (hx : l[n]? = some x) (hp : p x = true) {f : α → α} (hf : p (f x) = true) :
    (l.modify n f).find? p = some (f x) := by
  obtain ⟨hbefore, -⟩ := not_of_pairwise hl hx hp
  obtain ⟨hn, rfl⟩ := List.getElem?_eq_some_iff.1 hx
  have hnone : (l.take n).find? p = none :=
    List.find?_eq_none.2 fun y hy => by simp [hbefore y hy]
  rw [List.modify_eq_take_cons_drop hn, List.find?_append, hnone, Option.none_or,
    List.find?_cons_of_pos hf]

/-- The only element that is looked for is not found when it has been removed. -/
theorem find?_eraseIdx (hl : l.Pairwise fun y z => p y = true → p z = false)
    (hx : l[n]? = some x) (hp : p x = true) : (l.eraseIdx n).find? p = none := by
  obtain ⟨hbefore, hbehind⟩ := not_of_pairwise hl hx hp
  rw [List.eraseIdx_eq_take_drop_succ, List.find?_eq_none]
  intro y hy
  rcases List.mem_append.1 hy with hy | hy
  · simp [hbefore y hy]
  · simp [hbehind y hy]

end Only

/-- The moves of a group. -/
def Resolution.movesOf? (r : Resolution) : GroupKind → Nat → Option (List Move)
  | .edges, index => r.edges[index]?.map (·.moves)
  | .gaps, index => r.gaps[index]?.map (·.moves)

namespace Allocation.Disjoint

/-- No group of moves on an edge can be left out, and none of its moves. -/
theorem edges_needed (h : a.Disjoint regClass)
    (hedges : resolveEdges a.order a.liveness a.scratch = .ok a.resolution.edges) {index : Nat}
    {group : EdgeMoves} (hgroup : a.resolution.edges[index]? = some group) :
    (∃ v, (a.edit (.dropGroup .edges index)).verify = .error v) ∧
      ∀ n < group.moves.length, ∃ v, (a.edit (.dropMove .edges index n)).verify = .error v := by
  obtain ⟨span, hspan, b, hedge, hfound⟩ :=
    (Arranged.mem_edges hedges).1 (List.mem_of_getElem? hgroup)
  obtain ⟨target, htarget, rfl⟩ := h.regular.exists_span_target hedge
  obtain ⟨_, hfound', hmoves, hne⟩ := h.exists_edgeMoves? span htarget
  cases hfound.symm.trans hfound'
  have ht := h.transfers_edge hspan htarget
  obtain ⟨hsource, hends⟩ := Arranged.ends_of_edgeMoves? hfound
  -- no other group is for the same edge
  have honly : a.resolution.edges.Pairwise fun e f =>
      (e.source == (span.block : Ref) && e.target == (target.block : Ref)) = true →
        (f.source == (span.block : Ref) && f.target == (target.block : Ref)) = false := by
    refine (h.pairwise_edges hedges).imp fun {e f} hne he => ?_
    simp only [Bool.and_eq_true, beq_iff_eq] at he
    rw [Bool.eq_false_iff]
    intro hf
    simp only [Bool.and_eq_true, beq_iff_eq] at hf
    exact hne (he.1.trans hf.1.symm) (he.2.trans hf.2.symm)
  refine ⟨h.edge_noticed hspan htarget hedge ?_,
    fun n hn => h.edge_noticed hspan htarget hedge ?_⟩
  -- without the group nothing moves on the edge
  · have hnone : (a.edit (.dropGroup .edges index)).edgeMoves span.block target.block = [] := by
      show ((List.find? _ (a.resolution.edges.eraseIdx index)).map _).getD [] = []
      rw [find?_eraseIdx honly hgroup (by simp [hsource, hends])]
      rfl
    exact hnone ▸ Contents.loses_nil (hne group rfl) (h.unmade ht)
  -- without one of the moves the others are as before
  · have hrest : (a.edit (.dropMove .edges index n)).edgeMoves span.block target.block =
        group.moves.eraseIdx n := by
      show ((List.find? _ (a.resolution.edges.modify index _)).map _).getD [] = _
      rw [find?_modify honly hgroup (by simp [hsource, hends]) (by simp [hsource, hends])]
      rfl
    exact hrest ▸ h.loses_eraseIdx ht hmoves hn

/-- No group of moves in a gap can be left out, and none of its moves. -/
theorem gaps_needed (h : a.Disjoint regClass)
    (hgaps : resolveGaps a.order a.liveness a.scratch = .ok a.resolution.gaps)
    (horderly : a.Orderly) {index : Nat} {group : GapMoves}
    (hgroup : a.resolution.gaps[index]? = some group) :
    (∃ v, (a.edit (.dropGroup .gaps index)).verify = .error v) ∧
      ∀ n < group.moves.length, ∃ v, (a.edit (.dropMove .gaps index n)).verify = .error v := by
  obtain ⟨_, hgaps', hgroups, -⟩ := h.exists_resolveGaps
  cases hgaps.symm.trans hgaps'
  obtain ⟨hne, hmoves⟩ := hgroups group (List.mem_of_getElem? hgroup)
  have hodd : group.position % stride = 1 := by
    obtain ⟨m, hm⟩ := List.exists_mem_of_ne_nil _ hne
    obtain ⟨life, i, j, hcross, -⟩ := mem_gapTransfers.1 (Move.mem_moving.1 hm).1
    exact hcross.odd
  have ht := h.transfers_gap hgaps horderly hodd
  -- no other group is for the same gap
  have honly : a.resolution.gaps.Pairwise fun x y =>
      (x.position == group.position) = true → (y.position == group.position) = false := by
    refine (pairwise_gaps hgaps).imp fun {x y} hne hx => ?_
    rw [beq_iff_eq] at hx
    rw [beq_eq_false_iff_ne, ← hx]
    exact hne.symm
  refine ⟨gap_noticed hne ?_, fun n hn => gap_noticed hne ?_⟩
  -- without the group nothing moves in the gap
  · have hnone : (a.edit (.dropGroup .gaps index)).gapMoves group.position = [] := by
      show ((List.find? _ (a.resolution.gaps.eraseIdx index)).map _).getD [] = []
      rw [find?_eraseIdx honly hgroup (by simp)]
      rfl
    exact hnone ▸ Contents.loses_nil hne (h.unmade ht)
  -- without one of the moves the others are as before
  · have hrest : (a.edit (.dropMove .gaps index n)).gapMoves group.position =
        group.moves.eraseIdx n := by
      show ((List.find? _ (a.resolution.gaps.modify index _)).map _).getD [] = _
      rw [find?_modify honly hgroup (by simp) (by simp)]
      rfl
    exact hrest ▸ h.loses_eraseIdx ht hmoves hn

end Allocation.Disjoint

/-- The pieces of a successful allocation that was checked do not overlap, and its crossings
are orderly. -/
theorem Graph.disjoint_of_allocate {g : Graph} (hg : g.Built) {options : Options}
    (hverify : options.verify = true) (hnamed : Location.Named options.registers)
    {messages : Messages Issue} (h : g.allocate options = .ok (.success a messages)) :
    a.Disjoint options.regClass ∧ a.Orderly := by
  have harranged := arranged_of_allocate hg h
  obtain ⟨hgaps, -⟩ := resolution_of_allocate h
  obtain ⟨order, -, _, hallocate⟩ := of_allocate h
  obtain ⟨_, _, _, -, -, -, hchecked, rfl⟩ := LinearOrder.of_allocate hallocate
  have hdisjoint : Allocation.Disjoint _ options.regClass :=
    { harranged with
      apart := (Allocation.checked_of_verify (hchecked hverify)).apart
      named := hnamed }
  have hcheck := hchecked hverify
  simp only [Allocation.verify, bind_eq_ok] at hcheck
  obtain ⟨_, -, _, -, _, -, hcheck⟩ := hcheck
  exact ⟨hdisjoint, hdisjoint.orderly_of_checkGaps hgaps hcheck⟩

/-- Missing moves are noticed. If a successful allocation was checked, then without any one of
the moves of an edge or a gap, and without any group of them, the check fails. So none of its
moves is redundant. -/
theorem missing_moves_noticed {g : Graph} (hg : g.Built) {options : Options}
    (hverify : options.verify = true) (hnamed : Location.Named options.registers)
    {messages : Messages Issue} (h : g.allocate options = .ok (.success a messages))
    {kind : GroupKind} {index : Nat} {moves : List Move}
    (hmoves : a.resolution.movesOf? kind index = some moves) :
    (∃ v, (a.edit (.dropGroup kind index)).verify = .error v) ∧
      ∀ n < moves.length, ∃ v, (a.edit (.dropMove kind index n)).verify = .error v := by
  obtain ⟨hdisjoint, horderly⟩ := Graph.disjoint_of_allocate hg hverify hnamed h
  obtain ⟨hgaps, hedges⟩ := Graph.resolution_of_allocate h
  cases kind with
  | edges =>
    obtain ⟨group, hgroup, rfl⟩ := Option.map_eq_some_iff.1 hmoves
    exact hdisjoint.edges_needed hedges hgroup
  | gaps =>
    obtain ⟨group, hgroup, rfl⟩ := Option.map_eq_some_iff.1 hmoves
    exact hdisjoint.gaps_needed hgaps horderly hgroup

/-- Of the moves of a loop that changes two registers, each is needed, also the one that saves
a value and the one that fetches it back. -/
theorem missing_moves_noticed_swapping : swapping.Built ∧ Location.Named ["r0", "r1"] ∧
    ∃ a messages, swapping.allocate { registers := ["r0", "r1"] } = .ok (.success a messages) ∧
      a.resolution.movesOf? .edges 1 = some [⟨1, .register "r0", .slot 2⟩,
        ⟨0, .register "r1", .register "r0"⟩, ⟨1, .slot 2, .register "r1"⟩] ∧
      (∃ v, (a.edit (.dropGroup .edges 1)).verify = .error v) ∧
      ∀ n < 3, ∃ v, (a.edit (.dropMove .edges 1 n)).verify = .error v := by
  have hbuilt : swapping.Built := ⟨_, rfl⟩
  have hnamed : Location.Named ["r0", "r1"] := Location.named_of_head (by decide)
  obtain ⟨a, messages, h, hmoves⟩ : ∃ a messages,
      swapping.allocate { registers := ["r0", "r1"] } = .ok (.success a messages) ∧
        a.resolution.movesOf? .edges 1 = some [⟨1, .register "r0", .slot 2⟩,
          ⟨0, .register "r1", .register "r0"⟩, ⟨1, .slot 2, .register "r1"⟩] :=
    ⟨_, _, rfl, rfl⟩
  exact ⟨hbuilt, hnamed, a, messages, h, hmoves, missing_moves_noticed hbuilt rfl hnamed h hmoves⟩

end RegAlloc
