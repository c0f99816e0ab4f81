import Mathlib.Algebra.BigOperators.Group.List.Basic
import Mathlib.Algebra.GroupWithZero.Nat
import RegAlloc.Order.Linearize
import RegAlloc.Proofs.Graph
import RegAlloc.Proofs.Order.Walk

/-!
# The end of a walk

A walk looks at every edge out of the blocks that it meets once, so it ends with nothing
left to explore. Listing the blocks still being explored, outermost first, and behind them
the blocks that were left, latest first, puts every block before all that its edges lead
to, back edges aside. Leaving a block does not change that list, and entering one puts it
behind the path. At the end it is an order of all blocks that can be reached, and so no
schedule ever lacks a block that may be placed.

- `Walk.remaining`, `Walk.path_walk` — every walk finishes;
- `Walk.Leaving`, `Walk.Leaving.step` — the list, and how a step extends it;
- `Walk.Once`, `Walk.Once.step` — no edge is found to lead back twice;
- `Graph.exists_topological` — the order that a finished walk leaves behind;
- `Graph.mem_reached` — a walk meets whatever can be reached;
- `Graph.length_schedule` — the schedule of a graph whose blocks were all met has them all.
-/

namespace RegAlloc

/-! ## Order in a list without repetition -/

/-- What stands before an element stands in the part before it. -/
theorem mem_front_of_sublist {α : Type} {x y : α} {rest : List α} : ∀ {front : List α},
    (front ++ y :: rest).Nodup → [x, y].Sublist (front ++ y :: rest) → x ∈ front
  | [], hnodup, hxy => by
    have hy : y ∉ rest := (List.nodup_cons.1 hnodup).1
    cases hxy with
    | cons _ hxy => exact absurd (hxy.subset (by simp)) hy
    | cons_cons _ hxy => exact absurd (hxy.subset (by simp)) hy
  | first :: front, hnodup, hxy => by
    cases hxy with
    | cons _ hxy =>
      have hfront := mem_front_of_sublist (List.nodup_cons.1 hnodup).2 hxy
      exact List.mem_cons_of_mem first hfront
    | cons_cons _ _ => exact List.mem_cons_self

/-- An element of the front part stands before the one behind it. -/
theorem sublist_of_mem_front {α : Type} {x y : α} {front rest : List α} (hx : x ∈ front)
    (hy : y ∈ rest) : [x, y].Sublist (front ++ rest) :=
  (List.singleton_sublist.2 hx).append (List.singleton_sublist.2 hy)

namespace Graph

variable {g : Graph} {w : Walk}

theorem mem_unreached {b : BlockId} :
    b ∈ g.unreached w ↔ b < g.blocks.length ∧ b ∉ w.reached := by
  simp [unreached]

theorem nodup_unreached : (g.unreached w).Nodup := List.nodup_range.filter _

/-- Entering a block takes it from those that were not met. -/
theorem unreached_enter {path : List Frame} {b : BlockId} :
    g.unreached { w with path, reached := b :: w.reached } = (g.unreached w).erase b := by
  rw [nodup_unreached.erase_eq_filter]
  simp only [unreached, List.filter_filter]
  refine List.filter_congr fun c _ => ?_
  by_cases hc : c = b <;> simp [hc]

/-- The edges of a graph, counted block by block. -/
theorem edgeCount_eq :
    g.edgeCount = ((List.range g.blocks.length).map fun b => (g.successors b).length).sum := by
  rw [edgeCount, List.length_flatMap]
  congr 1
  refine List.ext_getElem (by simp) fun b hb _ => ?_
  rw [List.length_map] at hb
  simp [successors, List.getElem?_eq_getElem hb]

end Graph

namespace Walk

variable {g : Graph} {entry : BlockId} {w : Walk}

/-- What every step keeps, a walk keeps. -/
theorem steps_keep {P : Walk → Prop} (hstep : ∀ w, P w → P (w.step g)) :
    ∀ {n : Nat} {w : Walk}, P w → P (w.steps g n)
  | 0, _, h => h
  | n + 1, w, h => steps_keep hstep (n := n) (hstep w h)

/-! ## Every walk finishes -/

/-- How many steps a walk can still take: each edge that was not looked at can enter a
block, which is left later, and each block of the path is left. -/
def remaining (g : Graph) (w : Walk) : Nat :=
  2 * ((w.path.map (·.pending.length)).sum
    + ((g.unreached w).map fun b => (g.successors b).length).sum) + w.path.length

theorem remaining_start (hentry : entry < g.blocks.length) :
    (start g entry).remaining g = 2 * g.edgeCount + 1 := by
  have hunreached : g.unreached (start g entry) = (List.range g.blocks.length).erase entry := by
    rw [List.nodup_range.erase_eq_filter]
    refine List.filter_congr fun c _ => ?_
    by_cases hc : c = entry <;> simp [start, hc]
  have hsum := List.sum_map_erase (fun b => (g.successors b).length)
    (List.mem_range.2 hentry)
  rw [remaining, hunreached, Graph.edgeCount_eq, ← hsum]
  simp [start]

/-- A step of a walk that is not finished lowers the number of steps left. -/
theorem remaining_step (hg : g.WellFormed) (h : Inv g entry w) (hpath : w.path ≠ []) :
    (w.step g).remaining g < w.remaining g := by
  have hpending := h.pending
  rw [Walk.step]
  split
  · next heq => exact absurd heq hpath
  -- the innermost block has no edges left, so it is left
  · next b outer heq =>
    unfold remaining
    rw [heq]
    show 2 * ((outer.map (·.pending.length)).sum
      + ((g.unreached w).map fun b => (g.successors b).length).sum) + outer.length < _
    simp only [List.map_cons, List.length_nil, List.sum_cons, List.length_cons]
    omega
  · next b s pending outer heq =>
    -- looking at one edge takes two from the count
    have hlook : ∀ reached backEdges, g.unreached ⟨⟨b, pending⟩ :: outer, reached, backEdges⟩ =
        g.unreached w →
        (⟨⟨b, pending⟩ :: outer, reached, backEdges⟩ : Walk).remaining g < w.remaining g := by
      intro reached backEdges hsame
      unfold remaining
      rw [heq, hsame]
      simp only [List.map_cons, List.length_cons, List.sum_cons]
      omega
    dsimp only
    split
    · exact hlook _ _ rfl
    · split
      · exact hlook _ _ rfl
      -- a block that is entered brings its edges, which were counted as unreached
      · next hnew =>
        rw [heq] at hpending
        have hs : s ∈ g.successors b := hpending ⟨b, s :: pending⟩ (by simp) (by simp)
        have hwaits : s ∈ g.unreached w :=
          Graph.mem_unreached.2 ⟨hg.target_lt b s hs, hnew⟩
        have hsum := List.sum_map_erase (fun b => (g.successors b).length) hwaits
        unfold remaining
        rw [Graph.unreached_enter, ← hsum, heq]
        simp only [List.map_cons, List.length_cons, List.sum_cons]
        omega

/-- As many steps as are left finish a walk. -/
theorem path_steps (hg : g.WellFormed) : ∀ {n : Nat} {w : Walk}, Inv g entry w →
    w.remaining g ≤ n → (w.steps g n).path = []
  | 0, w, _, hle => by
    have hlength : w.path.length ≤ w.remaining g := Nat.le_add_left ..
    show w.path = []
    exact List.length_eq_zero_iff.1 (by omega)
  | n + 1, w, h, hle => by
    by_cases hpath : w.path = []
    · have hstep : ∀ w, Walk.path w = [] → (w.step g).path = [] := fun w hw => by
        simp [Walk.step, hw]
      exact steps_keep (P := fun w => w.path = []) hstep hpath
    · have hlt := remaining_step hg h hpath
      show ((w.step g).steps g n).path = []
      exact path_steps hg h.step (by omega)

/-- Every walk finishes. -/
theorem path_walk (hg : g.WellFormed) (hentry : entry < g.blocks.length) :
    (g.walk entry).path = [] :=
  path_steps hg (.start g entry) (Nat.le_of_eq (remaining_start hentry))

/-! ## The order in which blocks are left -/

/-- The blocks of the path, outermost first, and then those that were left, latest first. -/
def line (w : Walk) (left : List BlockId) : List BlockId :=
  (w.path.map (·.block)).reverse ++ left

/-- The blocks that were left, latest first. Every edge out of a block that was met is
still to be looked at, leads back into the path, or leads further down the line. -/
structure Leaving (g : Graph) (entry : BlockId) (w : Walk) (left : List BlockId) : Prop where
  perm : (w.line left).Perm w.reached
  entered : entry ∈ w.reached
  looked : ∀ u ∈ w.reached, ∀ v, g.HasEdge u v →
    (∃ f ∈ w.path, f.block = u ∧ v ∈ f.pending) ∨ ⟨u, v⟩ ∈ w.backEdges ∨
      [u, v].Sublist (w.line left)

namespace Leaving

variable {left : List BlockId}

theorem start (g : Graph) (entry : BlockId) : Leaving g entry (Walk.start g entry) [] where
  perm := List.Perm.refl _
  entered := by simp [Walk.start]
  looked u hu v hv := by
    cases List.mem_singleton.1 hu
    exact .inl ⟨_, List.mem_singleton_self _, rfl, hv⟩

/-- Looking at an edge that leads back or down the line changes nothing else. -/
theorem look (h : Leaving g entry w left) {b s : BlockId} {pending : List BlockId}
    {outer : List Frame} (heq : w.path = ⟨b, s :: pending⟩ :: outer) {backEdges : List Edge}
    (hback : w.backEdges ⊆ backEdges)
    (hs : ⟨b, s⟩ ∈ backEdges ∨ [b, s].Sublist (w.line left)) :
    Leaving g entry { w with path := ⟨b, pending⟩ :: outer, backEdges } left := by
  have hline : ({ w with path := ⟨b, pending⟩ :: outer, backEdges } : Walk).line left =
      w.line left := by simp [line, heq]
  refine ⟨hline ▸ h.perm, h.entered, fun u hu v hv => ?_⟩
  rw [hline]
  rcases h.looked u hu v hv with ⟨f, hf, rfl, hvf⟩ | hvb | hvl
  · rw [heq] at hf
    rcases List.mem_cons.1 hf with rfl | hf
    · rcases List.mem_cons.1 hvf with rfl | hvf
      · exact .inr hs
      · exact .inl ⟨⟨b, pending⟩, List.mem_cons_self, rfl, hvf⟩
    · exact .inl ⟨f, List.mem_cons_of_mem _ hf, rfl, hvf⟩
  · exact .inr (.inl (hback hvb))
  · exact .inr (.inr hvl)

/-- A block without edges to look at is left: the line stays as it is. -/
theorem leave (h : Leaving g entry w left) {b : BlockId} {outer : List Frame}
    (heq : w.path = ⟨b, []⟩ :: outer) : Leaving g entry { w with path := outer } (b :: left) := by
  have hline : ({ w with path := outer } : Walk).line (b :: left) = w.line left := by
    simp [line, heq]
  refine ⟨hline ▸ h.perm, h.entered, fun u hu v hv => ?_⟩
  rw [hline]
  rcases h.looked u hu v hv with ⟨f, hf, rfl, hvf⟩ | hvb | hvl
  · rw [heq] at hf
    rcases List.mem_cons.1 hf with rfl | hf
    · cases hvf
    · exact .inl ⟨f, hf, rfl, hvf⟩
  · exact .inr (.inl hvb)
  · exact .inr (.inr hvl)

/-- A block is entered: it comes behind the path, and before all that were left. -/
theorem enter (h : Leaving g entry w left) {b s : BlockId} {pending : List BlockId}
    {outer : List Frame} (heq : w.path = ⟨b, s :: pending⟩ :: outer) :
    Leaving g entry { w with
      path := ⟨s, g.successors s⟩ :: ⟨b, pending⟩ :: outer
      reached := s :: w.reached } left := by
  have hline : ({ w with
      path := ⟨s, g.successors s⟩ :: ⟨b, pending⟩ :: outer
      reached := s :: w.reached } : Walk).line left =
      (w.path.map (·.block)).reverse ++ s :: left := by simp [line, heq]
  have hsub : (w.line left).Sublist ((w.path.map (·.block)).reverse ++ s :: left) :=
    (List.sublist_cons_self ..).append_left _
  have hperm : ((w.path.map (·.block)).reverse ++ s :: left).Perm (s :: w.reached) :=
    List.perm_middle.trans (h.perm.cons s)
  refine ⟨hline ▸ hperm, List.mem_cons_of_mem _ h.entered, fun u hu v hv => ?_⟩
  rw [hline]
  rcases List.mem_cons.1 hu with rfl | hu
  -- of the new block every edge is still to be looked at
  · exact .inl ⟨_, List.mem_cons_self, rfl, hv⟩
  · rcases h.looked u hu v hv with ⟨f, hf, rfl, hvf⟩ | hvb | hvl
    · rw [heq] at hf
      -- the edge that leads to it has been looked at, and the others not yet
      rcases List.mem_cons.1 hf with rfl | hf
      · rcases List.mem_cons.1 hvf with rfl | hvf
        · exact .inr (.inr (sublist_of_mem_front (by simp [heq]) List.mem_cons_self))
        · exact .inl ⟨⟨b, pending⟩, by simp, rfl, hvf⟩
      · exact .inl ⟨f, by simp [hf], rfl, hvf⟩
    · exact .inr (.inl hvb)
    · exact .inr (.inr (hvl.trans hsub))

/-- Every step extends the list of the blocks that were left. -/
theorem step (h : Leaving g entry w left) : ∃ left', Leaving g entry (w.step g) left' := by
  rw [Walk.step]
  split
  · exact ⟨left, h⟩
  · next b outer heq => exact ⟨b :: left, h.leave heq⟩
  · next b s pending outer heq =>
    dsimp only
    split
    -- on the path: a back edge
    · exact ⟨left, h.look heq (List.subset_append_left ..) (.inl (by simp))⟩
    · next hoff =>
      split
      · next hmet =>
        -- met, but not on the path: it was left
        have hs : s ∈ left := by
          rcases List.mem_append.1 (h.perm.mem_iff.2 hmet) with hs | hs
          · rw [List.mem_reverse, List.mem_map] at hs
            obtain ⟨f, hf, rfl⟩ := hs
            have hon : w.onPath f.block = true :=
              List.any_eq_true.2 ⟨f, hf, beq_self_eq_true f.block⟩
            exact absurd hon hoff
          · exact hs
        have hdown : [b, s].Sublist (w.line left) := sublist_of_mem_front (by simp [heq]) hs
        exact ⟨left, h.look heq (List.Subset.refl _) (.inr hdown)⟩
      -- not met yet: it is entered
      · exact ⟨left, h.enter heq⟩

theorem walk (g : Graph) (entry : BlockId) : ∃ left, Leaving g entry (g.walk entry) left :=
  steps_keep (P := fun w => ∃ left, Leaving g entry w left) (fun _ ⟨_, h⟩ => h.step)
    ⟨[], start g entry⟩

end Leaving

/-! ## No edge leads back twice -/

/-- The edges that were found to lead back are distinct, and none of them is still to be
looked at. -/
structure Once (w : Walk) : Prop where
  nodup : w.backEdges.Nodup
  source : ∀ e ∈ w.backEdges, e.source ∈ w.reached
  pending : ∀ f ∈ w.path, f.pending.Nodup ∧ ∀ e ∈ w.backEdges, e.source = f.block →
    e.target ∉ f.pending

namespace Once

theorem start (hg : g.WellFormed) (entry : BlockId) : (Walk.start g entry).Once where
  nodup := List.nodup_nil
  source e he := by cases he
  pending f hf := by
    cases List.mem_singleton.1 hf
    exact ⟨hg.distinct entry, fun e he => by cases he⟩

/-- Looking at an edge takes it from those to be looked at. -/
theorem look (h : w.Once) {b s : BlockId} {pending : List BlockId} {outer : List Frame}
    (heq : w.path = ⟨b, s :: pending⟩ :: outer) : ∀ f ∈ ⟨b, pending⟩ :: outer,
      f.pending.Nodup ∧ ∀ e ∈ w.backEdges, e.source = f.block → e.target ∉ f.pending := by
  have hpending := h.pending
  rw [heq] at hpending
  intro f hf
  rcases List.mem_cons.1 hf with rfl | hf
  · obtain ⟨hnodup, hback⟩ := hpending ⟨b, s :: pending⟩ List.mem_cons_self
    exact ⟨(List.nodup_cons.1 hnodup).2, fun e he hsource hmem =>
      hback e he hsource (List.mem_cons_of_mem s hmem)⟩
  · exact hpending f (List.mem_cons_of_mem _ hf)

/-- Every step of the walk keeps the back edges distinct. -/
theorem step (hg : g.WellFormed) (hinv : Inv g entry w) (h : w.Once) : (w.step g).Once := by
  have hpath := hinv.path
  have hpending := h.pending
  rw [Walk.step]
  split
  · exact h
  · next b outer heq =>
    -- the innermost block is left, and its frame with it
    rw [heq] at hpending
    exact ⟨h.nodup, h.source, fun f hf => hpending f (List.mem_cons_of_mem _ hf)⟩
  · next b s pending outer heq =>
    rw [heq] at hpath hpending
    obtain ⟨hnodup, hback⟩ := hpending ⟨b, s :: pending⟩ List.mem_cons_self
    have hlook := h.look heq
    dsimp only
    split
    -- a back edge is recorded when it is looked at, and then never looked at again
    · have hnew : ⟨b, s⟩ ∉ w.backEdges := fun hmem => hback _ hmem rfl List.mem_cons_self
      have hb : b ∈ w.reached := hpath.subset List.mem_cons_self
      refine ⟨List.nodup_append.2 ⟨h.nodup, by simp, fun e he e' he' => ?_⟩, fun e he => ?_,
        fun f hf => ⟨(hlook f hf).1, fun e he hsource => ?_⟩⟩
      · cases List.mem_singleton.1 he'
        exact fun hsame => hnew (hsame ▸ he)
      · rcases List.mem_append.1 he with he | he
        · exact h.source e he
        · cases List.mem_singleton.1 he
          exact hb
      · rcases List.mem_append.1 he with he | he
        · exact (hlook f hf).2 e he hsource
        · -- the block of the new edge is on the path once
          cases List.mem_singleton.1 he
          rcases List.mem_cons.1 hf with rfl | hf
          · exact (List.nodup_cons.1 hnodup).1
          · have hout : b ∉ outer.map (·.block) :=
              (List.nodup_cons.1 (hinv.nodup.sublist hpath)).1
            exact absurd (List.mem_map.2 ⟨f, hf, hsource.symm⟩) hout
    · split
      · exact ⟨h.nodup, h.source, hlook⟩
      · next hnew =>
        refine ⟨h.nodup, fun e he => List.mem_cons_of_mem s (h.source e he), fun f hf => ?_⟩
        rcases List.mem_cons.1 hf with rfl | hf
        -- no back edge has been recorded from a block that was not met
        · refine ⟨hg.distinct s, fun e he hsource => ?_⟩
          have hs : e.source = s := hsource
          exact absurd (hs ▸ h.source e he) hnew
        · exact hlook f hf

theorem walk (hg : g.WellFormed) (entry : BlockId) : (g.walk entry).Once :=
  (steps_keep (P := fun w => Inv g entry w ∧ w.Once)
    (fun _ ⟨hinv, h⟩ => ⟨hinv.step, h.step hg hinv⟩) ⟨.start g entry, start hg entry⟩).2

end Once

end Walk

namespace Graph

variable {g : Graph} {entry : BlockId}

/-! ## What a finished walk leaves behind -/

/-- The blocks that a walk met can be put in an order in which all edges but the back
edges lead forwards. -/
theorem exists_topological (hg : g.WellFormed) (hentry : entry < g.blocks.length) :
    ∃ line : List BlockId, line.Perm (g.walk entry).reached ∧
      ∀ u ∈ line, ∀ v, g.HasEdge u v → ⟨u, v⟩ ∉ (g.walk entry).backEdges →
        [u, v].Sublist line := by
  obtain ⟨left, hleaving⟩ := Walk.Leaving.walk g entry
  have hpath := Walk.path_walk hg hentry
  have hline : (g.walk entry).line left = left := by simp [Walk.line, hpath]
  have hperm : left.Perm (g.walk entry).reached := hline ▸ hleaving.perm
  refine ⟨left, hperm, fun u hu v hv hforward => ?_⟩
  rcases hleaving.looked u (hperm.mem_iff.1 hu) v hv with ⟨f, hf, -⟩ | hback | hdown
  · rw [hpath] at hf
    cases hf
  · exact absurd hback hforward
  · exact hline ▸ hdown

/-- A walk meets every block that can be reached from where it started. -/
theorem mem_reached (hg : g.WellFormed) (hentry : entry < g.blocks.length) {b : BlockId}
    (hpath : Relation.ReflTransGen g.HasEdge entry b) : b ∈ (g.walk entry).reached := by
  obtain ⟨line, hperm, hline⟩ := exists_topological hg hentry
  induction hpath with
  | refl =>
    obtain ⟨left, hleaving⟩ := Walk.Leaving.walk g entry
    exact hleaving.entered
  | @tail u v _ huv hu =>
    by_cases hback : ⟨u, v⟩ ∈ (g.walk entry).backEdges
    · have hinv := Walk.Inv.walk g entry
      rcases hinv.eq_or_before_of_path (hinv.back _ hback).2 with heq | hbefore
      · cases heq
        exact hu
      · exact hbefore.subset (by simp)
    · have hdown := hline u (hperm.mem_iff.2 hu) v huv hback
      exact hperm.mem_iff.1 (hdown.subset (by simp))

/-! ## Schedules do not stall -/

section Schedule

variable {backEdges : List Edge} {line : List BlockId}

/-- As long as blocks wait, the first of them in an order along the forward edges may be
placed. -/
theorem Placing.exists_ready (hmirrored : ∀ u v, v ∈ g.successors u ↔ u ∈ g.predecessors v)
    (hnodup : line.Nodup) (hall : ∀ b < g.blocks.length, b ∈ line)
    (hline : ∀ u ∈ line, ∀ v, g.HasEdge u v → ⟨u, v⟩ ∉ backEdges → [u, v].Sublist line)
    {waiting placed : List BlockId} (h : Placing g backEdges waiting placed)
    (hwaiting : waiting ≠ []) : ∃ b ∈ waiting, g.isReady backEdges placed b = true := by
  obtain ⟨c, hc⟩ := List.exists_mem_of_ne_nil waiting hwaiting
  have hcall : c ∈ line :=
    hall c (List.mem_range.1 (h.perm.mem_iff.1 (List.mem_append_right placed hc)))
  -- the first of the waiting blocks on the line
  have hfound : (line.find? (· ∈ waiting)).isSome = true :=
    List.find?_isSome.2 ⟨c, hcall, by simpa using hc⟩
  obtain ⟨b, hb⟩ := Option.isSome_iff_exists.1 hfound
  obtain ⟨hbwaits, front, rest, hsplit, hfront⟩ := List.find?_eq_some_iff_append.1 hb
  refine ⟨b, by simpa using hbwaits, ?_⟩
  rw [isReady, List.all_eq_true]
  intro p hp
  rw [forwardPredecessors, List.mem_filter, decide_eq_true_eq] at hp
  have hedge : g.HasEdge p b := (hmirrored p b).2 hp.1
  have hlt : p < g.blocks.length := source_lt hedge
  have hbefore := hline p (hall p hlt) b hedge hp.2
  rw [hsplit] at hbefore hnodup
  -- its predecessors stand before it, so they do not wait
  have hp : p ∈ front := mem_front_of_sublist hnodup hbefore
  have hout : p ∉ waiting := by simpa using hfront p hp
  have hplaced : p ∈ placed :=
    (List.mem_append.1 (h.perm.mem_iff.2 (List.mem_range.2 hlt))).resolve_right hout
  exact decide_eq_true hplaced

/-- With enough fuel, all waiting blocks are placed. -/
theorem Placing.length_placeNext
    (hready : ∀ waiting placed, Placing g backEdges waiting placed → waiting ≠ [] →
      ∃ b ∈ waiting, g.isReady backEdges placed b = true) :
    ∀ {fuel : Nat} {waiting placed : List BlockId}, Placing g backEdges waiting placed →
      waiting.length = fuel →
      (g.placeNext backEdges fuel waiting placed).length = placed.length + fuel
  | 0, _, _, _, _ => rfl
  | fuel + 1, waiting, placed, h, hlength => by
    obtain ⟨c, hc, hcready⟩ := hready waiting placed h fun hnil => by simp [hnil] at hlength
    rw [placeNext]
    split
    · next hnone => exact absurd hcready (List.find?_eq_none.1 hnone c hc)
    · next b hfound =>
      have hb : b ∈ waiting := List.mem_of_find?_eq_some hfound
      have hrest : (waiting.erase b).length = fuel := by
        rw [List.length_erase_of_mem hb, hlength]
        omega
      rw [length_placeNext hready (h.place hb (List.find?_some hfound)) hrest]
      simp only [List.length_append, List.length_singleton]
      omega

end Schedule

/-- If a walk meets every block, the schedule along the other edges than its back edges
has every block. -/
theorem length_schedule (hg : g.WellFormed) (hentry : entry < g.blocks.length)
    (hreached : ∀ b < g.blocks.length, b ∈ (g.walk entry).reached) :
    (g.schedule (g.walk entry).backEdges).length = g.blocks.length := by
  obtain ⟨line, hperm, hline⟩ := exists_topological hg hentry
  have hnodup : line.Nodup := hperm.nodup_iff.2 (Walk.Inv.walk g entry).nodup
  have hall : ∀ b < g.blocks.length, b ∈ line := fun b hb => hperm.mem_iff.2 (hreached b hb)
  have hnone : Placing g (g.walk entry).backEdges (List.range g.blocks.length) [] :=
    ⟨List.Perm.refl _, by simp⟩
  have hlength := Placing.length_placeNext
    (fun _ _ h hwaiting => h.exists_ready hg.mirrored hnodup hall hline hwaiting) hnone
    List.length_range
  rw [schedule, hlength, List.length_nil, Nat.zero_add]

end Graph

end RegAlloc
