import Mathlib.Data.List.Chain
import Mathlib.Logic.Relation
import RegAlloc.Order.DepthFirst
import RegAlloc.Order.Schedule

/-!
# Back edges and schedules

A depth-first walk enters every block but the first along an edge from a block met
earlier. A back edge leads to a block on the path, from which such edges lead to its
source. So the edges along which blocks were entered are never back edges, and a
schedule that respects all other edges puts the target of a back edge before its source.

- `Walk.Tree` — the edges from a block met earlier to one met later;
- `Walk.Inv`, `Walk.Inv.step` — the invariant of the walk;
- `Walk.Inv.not_back`, `Walk.Inv.back_path`, `Walk.Inv.forward_parent` — what follows
  for the finished walk;
- `Graph.schedule` — the least block that may be placed, time and again;
- `Graph.placeNext_keep` — what placing a block keeps, a schedule keeps;
- `Graph.schedule_perm`, `Graph.forward_before` — what follows for the schedule.
-/

namespace RegAlloc

/-! ## Order in a list without repetition -/

/-- Standing before is transitive in a list without repetition. -/
theorem sublist_pair_trans {α : Type} {x y z : α} : ∀ {l : List α}, l.Nodup →
    [z, y].Sublist l → [y, x].Sublist l → [z, x].Sublist l
  | a :: l, hnodup, hzy, hyx => by
    obtain ⟨ha, hl⟩ := List.nodup_cons.1 hnodup
    cases hyx with
    | cons _ hyx =>
      cases hzy with
      | cons _ hzy => exact (sublist_pair_trans hl hzy hyx).cons a
      | cons_cons _ _ =>
        have hx : x ∈ l := hyx.subset (by simp)
        exact (List.singleton_sublist.2 hx).cons_cons z
    | cons_cons _ hyx =>
      cases hzy with
      | cons _ hzy => exact absurd (hzy.subset (by simp)) ha
      | cons_cons _ hzy => exact absurd (hzy.subset (by simp)) ha

namespace Walk

variable {g : Graph} {entry : BlockId}

/-- An edge from a block met earlier to one met later; `reached` has the latest first. -/
def Tree (g : Graph) (reached : List BlockId) (x y : BlockId) : Prop :=
  y ∈ g.successors x ∧ [y, x].Sublist reached

theorem Tree.mono {reached reached' : List BlockId} (h : reached.Sublist reached')
    {x y : BlockId} (hxy : Tree g reached x y) : Tree g reached' x y :=
  ⟨hxy.1, hxy.2.trans h⟩

/-- What holds of a walk at every moment. -/
structure Inv (g : Graph) (entry : BlockId) (w : Walk) : Prop where
  nodup : w.reached.Nodup
  path : (w.path.map (·.block)).Sublist w.reached
  linked : w.path.IsChain fun inner outer => inner.block ∈ g.successors outer.block
  pending : ∀ f ∈ w.path, f.pending ⊆ g.successors f.block
  parent : ∀ v ∈ w.reached, v = entry ∨ ∃ x, Tree g w.reached x v
  back : ∀ e ∈ w.backEdges, e.target ∈ g.successors e.source ∧
    Relation.ReflTransGen (Tree g w.reached) e.target e.source

/-- From every block on the path, entered edges lead to the innermost one. -/
theorem path_to_innermost {reached : List BlockId} : ∀ {outer : List Frame} {inner : Frame},
    (((inner :: outer).map (·.block)).Sublist reached) →
    ((inner :: outer).IsChain fun inner outer => inner.block ∈ g.successors outer.block) →
    ∀ f ∈ inner :: outer, Relation.ReflTransGen (Tree g reached) f.block inner.block
  | [], inner, _, _, f, hf => by
    cases List.mem_singleton.1 hf
    exact .refl
  | next :: outer, inner, hpath, hlinked, f, hf => by
    rcases List.mem_cons.1 hf with rfl | hf
    · exact .refl
    · obtain ⟨hedge, hlinked'⟩ := List.isChain_cons_cons.1 hlinked
      have htail : ((next :: outer).map (·.block)).Sublist reached :=
        (List.sublist_cons_self ..).trans hpath
      have hpair : [inner.block, next.block].Sublist reached :=
        (List.Sublist.cons_cons _ (List.Sublist.cons_cons _ (List.nil_sublist _))).trans hpath
      exact (path_to_innermost htail hlinked' f hf).tail ⟨hedge, hpair⟩

namespace Inv

variable {w : Walk}

theorem start (g : Graph) (entry : BlockId) : Inv g entry (Walk.start g entry) where
  nodup := by simp [Walk.start]
  path := List.Sublist.refl _
  linked := List.isChain_singleton _
  pending f hf := by
    cases List.mem_singleton.1 hf
    exact List.Subset.refl _
  parent v hv := .inl (List.mem_singleton.1 hv)
  back e he := by simp [Walk.start] at he

/-- Every step of the walk keeps the invariant. -/
theorem step (h : Inv g entry w) : Inv g entry (w.step g) := by
  have hpath := h.path
  have hlinked := h.linked
  have hpending := h.pending
  rw [Walk.step]
  split
  · exact h
  · next b outer heq =>
    -- the innermost block is left
    rw [heq] at hpath hlinked hpending
    exact ⟨h.nodup, (List.sublist_cons_self ..).trans hpath, hlinked.tail,
      fun f hf => hpending f (by simp [hf]), h.parent, h.back⟩
  · next b s pending outer heq =>
    rw [heq] at hpath hlinked hpending
    have hs : s ∈ g.successors b := hpending ⟨b, s :: pending⟩ (by simp) (by simp)
    -- the frame has one edge fewer, but stands where it stood
    have hlinked' : (⟨b, pending⟩ :: outer).IsChain
        fun inner outer => inner.block ∈ g.successors outer.block := by
      cases outer with
      | nil => exact List.isChain_singleton _
      | cons next outer => exact List.isChain_cons_cons.2 (List.isChain_cons_cons.1 hlinked)
    have hpending' : ∀ f ∈ ⟨b, pending⟩ :: outer, f.pending ⊆ g.successors f.block := by
      intro f hf
      rcases List.mem_cons.1 hf with rfl | hf
      · exact fun x hx => hpending ⟨b, s :: pending⟩ (by simp) (by simp [hx])
      · exact hpending f (by simp [hf])
    dsimp only
    split
    · next hon =>
      -- the successor is on the path, so the path leads from it to the innermost block
      refine ⟨h.nodup, hpath, hlinked', hpending', h.parent, fun e he => ?_⟩
      rcases List.mem_append.1 he with he | he
      · exact h.back e he
      · cases List.mem_singleton.1 he
        rw [onPath, heq, List.any_eq_true] at hon
        obtain ⟨f, hf, hfs⟩ := hon
        cases beq_iff_eq.1 hfs
        exact ⟨hs, path_to_innermost hpath hlinked f hf⟩
    · split
      -- met before, and no longer on the path
      · exact ⟨h.nodup, hpath, hlinked', hpending', h.parent, h.back⟩
      · next hnew =>
        -- a new block, which is entered from the innermost one
        have hsub : w.reached.Sublist (s :: w.reached) := List.sublist_cons_self ..
        have hb : b ∈ w.reached := hpath.subset (by simp)
        refine ⟨List.nodup_cons.2 ⟨hnew, h.nodup⟩, hpath.cons_cons s,
          List.isChain_cons_cons.2 ⟨hs, hlinked'⟩, ?_, fun v hv => ?_, fun e he => ?_⟩
        · intro f hf
          rcases List.mem_cons.1 hf with rfl | hf
          · exact List.Subset.refl _
          · exact hpending' f hf
        · rcases List.mem_cons.1 hv with rfl | hv
          · exact .inr ⟨b, hs, (List.singleton_sublist.2 hb).cons_cons v⟩
          · exact (h.parent v hv).imp_right fun ⟨x, hx⟩ => ⟨x, hx.mono hsub⟩
        · obtain ⟨hedge, hback⟩ := h.back e he
          exact ⟨hedge, hback.lift id fun _ _ hxy => hxy.mono hsub⟩

theorem steps : ∀ {n : Nat} {w : Walk}, Inv g entry w → Inv g entry (w.steps g n)
  | 0, _, h => h
  | n + 1, _, h => steps (n := n) h.step

theorem walk (g : Graph) (entry : BlockId) : Inv g entry (g.walk entry) := (start g entry).steps

/-! ## Entered edges are not back edges -/

theorem eq_or_before_of_path (h : Inv g entry w) {x y : BlockId}
    (hpath : Relation.ReflTransGen (Tree g w.reached) x y) :
    x = y ∨ [y, x].Sublist w.reached := by
  induction hpath with
  | refl => exact .inl rfl
  | tail _ hyz ih =>
    rcases ih with rfl | hxy
    · exact .inr hyz.2
    · exact .inr (sublist_pair_trans h.nodup hyz.2 hxy)

/-- An edge from a block met earlier to one met later is not a back edge. -/
theorem not_back (h : Inv g entry w) {x y : BlockId} (hxy : Tree g w.reached x y) :
    ⟨x, y⟩ ∉ w.backEdges := by
  intro hback
  have hirrefl : ¬ [x, x].Sublist w.reached := fun hxx => by
    simpa using (h.nodup.sublist hxx)
  rcases h.eq_or_before_of_path (h.back _ hback).2 with heq | hyx
  · cases heq
    exact hirrefl hxy.2
  · exact hirrefl (sublist_pair_trans h.nodup hyx hxy.2)

/-- Edges that are not back edges lead from the target of a back edge to its source. -/
theorem back_path (h : Inv g entry w) {e : Edge} (he : e ∈ w.backEdges) :
    Relation.ReflTransGen (fun x y => y ∈ g.successors x ∧ ⟨x, y⟩ ∉ w.backEdges)
      e.target e.source :=
  (h.back e he).2.lift id fun _ _ hxy => ⟨hxy.1, h.not_back hxy⟩

/-- Every block that was met, but the first, has an edge into it that is no back edge. -/
theorem forward_parent (h : Inv g entry w) {v : BlockId} (hv : v ∈ w.reached) (hne : v ≠ entry) :
    ∃ x, v ∈ g.successors x ∧ ⟨x, v⟩ ∉ w.backEdges := by
  rcases h.parent v hv with rfl | ⟨x, hx⟩
  · exact absurd rfl hne
  · exact ⟨x, hx.1, h.not_back hx⟩

end Inv

end Walk

namespace Graph

/-! ## Schedules -/

/-- Whether all forward predecessors of a block are placed. -/
def isReady (g : Graph) (backEdges : List Edge) (placed : List BlockId) (b : BlockId) : Bool :=
  (g.forwardPredecessors backEdges b).all (· ∈ placed)

/-- Place waiting blocks one by one: each time the first one that is ready. -/
def placeNext (g : Graph) (backEdges : List Edge) : Nat → List BlockId → List BlockId → List BlockId
  | 0, _, placed => placed
  | fuel + 1, waiting, placed =>
    match waiting.find? (g.isReady backEdges placed) with
    | none => placed
    | some b => placeNext g backEdges fuel (waiting.erase b) (placed ++ [b])

/-- The blocks in the order in which they may be placed, the lowest number first. It is found by
looking at all blocks for each place; `Graph.orderBlocks` keeps count instead. -/
def schedule (g : Graph) (backEdges : List Edge) : List BlockId :=
  placeNext g backEdges g.blocks.length (List.range g.blocks.length) []

variable {g : Graph} {backEdges : List Edge}

/-- Blocks that are placed and blocks that wait: all blocks, and whatever is placed
stands behind its forward predecessors. -/
structure Placing (g : Graph) (backEdges : List Edge) (waiting placed : List BlockId) : Prop where
  perm : (placed ++ waiting).Perm (List.range g.blocks.length)
  behind : ∀ front b rest, placed = front ++ b :: rest →
    ∀ p ∈ g.forwardPredecessors backEdges b, p ∈ front

/-- Placing a block that is ready keeps what is placed in order. -/
theorem Placing.place {waiting placed : List BlockId} (h : Placing g backEdges waiting placed)
    {b : BlockId} (hb : b ∈ waiting) (hready : g.isReady backEdges placed b = true) :
    Placing g backEdges (waiting.erase b) (placed ++ [b]) where
  perm := by
    refine List.Perm.trans ?_ h.perm
    rw [List.append_assoc, List.singleton_append]
    exact (List.perm_cons_erase hb).symm.append_left placed
  behind front c rest hplaced p hp := by
    rw [isReady, List.all_eq_true] at hready
    rcases List.eq_nil_or_concat rest with rfl | ⟨rest, last, rfl⟩
    · obtain ⟨rfl, hbc⟩ := List.append_inj' hplaced rfl
      cases hbc
      simpa using hready p hp
    · rw [List.concat_eq_append, ← List.cons_append, ← List.append_assoc] at hplaced
      exact h.behind front c rest (List.append_inj' hplaced rfl).1 p hp

/-- What placing a block keeps, a schedule keeps. -/
theorem placeNext_keep {P : List BlockId → List BlockId → Prop}
    (hplace : ∀ waiting placed b, P waiting placed →
      waiting.find? (g.isReady backEdges placed) = some b → P (waiting.erase b) (placed ++ [b])) :
    ∀ (fuel : Nat) {waiting placed : List BlockId}, P waiting placed →
      ∃ left, P left (g.placeNext backEdges fuel waiting placed)
  | 0, waiting, _, h => ⟨waiting, h⟩
  | fuel + 1, waiting, placed, h => by
    rw [placeNext]
    split
    · exact ⟨waiting, h⟩
    · next b hfound => exact placeNext_keep hplace fuel (hplace waiting placed b h hfound)

theorem schedule_placing (g : Graph) (backEdges : List Edge) :
    ∃ left, Placing g backEdges left (g.schedule backEdges) :=
  placeNext_keep (P := Placing g backEdges)
    (fun _ _ _ h hfound => h.place (List.mem_of_find?_eq_some hfound) (List.find?_some hfound))
    g.blocks.length ⟨List.Perm.refl _, by simp⟩

/-- A schedule of full length has every block once. -/
theorem schedule_perm (h : (g.schedule backEdges).length = g.blocks.length) :
    (g.schedule backEdges).Perm (List.range g.blocks.length) := by
  obtain ⟨left, hplacing⟩ := schedule_placing g backEdges
  have hlength := hplacing.perm.length_eq
  rw [List.length_append, h, List.length_range] at hlength
  have hleft : left = [] := List.length_eq_zero_iff.1 (by omega)
  simpa [hleft] using hplacing.perm

/-- The source of an edge that is no back edge stands before its target. -/
theorem forward_before (hmirrored : ∀ u v, v ∈ g.successors u ↔ u ∈ g.predecessors v)
    {u v : BlockId} {front rest : List BlockId} (hv : g.schedule backEdges = front ++ v :: rest)
    (hedge : v ∈ g.successors u) (hforward : ⟨u, v⟩ ∉ backEdges) : u ∈ front := by
  obtain ⟨left, hplacing⟩ := schedule_placing g backEdges
  refine hplacing.behind front v rest hv u ?_
  rw [forwardPredecessors, List.mem_filter]
  exact ⟨(hmirrored u v).1 hedge, by simpa using hforward⟩

end Graph

end RegAlloc
