import RegAlloc.Proofs.Renaming.Basic

/-!
# Moves under new names

Moves are compared by their locations, as values. So the moves between renamed pieces are
the renamed moves, in the same groups and in the same order.

- `Move.rename`, `EdgeMoves.rename`, `GapMoves.rename`, `Resolution.rename`,
  `Liveness.rename` — the action;
- `Move.sequence_rename` — parallel moves in sequence;
- `resolveGaps_rename`, `resolveEdges_rename`, `resolve_rename` — the groups.
-/

namespace RegAlloc

variable {f : String → String}

/-- A move between renamed locations. -/
def Move.rename (f : String → String) (m : Move) : Move :=
  { m with source := m.source.rename f, target := m.target.rename f }

/-- The moves of an edge between renamed locations. -/
def EdgeMoves.rename (f : String → String) (group : EdgeMoves) : EdgeMoves :=
  { group with moves := group.moves.map (Move.rename f) }

/-- The moves of a gap between renamed locations. -/
def GapMoves.rename (f : String → String) (group : GapMoves) : GapMoves :=
  { group with moves := group.moves.map (Move.rename f) }

/-- All groups of moves between renamed locations. -/
def Resolution.rename (f : String → String) (resolution : Resolution) : Resolution :=
  { edges := resolution.edges.map (EdgeMoves.rename f)
    gaps := resolution.gaps.map (GapMoves.rename f) }

/-- The same liveness with all pieces in renamed locations. -/
def Liveness.rename (f : String → String) (liveness : Liveness) : Liveness :=
  { liveness with lives := liveness.lives.map (Lifetime.rename f) }

/-! ## Moves in sequence -/

namespace Move

theorem pickReady?_rename (hf : Function.Injective f) (earlier l : List Move) :
    pickReady? (earlier.map (rename f)) (l.map (rename f)) =
      (pickReady? earlier l).map (Prod.map (rename f) (List.map (rename f))) := by
  induction l generalizing earlier with
  | nil => rfl
  | cons m later ih =>
    -- two locations are the same before and after
    have hread : ((earlier.map (rename f) ++ later.map (rename f)).any
        (·.source == (m.rename f).target)) = (earlier ++ later).any (·.source == m.target) := by
      rw [← List.map_append, List.any_map]
      congr 1
      funext k
      exact Location.rename_beq hf k.source m.target
    rw [List.map_cons, pickReady?, pickReady?, hread]
    split
    · have happend : earlier.map (rename f) ++ [m.rename f] = (earlier ++ [m]).map (rename f) := by
        rw [List.map_append, List.map_singleton]
      rw [happend]
      exact ih _
    · simp

theorem redirect?_rename (hf : Function.Injective f) (blocked scratch : Location) (l : List Move) :
    redirect? (blocked.rename f) (scratch.rename f) (l.map (rename f)) =
      (redirect? blocked scratch l).map (Prod.map (rename f) (List.map (rename f))) := by
  induction l with
  | nil => rfl
  | cons m rest ih =>
    have hreads : ((m.rename f).source == blocked.rename f) = (m.source == blocked) :=
      Location.rename_beq hf m.source blocked
    rw [List.map_cons, redirect?, redirect?, hreads, ih]
    split
    · rfl
    · simp [Function.comp_def]

theorem sequencePending_rename (hf : Function.Injective f) (scratch : Location) (fuel : Nat)
    (l : List Move) : sequencePending (scratch.rename f) fuel (l.map (rename f)) =
      renamed f (List.map (rename f)) (sequencePending scratch fuel l) := by
  induction fuel generalizing l with
  | zero => cases l <;> rfl
  | succ fuel ih =>
    cases l with
    | nil => rfl
    | cons first rest =>
      have hready := pickReady?_rename hf [] (first :: rest)
      have hredirect := redirect?_rename hf first.target scratch (first :: rest)
      unfold sequencePending
      rw [List.map_nil, List.map_cons] at hready
      rw [List.map_cons] at hredirect ⊢
      dsimp only
      rw [hready]
      -- the same move is ready, or the same reader is redirected
      cases pickReady? [] (first :: rest) with
      | some ready => exact renamed_bind (ih ready.2) fun _ => rfl
      | none =>
        dsimp only [Option.map_none]
        rw [show (first.rename f).target = first.target.rename f from rfl, hredirect]
        cases redirect? first.target scratch (first :: rest) with
        | none => rfl
        | some found => exact renamed_bind (ih found.2) fun _ => rfl

theorem sequence_rename (hf : Function.Injective f) (moves : List Move) (scratch : Location) :
    sequence (moves.map (rename f)) (scratch.rename f) =
      renamed f (List.map (rename f)) (sequence moves scratch) := by
  have hpending : (moves.map (rename f)).filter (fun m => m.source != m.target) =
      (moves.filter fun m => m.source != m.target).map (rename f) :=
    filter_map_hom (rename f)
      (fun m => congrArg (!·) (Location.rename_beq hf m.source m.target)) moves
  unfold sequence
  simp only [hpending, List.length_map]
  exact sequencePending_rename hf scratch _ _

end Move

/-! ## Looking up -/

namespace Lifetime

theorem pieces_rename (life : Lifetime) :
    (life.rename f).pieces = life.pieces.map (Interval.rename f) := rfl

theorem pieceAt?_rename (life : Lifetime) (p : Position) :
    (life.rename f).pieceAt? p = (life.pieceAt? p).map (Interval.rename f) :=
  find?_map_hom (Interval.rename f) (fun _ => rfl) life.pieces

theorem pieceBefore?_rename (life : Lifetime) (gap : Position) :
    (life.rename f).pieceBefore? gap = (life.pieceBefore? gap).map (Interval.rename f) := by
  unfold pieceBefore?
  rw [pieceAt?_rename, Option.isSome_map]
  split
  · exact find?_map_hom (Interval.rename f) (fun _ => rfl) life.pieces
  · rfl

theorem neighbours_rename (life : Lifetime) : (life.rename f).neighbours =
    life.neighbours.map (Prod.map (Interval.rename f) (Interval.rename f)) := by
  unfold neighbours
  rw [pieces_rename, show (life.rename f).children = life.children.map (Interval.rename f) from rfl,
    List.zip_map]

end Lifetime

theorem Liveness.life?_rename (liveness : Liveness) (r : VReg) :
    (liveness.rename f).life? r = (liveness.life? r).map (Lifetime.rename f) :=
  find?_map_hom (Lifetime.rename f) (fun _ => rfl) liveness.lives

/-! ## Gaps -/

theorem bridge?_rename (hf : Function.Injective f) (order : LinearOrder) (r : VReg)
    (i j : Interval) : bridge? order r (i.rename f) (j.rename f) =
      renamed f (Option.map (Prod.map id (Move.rename f))) (bridge? order r i j) := by
  unfold bridge?
  refine renamed_ite Iff.rfl ?_ rfl
  refine renamed_bind i.locate_rename fun source => renamed_bind j.locate_rename fun target => ?_
  refine renamed_ite (Location.rename_inj hf) rfl ?_
  rw [Interval.rename_start]
  cases order.splitGap? j.start <;> rfl

/-- The results that exist. -/
theorem filterMap_map_id {α β : Type} (g : α → β) (found : List (Option α)) :
    (found.map (Option.map g)).filterMap id = (found.filterMap id).map g := by
  rw [List.filterMap_map, List.map_filterMap]
  rfl

/-- Moves grouped by gap, under new names. -/
abbrev renameGroups (f : String → String) :
    List (Position × List Move) → List (Position × List Move) :=
  List.map (Prod.map id (List.map (Move.rename f)))

theorem addToGap_rename (groups : List (Position × List Move)) (gap : Position) (m : Move) :
    addToGap (renameGroups f groups) gap (m.rename f) =
      renameGroups f (addToGap groups gap m) := by
  unfold addToGap
  have hlookup : (renameGroups f groups).lookup gap =
      (groups.lookup gap).map (List.map (Move.rename f)) :=
    lookup_mapKeys Function.injective_id _ groups gap
  have hmoves : ((groups.lookup gap).map (List.map (Move.rename f))).getD [] ++ [m.rename f] =
      ((groups.lookup gap).getD [] ++ [m]).map (Move.rename f) := by
    cases groups.lookup gap <;> simp
  rw [hlookup, hmoves]
  exact put_mapKeys Function.injective_id _ groups gap _

theorem bridges_rename (hf : Function.Injective f) (order : LinearOrder) (lives : List Lifetime) :
    bridges order (lives.map (Lifetime.rename f)) =
      renamed f (renameGroups f) (bridges order lives) := by
  unfold bridges
  refine renamed_bind (renamed_mapM (h := List.map (Option.map (Prod.map id (Move.rename f))))
    (fun life => ?_) lives) fun found => ?_
  · rw [Lifetime.neighbours_rename]
    exact renamed_mapM (fun pair => bridge?_rename hf order life.register pair.1 pair.2) _
  · rw [← List.map_flatten, filterMap_map_id]
    refine congrArg Except.ok (Eq.trans (congrArg (sortBy _) ?_) (sortBy_map (fun _ _ => rfl) _))
    exact foldl_map_hom (g := renameGroups f) (h := Prod.map id (Move.rename f))
      (fun groups entry => addToGap_rename groups entry.1 entry.2) (found.flatten.filterMap id) []

theorem resolveGaps_rename (hf : Function.Injective f) (order : LinearOrder) (liveness : Liveness)
    (scratch : Location) : resolveGaps order (liveness.rename f) (scratch.rename f) =
      renamed f (List.map (GapMoves.rename f)) (resolveGaps order liveness scratch) := by
  unfold resolveGaps
  refine renamed_bind (bridges_rename hf order liveness.lives) fun groups => ?_
  refine renamed_mapM (fun group => ?_) groups
  dsimp only [Prod.map_fst, Prod.map_snd, id_eq]
  cases order.blockAt? (group.1 + 1) with
  | none => rfl
  | some b => exact renamed_bind (Move.sequence_rename hf group.2 scratch) fun _ => rfl

/-! ## Edges -/

/-- Looking up the stretch of a block has no names in it, on success or on failure. -/
theorem LinearOrder.span_rename (order : LinearOrder) (b : Ref) :
    order.span b = renamed f id (order.span b) := by
  unfold LinearOrder.span
  cases b.index?.bind order.span? <;> rfl

theorem edgeMove?_rename (hf : Function.Injective f) (liveness : Liveness) (exit : Position)
    (target : Span) (r : VReg) : edgeMove? (liveness.rename f) exit target r =
      renamed f (Option.map (Move.rename f)) (edgeMove? liveness exit target r) := by
  unfold edgeMove?
  rw [Liveness.life?_rename]
  -- lives and pieces are found by registers and positions, which keep their names
  cases liveness.life? r with
  | none => rfl
  | some life =>
    dsimp only [Option.map_some]
    rw [Lifetime.pieceBefore?_rename]
    cases life.pieceBefore? exit with
    | none => rfl
    | some before =>
      dsimp only [Option.map_some]
      rw [Lifetime.pieceAt?_rename]
      cases life.pieceAt? target.first with
      | none => rfl
      | some after =>
        refine renamed_bind before.locate_rename fun source =>
          renamed_bind after.locate_rename fun target => ?_
        by_cases heq : source = target
        · simp [heq]
        · simp [heq, Location.rename_inj hf, Move.rename]

theorem edgeMoves?_rename (hf : Function.Injective f) (order : LinearOrder) (liveness : Liveness)
    (scratch : Location) (span : Span) (b : BlockId) :
    edgeMoves? order (liveness.rename f) (scratch.rename f) span b =
      renamed f (Option.map (EdgeMoves.rename f)) (edgeMoves? order liveness scratch span b) := by
  unfold edgeMoves?
  refine renamed_bind (order.span_rename b) fun target => renamed_bind (renamed_mapM_self
    (edgeMove?_rename hf liveness (span.last + 1) target) (liveness.liveInto b)) fun found => ?_
  rw [filterMap_map_id]
  cases found.filterMap id with
  | nil => rfl
  | cons m rest =>
    exact renamed_bind (Move.sequence_rename hf (m :: rest) scratch) fun _ => rfl

theorem resolveEdges_rename (hf : Function.Injective f) (order : LinearOrder) (liveness : Liveness)
    (scratch : Location) : resolveEdges order (liveness.rename f) (scratch.rename f) =
      renamed f (List.map (EdgeMoves.rename f)) (resolveEdges order liveness scratch) := by
  unfold resolveEdges
  refine renamed_bind (renamed_mapM_self (fun span => renamed_mapM_self
    (edgeMoves?_rename hf order liveness scratch span) _) order.spans) fun groups => ?_
  rw [← List.map_flatten, filterMap_map_id]
  rfl

/-- The moves between renamed pieces are the renamed moves. -/
theorem resolve_rename (hf : Function.Injective f) (order : LinearOrder) (liveness : Liveness)
    (scratch : Location) : resolve order (liveness.rename f) (scratch.rename f) =
      renamed f (Resolution.rename f) (resolve order liveness scratch) := by
  unfold resolve
  exact renamed_bind (resolveEdges_rename hf order liveness scratch) fun _ =>
    renamed_bind (resolveGaps_rename hf order liveness scratch) fun _ => rfl

end RegAlloc
