import RegAlloc.Move.Resolution
import RegAlloc.Proofs.Ensures
import RegAlloc.Proofs.Order.Regular

/-!
# The moves of gaps and edges

Where the moves of a group lead from and to. Putting parallel moves in order adds no
locations but the scratch one; the moves of a gap lead from a piece to its neighbour, and
no group stands in a gap at which a block ends.

- `Move.sequence_ensures` — moves in order stay among the locations of the parallel ones;
- `Crosses` — a move from a piece to the next one, in a gap;
- `LinearOrder.splitGap?_eq_some`, `GapMoves.Sound.position_ne` — where groups stand;
- `resolveGaps_ensures`, `resolveEdges_ensures` — the groups of an allocation.
-/

namespace RegAlloc

namespace Move

/-- A move that reads where `S` allows it and writes where `T` does. -/
def Within (S T : Location → Prop) (m : Move) : Prop := S m.source ∧ T m.target

variable {S T : Location → Prop} {scratch : Location}

theorem mem_of_pickReady? : ∀ {later earlier others : List Move} {m : Move},
    pickReady? earlier later = some (m, others) →
      m ∈ earlier ++ later ∧ others ⊆ earlier ++ later
  | first :: later, earlier, others, m, h => by
    rw [pickReady?] at h
    split at h
    · simpa using mem_of_pickReady? h
    · cases h
      refine ⟨by simp, fun x hx => ?_⟩
      simp only [List.mem_append, List.mem_cons] at hx ⊢
      exact hx.imp_right .inr

/-- A redirected move reads the scratch location, and the others are as before. -/
theorem mem_of_redirect? {blocked : Location} : ∀ {moves redirected : List Move} {reader : Move},
    redirect? blocked scratch moves = some (reader, redirected) →
      ∀ x ∈ redirected, x ∈ moves ∨ ∃ m ∈ moves, x = { m with source := scratch }
  | m :: rest, redirected, reader, h, x, hx => by
    rw [redirect?] at h
    split at h
    · cases h
      rcases List.mem_cons.1 hx with rfl | hx
      · exact .inr ⟨m, by simp, rfl⟩
      · exact .inl (by simp [hx])
    · obtain ⟨⟨found, others⟩, hfound, heq⟩ := Option.map_eq_some_iff.1 h
      cases heq
      rcases List.mem_cons.1 hx with rfl | hx
      · exact .inl (by simp)
      · refine (mem_of_redirect? hfound x hx).imp (fun hmem => by simp [hmem]) ?_
        rintro ⟨y, hy, rfl⟩
        exact ⟨y, by simp [hy], rfl⟩

theorem sequencePending_ensures (hTS : ∀ l, T l → S l) (hscratch : T scratch) :
    ∀ (fuel : Nat) (moves : List Move), (∀ m ∈ moves, m.Within S T) →
      Ensures (sequencePending scratch fuel moves) (∀ m ∈ ·, m.Within S T) fun _ => True
  | _, [], _ => by simp [sequencePending]
  | 0, _ :: _, _ => trivial
  | fuel + 1, first :: rest, h => by
    rw [sequencePending]
    split
    · next ready others hready =>
      obtain ⟨hmem, hsub⟩ := mem_of_pickReady? hready
      refine Ensures.bind (sequencePending_ensures hTS hscratch fuel others fun m hm =>
        h m (hsub hm)) fun out hout => ?_
      exact List.forall_mem_cons.2 ⟨h ready hmem, hout⟩
    · split
      · trivial
      · next reader redirected hredirected =>
        refine Ensures.bind (sequencePending_ensures hTS hscratch fuel redirected fun x hx => ?_)
          fun out hout => ?_
        · rcases mem_of_redirect? hredirected x hx with hx | ⟨m, hm, rfl⟩
          · exact h x hx
          · exact ⟨hTS _ hscratch, (h m hm).2⟩
        · -- the save reads a target
          exact List.forall_mem_cons.2 ⟨⟨hTS _ (h first (by simp)).2, hscratch⟩, hout⟩

/-- Moves in order lead from and to where the parallel ones do, or by way of the scratch
location. -/
theorem sequence_ensures (hTS : ∀ l, T l → S l) (hscratch : T scratch) {moves : List Move}
    (h : ∀ m ∈ moves, m.Within S T) :
    Ensures (sequence moves scratch) (∀ m ∈ ·, m.Within S T) fun _ => True :=
  sequencePending_ensures hTS hscratch _ _ fun m hm => h m (List.mem_filter.1 hm).1

end Move

/-- A location that some piece is in, or the scratch location. -/
def Place (lives : List Lifetime) (scratch l : Location) : Prop :=
  l = scratch ∨ ∃ life ∈ lives, ∃ i ∈ life.pieces, i.location = some l

/-! ## Gaps -/

/-- The cuts that a gap bridges: one in the gap and one at the instruction behind it, unless a
block begins there. -/
theorem LinearOrder.splitGap?_eq_some {order : LinearOrder} {p gap : Position}
    (hodd : gap % stride = 1) :
    order.splitGap? p = some gap ↔
      (p = gap ∨ p = gap + 1) ∧ order.isBlockStart (gap + 1) = false := by
  rw [splitGap?]
  by_cases heven : p % stride = 0
  · have hp : p - 1 = gap ↔ p = gap ∨ p = gap + 1 := by lia
    grind
  · have hp : p = gap ↔ p = gap ∨ p = gap + 1 := by lia
    grind

/-- A move that takes a value from a piece to the next one, in a gap. -/
def Crosses (order : LinearOrder) (lives : List Lifetime) (gap : Position) (m : Move) : Prop :=
  ∃ life ∈ lives, ∃ i ∈ life.pieces, ∃ j ∈ life.pieces, i.stop = j.start ∧
    order.splitGap? j.start = some gap ∧ i.location = some m.source ∧ j.location = some m.target

variable {order : LinearOrder} {lives : List Lifetime}

theorem Interval.stop_eq_of_touches {i j : Interval} (h : i.touches j = true) :
    i.stop = j.start := by
  rw [touches] at h
  split at h
  · next stop start hstop hstart =>
    simp only [Interval.stop, Interval.start, hstop, hstart, Option.getD_some]
    exact beq_iff_eq.1 h
  · cases h

theorem Interval.locate_eq_ok {i : Interval} {l : Location} :
    i.locate = .ok l ↔ i.location = some l := by
  rw [locate]
  split <;> simp_all

theorem bridge?_ensures {life : Lifetime} (hlife : life ∈ lives) {i j : Interval}
    (hij : (i, j) ∈ life.neighbours) :
    Ensures (bridge? order life.register i j)
      (fun found => ∀ gap m, found = some (gap, m) → Crosses order lives gap m) fun _ => True := by
  have hi : i ∈ life.pieces := (List.of_mem_zip hij).1
  have hj : j ∈ life.pieces := List.mem_cons_of_mem _ (List.of_mem_zip hij).2
  rw [bridge?]
  split
  · next htouches =>
    cases hsource : i.locate with
    | error v => trivial
    | ok source =>
      cases htarget : j.locate with
      | error v => trivial
      | ok target =>
        -- a value that stays in its location does not cross
        change Ensures (if source = target then _ else _) _ _
        split
        · simp [pure, Except.pure]
        · rintro gap m hfound
          obtain ⟨gap', hgap, heq⟩ := Option.map_eq_some_iff.1 hfound
          cases heq
          exact ⟨life, hlife, i, hi, j, hj, Interval.stop_eq_of_touches htouches, hgap,
            Interval.locate_eq_ok.1 hsource, Interval.locate_eq_ok.1 htarget⟩
  · simp [pure, Except.pure]

/-- Adding a move to its gap leaves groups that have moves of one kind. -/
theorem addToGap_all {C : Position → Move → Prop} {groups : List (Position × List Move)}
    (h : ∀ group ∈ groups, group.2 ≠ [] ∧ ∀ m ∈ group.2, C group.1 m) {gap : Position} {m : Move}
    (hm : C gap m) :
    ∀ group ∈ addToGap groups gap m, group.2 ≠ [] ∧ ∀ m ∈ group.2, C group.1 m := by
  intro group hgroup
  rcases Table.mem_put hgroup with hold | rfl
  · exact h group hold
  · refine ⟨by simp, fun x hx => ?_⟩
    rcases List.mem_append.1 hx with hx | hx
    · cases hlookup : groups.lookup gap with
      | none => simp [hlookup] at hx
      | some moves =>
        obtain ⟨before, behind, hsplit, -⟩ := List.lookup_eq_some_iff.1 hlookup
        rw [hlookup] at hx
        exact (h (gap, moves) (by simp [hsplit])).2 x hx
    · cases List.mem_singleton.1 hx
      exact hm

/-- Every group has moves, and they cross in its gap. -/
theorem bridges_ensures (order : LinearOrder) (lives : List Lifetime) :
    Ensures (bridges order lives) (fun groups => ∀ group ∈ groups, group.2 ≠ [] ∧
      ∀ m ∈ group.2, Crosses order lives group.1 m) fun _ => True := by
  rw [bridges]
  refine Ensures.bind (Ensures.mapM fun life hlife =>
    Ensures.mapM fun ij hij => bridge?_ensures hlife hij) fun found hfound => ?_
  refine fun group hgroup => ?_
  rw [mem_sortBy] at hgroup
  revert group
  refine List.foldlRecOn (motive := fun (groups : List (Position × List Move)) =>
    ∀ group ∈ groups, group.2 ≠ [] ∧ ∀ m ∈ group.2, Crosses order lives group.1 m) _ _ (by simp)
    fun groups hgroups x hx => ?_
  obtain ⟨_, hrow, rfl⟩ := List.mem_filterMap.1 hx
  obtain ⟨row, hmem, hrow⟩ := List.mem_flatten.1 hrow
  exact addToGap_all hgroups (hfound row hmem _ hrow x.1 x.2 rfl)

/-- What is known of the moves of a gap: some value crosses in it, the next instruction is in
the same block, and all moves lead to where a value crosses to, or to the scratch location. -/
structure GapMoves.Sound (order : LinearOrder) (lives : List Lifetime) (scratch : Location)
    (group : GapMoves) : Prop where
  crossed : ∃ m, Crosses order lives group.position m
  inside : ∃ b, order.blockAt? (group.position + 1) = some b
  moves : ∀ m ∈ group.moves, m.Within (Place lives scratch)
    fun l => l = scratch ∨ ∃ m, Crosses order lives group.position m ∧ m.target = l

/-- The groups of moves in gaps are sound. -/
theorem resolveGaps_ensures (order : LinearOrder) (liveness : Liveness) (scratch : Location) :
    Ensures (resolveGaps order liveness scratch)
      (∀ group ∈ ·, group.Sound order liveness.lives scratch) fun _ => True := by
  rw [resolveGaps]
  refine Ensures.bind (bridges_ensures order liveness.lives) fun groups hgroups => ?_
  refine Ensures.mapM fun group hgroup => ?_
  obtain ⟨hne, hcrosses⟩ := hgroups group hgroup
  dsimp only
  -- a gap behind the last instruction is in no block
  split
  · trivial
  · next block hblock =>
    have hwithin : ∀ m ∈ group.2, m.Within (Place liveness.lives scratch)
        fun l => l = scratch ∨ ∃ m, Crosses order liveness.lives group.1 m ∧ m.target = l := by
      intro m hm
      obtain ⟨life, hlife, i, hi, j, hj, hmeet, hgap, hsource, htarget⟩ := hcrosses m hm
      exact ⟨.inr ⟨life, hlife, i, hi, hsource⟩, .inr ⟨m, hcrosses m hm, rfl⟩⟩
    refine Ensures.bind (Move.sequence_ensures ?_ (.inl rfl) hwithin) fun moves hmoves => ?_
    · rintro l (rfl | ⟨m, ⟨life, hlife, -, -, j, hj, -, -, -, htarget⟩, rfl⟩)
      · exact .inl rfl
      · exact .inr ⟨life, hlife, j, hj, htarget⟩
    · obtain ⟨m, hm⟩ := List.exists_mem_of_ne_nil _ hne
      exact ⟨⟨m, hcrosses m hm⟩, ⟨block, hblock⟩, hmoves⟩

/-- No moves stand in the gap at which a block ends. -/
theorem GapMoves.Sound.position_ne {scratch : Location} {group : GapMoves}
    (hgroup : group.Sound order lives scratch) (h : order.Regular) {span : Span}
    (hspan : span ∈ order.spans) : group.position ≠ span.last + 1 := by
  intro hposition
  obtain ⟨m, life, -, i, -, j, -, -, hgap, -⟩ := hgroup.crossed
  obtain ⟨b, hb⟩ := hgroup.inside
  obtain ⟨slot, hslot, -⟩ := Option.map_eq_some_iff.1 hb
  obtain ⟨-, next, hnext, -, hfirst, hlt⟩ := h.slotAt _ _ hslot
  have hodd := h.odd_exit hspan
  rw [LinearOrder.splitGap?_eq_some (by lia), ← Bool.not_eq_true, h.isBlockStart_iff] at hgap
  -- the next instruction is in another block, and that begins with it
  refine hgap.2 ⟨next, hnext, ?_⟩
  have hne : span ≠ next := by
    rintro rfl
    rw [Span.stop] at hlt
    lia
  rcases h.stop_le_or hspan hnext hne with hle | hle
  all_goals
    rw [Span.stop] at hle hlt
    have := h.contiguous.first_lt_stop span hspan
    rw [Span.stop] at this
    lia

/-! ## Edges -/

/-- The move of a register on an edge leads from a piece to a piece. -/
theorem edgeMove?_ensures (liveness : Liveness) (scratch : Location) (exit : Position)
    (target : Span) (r : VReg) :
    Ensures (edgeMove? liveness exit target r) (fun found => ∀ m, found = some m →
      m.Within (Place liveness.lives scratch) (Place liveness.lives scratch)) fun _ => True := by
  rw [edgeMove?]
  split
  · trivial
  · next life hlife =>
    -- the register has a life, a piece that leaves and a piece that enters
    have hmem : life ∈ liveness.lives := List.mem_of_find?_eq_some hlife
    split
    · simp [pure, Except.pure]
    · next before hbefore =>
      split
      · trivial
      · next after hafter =>
        have hbeforeMem : before ∈ life.pieces := by
          rw [Lifetime.pieceBefore?] at hbefore
          split at hbefore
          · exact List.mem_of_find?_eq_some hbefore
          · cases hbefore
        have hafterMem : after ∈ life.pieces := List.mem_of_find?_eq_some hafter
        cases hsource : before.locate with
        | error v => trivial
        | ok source =>
          cases htarget : after.locate with
          | error v => trivial
          | ok target =>
            rintro m hm
            split at hm
            · cases hm
            · cases hm
              exact ⟨.inr ⟨life, hmem, before, hbeforeMem, Interval.locate_eq_ok.1 hsource⟩,
                .inr ⟨life, hmem, after, hafterMem, Interval.locate_eq_ok.1 htarget⟩⟩

/-- The moves on edges lead from and to places. -/
theorem resolveEdges_ensures (order : LinearOrder) (liveness : Liveness) (scratch : Location) :
    Ensures (resolveEdges order liveness scratch) (∀ group ∈ ·, ∀ m ∈ group.moves,
      m.Within (Place liveness.lives scratch) (Place liveness.lives scratch)) fun _ => True := by
  -- one edge: the moves found are put in order, between the same places
  have hedge : ∀ span b, Ensures (edgeMoves? order liveness scratch span b) (fun found =>
      ∀ group, found = some group → ∀ m ∈ group.moves,
        m.Within (Place liveness.lives scratch) (Place liveness.lives scratch)) fun _ => True := by
    intro span b
    rw [edgeMoves?]
    refine Ensures.bind (P := fun _ => True) ?_ fun target _ => ?_
    · cases order.span b <;> trivial
    refine Ensures.bind (Ensures.mapM fun r _ =>
      edgeMove?_ensures liveness scratch (span.last + 1) target r) fun found hfound => ?_
    split
    · simp [pure, Except.pure]
    · refine Ensures.bind (Move.sequence_ensures (S := Place liveness.lives scratch)
        (T := Place liveness.lives scratch) (fun _ h => h) (.inl rfl) fun m hm => ?_)
        fun moves hmoves => ?_
      · obtain ⟨_, hmem, rfl⟩ := List.mem_filterMap.1 hm
        exact hfound _ hmem m rfl
      · rintro group ⟨⟩
        exact hmoves
  rw [resolveEdges]
  refine Ensures.bind (Ensures.mapM fun span _ => Ensures.mapM fun b _ => hedge span b)
    fun found hfound group hgroup => ?_
  obtain ⟨_, hmem, rfl⟩ := List.mem_filterMap.1 hgroup
  obtain ⟨row, hrow, hmem⟩ := List.mem_flatten.1 hmem
  exact hfound row hrow _ hmem group rfl

end RegAlloc
