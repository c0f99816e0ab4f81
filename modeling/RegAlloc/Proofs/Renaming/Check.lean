import Mathlib.Data.List.Basic
import RegAlloc.Proofs.Renaming.Moves

/-!
# The check of an allocation under new names

The check tells places apart by their text, and so it sees a register with the text of a slot
as that slot. It gives the same answer under new names if they leave the texts of slots
alone, besides keeping different names different.

- `Allocation.rename` — an allocation with registers under new names;
- `Relabelling` — the changes of names that the check does not notice;
- `Relabelling.replay` — moves carried out on renamed locations;
- `Relabelling.checkLocations`, `checkOverlaps`, `checkEdges`, `checkGaps`, `verify` — the
  checks.
-/

namespace RegAlloc

variable {f : String → String}

/-- The allocation with registers under new names. -/
def Allocation.rename (f : String → String) (a : Allocation) : Allocation :=
  { a with
    liveness := a.liveness.rename f
    intervals := a.intervals.map (Interval.rename f)
    registers := a.registers.map f
    resolution := a.resolution.rename f }

/-- A change of names that keeps different names different and the texts of slots as they
are. -/
structure Relabelling (f : String → String) : Prop where
  injective : Function.Injective f
  slot : ∀ n, f (Location.slot n).text = (Location.slot n).text

/-- A list without repetitions, under a change that keeps different elements different. -/
theorem eraseDups_map {α β : Type} [BEq α] [LawfulBEq α] [BEq β] [LawfulBEq β] {g : α → β}
    (hg : Function.Injective g) (l : List α) : (l.map g).eraseDups = l.eraseDups.map g := by
  induction hlength : l.length using Nat.strongRecOn generalizing l with
  | ind n ih =>
    cases l with
    | nil => rfl
    | cons x rest =>
      have hrest : (rest.filter fun y => !y == x).length < n := by
        have := List.length_filter_le (fun y => !y == x) rest
        rw [List.length_cons] at hlength
        omega
      rw [List.map_cons, List.eraseDups_cons, List.eraseDups_cons, List.map_cons,
        filter_map_hom g (fun y => congrArg (!·) (beq_map hg y x)), ih _ hrest _ rfl]

namespace Relabelling

variable (hf : Relabelling f)

include hf

theorem text (l : Location) : (l.rename f).text = f l.text := by
  cases l with
  | register name => rfl
  | slot n => exact (hf.slot n).symm

/-! ## Contents -/

theorem get? (contents : Contents) (l : Location) :
    Contents.get? (contents.map (Prod.map f id)) (l.rename f) = contents.get? l := by
  unfold Contents.get?
  rw [hf.text, lookup_mapKeys hf.injective, Option.map_id]
  rfl

theorem put (contents : Contents) (l : Location) (r : VReg) :
    Contents.put (contents.map (Prod.map f id)) (l.rename f) r =
      (contents.put l r).map (Prod.map f id) := by
  unfold Contents.put
  rw [hf.text]
  exact put_mapKeys hf.injective id contents l.text r

theorem move (contents : Contents) (m : Move) :
    Contents.move (contents.map (Prod.map f id)) (m.rename f) =
      renamed f (List.map (Prod.map f id)) (contents.move m) := by
  unfold Contents.move
  have hsource := hf.get? contents m.source
  refine renamed_ite (by rw [← hsource]; rfl) (congrArg Except.ok (hf.put _ _ _)) ?_
  exact congrArg (fun held => Except.error (Violation.staleMove _ _ held)) hsource

theorem replay (contents : Contents) (moves : List Move) :
    Contents.replay (contents.map (Prod.map f id)) (moves.map (Move.rename f)) =
      renamed f (List.map (Prod.map f id)) (contents.replay moves) := by
  exact renamed_foldlM hf.move moves contents

theorem contentsBefore (lives : List Lifetime) (gap : Position) :
    RegAlloc.contentsBefore (lives.map (Lifetime.rename f)) gap =
      (RegAlloc.contentsBefore lives gap).map (Prod.map f id) := by
  unfold RegAlloc.contentsBefore
  refine foldl_map_hom (g := List.map (Prod.map f id)) (fun contents life => ?_) lives []
  rw [Lifetime.pieceBefore?_rename]
  cases life.pieceBefore? gap with
  | none => rfl
  | some i =>
    dsimp only [Option.map_some, Option.bind_some, Interval.rename_location]
    cases i.location with
    | none => rfl
    | some l => exact hf.put contents l _

/-- The moves of the group that a search finds, carried out from the start of their gap. The
groups are those of edges or those of gaps. -/
theorem replay_group {γ : Type} (rename : γ → γ) (moves : γ → List Move)
    (hmoves : ∀ group, moves (rename group) = (moves group).map (Move.rename f)) (p : γ → Bool)
    (hp : ∀ group, p (rename group) = p group) (groups : List γ) (lives : List Lifetime)
    (gap : Position) :
    (RegAlloc.contentsBefore (lives.map (Lifetime.rename f)) gap).replay
        ((((groups.map rename).find? p).map moves).getD []) =
      renamed f (List.map (Prod.map f id)) ((RegAlloc.contentsBefore lives gap).replay
        (((groups.find? p).map moves).getD [])) := by
  have hfound : (((groups.map rename).find? p).map moves).getD [] =
      (((groups.find? p).map moves).getD []).map (Move.rename f) := by
    rw [find?_map_hom rename hp]
    cases groups.find? p with
    | none => rfl
    | some group => exact hmoves group
  rw [hfound, hf.contentsBefore, hf.replay]

/-! ## Pieces -/

theorem checkLocation (a : Allocation) (i : Interval) :
    (a.rename f).checkLocation (i.rename f) = renamedCheck f (a.checkLocation i) := by
  unfold Allocation.checkLocation
  refine renamed_bind i.locate_rename fun l => ?_
  cases l with
  | register name =>
    exact renamed_ite (List.mem_map_of_injective hf.injective) rfl rfl
  | slot n =>
    dsimp only [Location.rename, Interval.rename_uses]
    cases i.uses.find? (·.policy == .register) <;> rfl

theorem checkLocations (a : Allocation) :
    (a.rename f).checkLocations = renamedCheck f a.checkLocations := by
  exact renamed_forM (hf.checkLocation a) a.intervals

omit hf in
theorem checkApart_rename (place : String) (l : List Interval) :
    Allocation.checkApart (f place) (l.map (Interval.rename f)) =
      renamedCheck f (Allocation.checkApart place l) := by
  induction l with
  | nil => rfl
  | cons i rest ih =>
    rw [List.map_cons, Allocation.checkApart, Allocation.checkApart]
    refine renamed_bind (renamed_forM (fun j => ?_) rest) fun _ => ih
    rw [show (i.rename f).firstCommon? (j.rename f) = i.firstCommon? j from rfl]
    cases i.firstCommon? j <;> rfl

theorem isAt (place : String) (i : Interval) :
    Allocation.isAt (f place) (i.rename f) = Allocation.isAt place i := by
  unfold Allocation.isAt
  cases hl : i.location with
  | none => simp [hl]
  | some l => simp [hl, hf.text, hf.injective.eq_iff]

theorem checkOverlaps (a : Allocation) :
    (a.rename f).checkOverlaps = renamedCheck f a.checkOverlaps := by
  unfold Allocation.checkOverlaps
  -- the texts of the places are renamed as the locations are
  have hplaces : ((a.rename f).intervals.filterMap fun i => i.location.map (·.text)) =
      (a.intervals.filterMap fun i => i.location.map (·.text)).map f := by
    show (a.intervals.map (Interval.rename f)).filterMap _ = _
    rw [List.filterMap_map, List.map_filterMap]
    congr 1
    funext i
    cases hl : i.location with
    | none => simp [hl]
    | some l => simp [hl, hf.text]
  dsimp only
  rw [hplaces, eraseDups_map hf.injective]
  refine renamed_forM (fun place => ?_) _
  show Allocation.checkApart (f place) ((a.intervals.map (Interval.rename f)).filter _) = _
  rw [filter_map_hom (Interval.rename f) (hf.isAt place), checkApart_rename]

/-! ## Moves -/

theorem checkArrival (a : Allocation) (edge : Edge) (exit entry : Position) (contents : Contents)
    (r : VReg) : (a.rename f).checkArrival edge exit entry (contents.map (Prod.map f id)) r =
      renamedCheck f (a.checkArrival edge exit entry contents r) := by
  unfold Allocation.checkArrival
  rw [show (a.rename f).liveness.life? r = _ from a.liveness.life?_rename r]
  -- the check looks up a life, a piece on each side and a location, and only the last has a name
  cases a.liveness.life? r with
  | none => rfl
  | some life =>
    dsimp only [Option.map_some]
    rw [Lifetime.pieceBefore?_rename, Lifetime.pieceAt?_rename]
    refine renamed_ite (by rw [Option.isNone_map]) rfl ?_
    cases life.pieceAt? entry with
    | none => rfl
    | some i =>
      dsimp only [Option.map_some, Option.bind_some, Interval.rename_location]
      cases i.location with
      | none => rfl
      | some target => exact renamed_ite (by rw [hf.get?]) rfl rfl

theorem checkEdge (a : Allocation) (span : Span) (b : BlockId) :
    (a.rename f).checkEdge span b = renamedCheck f (a.checkEdge span b) := by
  unfold Allocation.checkEdge
  refine renamed_bind (a.order.span_rename b) fun target => ?_
  refine renamed_bind (hf.replay_group (EdgeMoves.rename f) (·.moves) (fun _ => rfl) _
    (fun _ => rfl) a.resolution.edges a.liveness.lives _) fun contents => ?_
  exact renamed_forM_self (hf.checkArrival a _ _ _ contents) (a.liveness.liveInto b)

theorem checkEdges (a : Allocation) : (a.rename f).checkEdges = renamedCheck f a.checkEdges := by
  exact renamed_forM_self (fun span => renamed_forM_self (hf.checkEdge a span) _) a.order.spans

theorem checkBridge (a : Allocation) (r : VReg) (i j : Interval) :
    (a.rename f).checkBridge r (i.rename f) (j.rename f) =
      renamedCheck f (a.checkBridge r i j) := by
  unfold Allocation.checkBridge
  refine renamed_ite (by rw [Interval.rename_touches]) rfl ?_
  rw [show (a.rename f).order = a.order from rfl, Interval.rename_start]
  cases a.order.splitGap? j.start with
  | none => rfl
  | some gap =>
    refine renamed_bind (hf.replay_group (GapMoves.rename f) (·.moves) (fun _ => rfl) _
      (fun _ => rfl) a.resolution.gaps a.liveness.lives gap) fun contents => ?_
    refine renamed_bind j.locate_rename fun target => ?_
    exact renamed_ite (by rw [hf.get?]) rfl rfl

theorem checkGaps (a : Allocation) : (a.rename f).checkGaps = renamedCheck f a.checkGaps := by
  unfold Allocation.checkGaps
  refine renamed_forM (fun life => ?_) a.liveness.lives
  rw [Lifetime.neighbours_rename]
  exact renamed_forM (fun pair => hf.checkBridge a life.register pair.1 pair.2) _

/-- A renamed allocation passes the check, or fails it for the renamed cause. -/
theorem verify (a : Allocation) : (a.rename f).verify = renamedCheck f a.verify := by
  exact renamed_bind (hf.checkLocations a) fun _ => renamed_bind (hf.checkOverlaps a) fun _ =>
    renamed_bind (hf.checkEdges a) fun _ => hf.checkGaps a

end Relabelling

end RegAlloc
