import Mathlib.Data.List.InsertIdx
import RegAlloc.Proofs.Renaming.Basic

/-!
# A sweep under new names

A sweep compares registers only to find those that are free and those in which a piece
would be in the way of another. So a sweep of renamed lifetimes over the renamed pool goes
through the renamed states, step by step, and ends with the renamed result.

- `Sweep.rename`, `Sweep.Setup.rename`, `Swept.rename` — the action on states and results;
- `Sweep.advance_rename`, `choose_rename`, `assign_rename`, `makeRoom_rename` — the parts of a
  step;
- `Sweep.step_rename`, `run_rename` — a step and a run;
- `sweep_rename` — the whole.
-/

namespace RegAlloc

variable {f : String → String}

namespace Sweep

/-- A state with all intervals in renamed locations. -/
def rename (f : String → String) (s : Sweep) : Sweep :=
  { s with
    waiting := s.waiting.map (Interval.rename f)
    active := s.active.map (Interval.rename f)
    inactive := s.inactive.map (Interval.rename f)
    done := s.done.map (Interval.rename f) }

/-- The same setup with the pool renamed. -/
def Setup.rename (f : String → String) (setup : Setup) : Setup :=
  { setup with pool := setup.pool.map f }

/-- The same candidate in its renamed location. -/
def Candidate.rename (f : String → String) (c : Candidate) : Candidate :=
  { c with interval := c.interval.rename f }

/-! ## Moving on -/

theorem enqueue_rename (s : Sweep) (i : Interval) :
    (s.rename f).enqueue (i.rename f) = (s.enqueue i).rename f := by
  have hline : insertBefore (takenBefore (i.rename f)) (i.rename f)
      (s.waiting.map (Interval.rename f)) =
      (insertBefore (takenBefore i) i s.waiting).map (Interval.rename f) :=
    insertBefore_map i (fun _ => rfl) s.waiting
  simp only [enqueue, rename, hline]

/-- Finishing one side of a cut and putting the other in line. -/
theorem finish_rename (s : Sweep) (kept rest : Interval) :
    ({ s.rename f with
        done := (s.rename f).done ++ [kept.rename f]
        nextId := (s.rename f).nextId + 1 } : Sweep).enqueue (rest.rename f) =
      ({ s with done := s.done ++ [kept], nextId := s.nextId + 1 }.enqueue rest).rename f := by
  rw [← enqueue_rename]
  simp [rename]

theorem registerOf_rename (i : Interval) :
    registerOf (i.rename f) = renamed f f (registerOf i) := by
  simp only [registerOf, Interval.register?_rename]
  cases i.register? <;> rfl

theorem isFree_rename (hf : Function.Injective f) (s : Sweep) (name : String) :
    (s.rename f).isFree (f name) = s.isFree name := by
  simp [isFree, rename, Function.comp_def, Interval.isIn_rename hf]

theorem rivals_rename (hf : Function.Injective f) (s : Sweep) (name : String) (i : Interval) :
    (s.rename f).rivals (f name) (i.rename f) = (s.rivals name i).map (Interval.rename f) := by
  simp [rivals, rename, List.filter_map, Function.comp_def, Interval.isIn_rename hf]

theorem wake_rename (hf : Function.Injective f) (p : Position) (s : Sweep) (i : Interval) :
    wake p (s.rename f) (i.rename f) = renamed f (rename f) (wake p s i) := by
  unfold wake
  refine renamed_ite Iff.rfl (by simp [rename]) (renamed_ite Iff.rfl ?_ (by simp [rename]))
  refine renamed_bind (registerOf_rename i) fun name => ?_
  exact renamed_ite (by rw [isFree_rename hf]) (by simp [rename]) rfl

theorem advance_rename (hf : Function.Injective f) (s : Sweep) (p : Position) :
    (s.rename f).advance p = renamed f (rename f) (s.advance p) := by
  unfold advance
  refine renamed_bind (g := id) ?_ fun _ => ?_
  · simp only [rename, ← List.map_append]
    refine renamed_forM (fun i => ?_) _
    rw [registerOf_rename]
    cases registerOf i <;> rfl
  · simp only [rename, List.filter_map, ← List.map_append]
    exact renamed_foldlM (wake_rename hf p) _
      { s with
        active := (s.active.filter (p < ·.stop)).filter (·.covers p)
        inactive := []
        done := s.done ++ s.active.filter (·.stop ≤ p) }

theorem releaseSlots_rename (s : Sweep) (setup : Setup) (p : Position) :
    (s.rename f).releaseSlots (setup.rename f) p = (s.releaseSlots setup p).rename f := rfl

theorem homeSlot_rename (s : Sweep) (r : VReg) :
    (s.rename f).homeSlot r = ((s.homeSlot r).1.rename f, (s.homeSlot r).2) := by
  simp only [homeSlot, rename]
  cases s.homes.lookup r <;> rfl

/-! ## Taking a register -/

theorem displace_rename (p : Position) (s : Sweep) (rival : Interval) :
    displace p (s.rename f) (rival.rename f) = renamed f (rename f) (displace p s rival) := by
  unfold displace
  rw [show (rival.rename f).nextRangeStart? p = rival.nextRangeStart? p from rfl]
  cases rival.nextRangeStart? p with
  | none => rfl
  | some resume =>
    exact renamed_bind (rival.split_rename resume s.nextId) fun (kept, rest) =>
      congrArg Except.ok (finish_rename s kept rest)

theorem assign_rename (hf : Function.Injective f) (s : Sweep) (current : Interval)
    (name : String) (p : Position) :
    (s.rename f).assign (current.rename f) (f name) p =
      renamed f (rename f) (s.assign current name p) := by
  unfold assign
  dsimp only
  rw [rivals_rename hf]
  refine renamed_bind (g := rename f) ?_ fun s' => ?_
  · have hothers : (s.rename f).inactive.filter
        (fun i => !(i.isIn (f name) && i.meets (current.rename f))) =
        (s.inactive.filter fun i => !(i.isIn name && i.meets current)).map (Interval.rename f) :=
      filter_map_hom _ (fun i => by rw [Interval.isIn_rename hf, Interval.rename_meets]) _
    rw [hothers]
    exact renamed_foldlM (displace_rename p) _
      { s with inactive := s.inactive.filter fun i => !(i.isIn name && i.meets current) }
  · simp only [rename, renamed_pure, List.map_append]
    rfl

theorem hint?_rename (s : Sweep) (current : Interval) :
    (s.rename f).hint? (current.rename f) = (s.hint? current).map f := by
  unfold hint?
  simp only [rename, ← List.map_append]
  rw [filter_map_hom (Interval.rename f)
    (p := fun i => i.register == current.register && i.start < current.start &&
      i.register?.isSome) fun i => by rw [Interval.register?_rename, Option.isSome_map]; rfl]
  generalize (s.done ++ s.active ++ s.inactive).filter _ = earlier
  have hregister : ∀ best : Option Interval,
      (best.map (Interval.rename f)).bind (·.register?) = (best.bind (·.register?)).map f := by
    rintro (_ | i)
    · rfl
    · exact i.register?_rename
  -- the nearest piece is found by its start
  refine (congrArg (Option.bind · (·.register?)) (foldl_map_hom
    (g := Option.map (Interval.rename f)) (h := Interval.rename f) ?_ earlier none)).trans
      (hregister _)
  rintro (_ | b) i
  · rfl
  · exact (apply_ite (Option.map (Interval.rename f)) (b.start < i.start) (some i) (some b)).symm

theorem choose_rename (hf : Function.Injective f) (s : Sweep) (current : Interval)
    (free : List String) :
    (s.rename f).choose (current.rename f) (free.map f) = (s.choose current free).map f := by
  have hclear : ∀ name, ((s.rename f).rivals (f name) (current.rename f)).isEmpty =
      (s.rivals name current).isEmpty := fun name => by rw [rivals_rename hf, List.isEmpty_map]
  have hsuits : ((fun name => (free.map f).contains name &&
      ((s.rename f).rivals name (current.rename f)).isEmpty) ∘ f) =
      fun name => free.contains name && (s.rivals name current).isEmpty := by
    funext name
    simp [hclear, hf.eq_iff]
  unfold choose
  simp only [hint?_rename, Option.filter_map, hsuits]
  -- the hint if it suits, else the first register that is clear, else the first that is free
  cases (s.hint? current).filter fun name =>
      free.contains name && (s.rivals name current).isEmpty with
  | some name => rfl
  | none =>
    have hfirst : (free.map f).find?
        (fun name => ((s.rename f).rivals name (current.rename f)).isEmpty) =
        (free.find? fun name => (s.rivals name current).isEmpty).map f :=
      find?_map_hom f hclear free
    simp only [Option.map_none]
    rw [hfirst, List.head?_map]
    cases free.find? fun name => (s.rivals name current).isEmpty <;> rfl

/-! ## Making room -/

theorem victim_rename (s : Sweep) (current : Interval) (p : Position) :
    (s.rename f).victim (current.rename f) p =
      Prod.map id (Candidate.rename f) (s.victim current p) := by
  unfold victim
  simp only [rename, List.zipIdx_map]
  refine foldl_map_hom (g := Prod.map id (Candidate.rename f))
    (h := Prod.map (Interval.rename f) id) ?_ s.active.zipIdx (none, ⟨current, _⟩)
  rintro ⟨chosen, best⟩ ⟨i, index⟩
  exact (apply_ite (Prod.map id (Candidate.rename f))
    (Candidate.outranks ⟨i, i.nextRegisterUse? (evictBy current p)⟩ best = true)
    (some index, ⟨i, _⟩) (chosen, best)).symm

theorem checkRoom_rename (nextUse : Option Position) (spillFrom : Position) :
    checkRoom nextUse spillFrom = renamedCheck f (checkRoom nextUse spillFrom) := by
  unfold checkRoom
  cases nextUse with
  | none => rfl
  | some use => exact renamed_ite Iff.rfl rfl rfl

theorem spill_rename (s : Sweep) (setup : Setup) (i : Interval) (nextUse : Option Position)
    (p : Position) : (s.rename f).spill (setup.rename f) (i.rename f) nextUse p =
      renamed f (rename f) (s.spill setup i nextUse p) := by
  unfold spill
  rw [Interval.rename_register, homeSlot_rename]
  dsimp only
  generalize s.homeSlot i.register = home
  obtain ⟨s, slot⟩ := home
  cases nextUse with
  | none =>
    simp only [rename, renamed_pure, List.map_append]
    rfl
  | some use =>
    refine renamed_bind (Interval.split_rename { i with location := some (.slot slot) } _ _)
      fun (kept, rest) => ?_
    exact congrArg Except.ok (finish_rename s kept rest)

theorem evict_rename (s : Sweep) (setup : Setup) (i : Interval) (limit : Position)
    (nextUse : Option Position) (p : Position) :
    (s.rename f).evict (setup.rename f) (i.rename f) limit nextUse p =
      renamed f (rename f) (s.evict setup i limit nextUse p) := by
  unfold evict
  refine renamed_ite Iff.rfl (spill_rename s setup i nextUse p) ?_
  refine renamed_bind (i.split_rename _ _) fun (kept, rest) => ?_
  have hfinish : ({ s.rename f with
      done := (s.rename f).done ++ [kept.rename f], nextId := s.nextId + 1 } : Sweep) =
      rename f { s with done := s.done ++ [kept], nextId := s.nextId + 1 } := by simp [rename]
  exact (congrArg (spill · (setup.rename f) (rest.rename f) nextUse p) hfinish).trans
    (spill_rename _ setup rest nextUse p)

theorem makeRoom_rename (hf : Function.Injective f) (s : Sweep) (setup : Setup)
    (current : Interval) (p : Position) :
    (s.rename f).makeRoom (setup.rename f) (current.rename f) p =
      renamed f (rename f) (s.makeRoom setup current p) := by
  unfold makeRoom
  rw [victim_rename]
  dsimp only
  obtain ⟨_ | index, candidate⟩ := s.victim current p
  · exact renamed_bind (checkRoom_rename ..) fun _ => spill_rename s setup current _ p
  · refine renamed_bind (checkRoom_rename ..) fun _ => ?_
    refine renamed_bind (registerOf_rename candidate.interval) fun name => ?_
    have hpicked : ({ s.rename f with active := (s.rename f).active.eraseIdx index } : Sweep) =
        rename f { s with active := s.active.eraseIdx index } := by
      simp [rename, List.eraseIdx_map]
    refine renamed_bind (g := rename f) ?_ fun s' => assign_rename hf s' current name p
    exact (congrArg (evict · (setup.rename f) (candidate.interval.rename f) _ candidate.nextUse p)
      hpicked).trans (evict_rename _ setup candidate.interval _ candidate.nextUse p)

/-! ## Steps and runs -/

theorem step_rename (hf : Function.Injective f) (setup : Setup) (s : Sweep) (current : Interval) :
    step (setup.rename f) (s.rename f) (current.rename f) =
      renamed f (rename f) (step setup s current) := by
  unfold step
  refine renamed_bind (advance_rename hf s current.start) fun s => ?_
  dsimp only
  rw [Interval.rename_start, releaseSlots_rename]
  generalize s.releaseSlots setup current.start = s
  have hfree : (setup.rename f).pool.filter (s.rename f).isFree =
      (setup.pool.filter s.isFree).map f := filter_map_hom f (isFree_rename hf s) _
  rw [hfree, choose_rename hf]
  cases s.choose current (setup.pool.filter s.isFree) with
  | none => exact makeRoom_rename hf s setup current current.start
  | some name => exact assign_rename hf s current name current.start

theorem run_rename (hf : Function.Injective f) (setup : Setup) (fuel : Nat) (s : Sweep) :
    run (setup.rename f) fuel (s.rename f) = renamed f (rename f) (run setup fuel s) := by
  induction fuel generalizing s with
  | zero =>
    unfold run
    exact renamed_ite (by simp [rename]) rfl rfl
  | succ fuel ih =>
    unfold run
    rw [show (s.rename f).waiting = s.waiting.map (Interval.rename f) from rfl]
    cases s.waiting with
    | nil => rfl
    | cons current waiting =>
      exact renamed_bind (step_rename hf setup { s with waiting } current) ih

/-! ## The whole -/

theorem lineUp_rename (roots : List Interval) :
    lineUp (roots.map (Interval.rename f)) = renamed f (rename f) (lineUp roots) := by
  unfold lineUp
  rw [meetingOrder_map fun _ _ => rfl]
  refine renamed_bind (renamed_forM (·.checkNonempty_rename) _) fun _ => ?_
  rw [sortBy_map fun _ _ => rfl, List.length_map]
  rfl

theorem placed_rename (s : Sweep) : (s.rename f).placed = s.placed.map (Interval.rename f) := by
  unfold placed
  simp only [rename, ← List.map_append]
  exact sortBy_map (fun _ _ => rfl) _

theorem insertPiece_rename (life : Lifetime) (i : Interval) :
    (life.rename f).insertPiece (i.rename f) = (life.insertPiece i).rename f := by
  have hchildren : insertBefore (Lifetime.startsAfter (i.rename f)) (i.rename f)
      (life.children.map (Interval.rename f)) =
      (insertBefore (Lifetime.startsAfter i) i life.children).map (Interval.rename f) :=
    insertBefore_map i (fun _ => rfl) life.children
  simp only [Lifetime.insertPiece, Lifetime.rename, hchildren]

theorem collect_rename (placed : List Interval) (life : Lifetime) :
    collect (placed.map (Interval.rename f)) (life.rename f) = (collect placed life).rename f := by
  unfold collect
  dsimp only
  rw [filter_map_hom (Interval.rename f) (p := (·.register == life.register)) fun _ => rfl]
  generalize placed.filter (·.register == life.register) = own
  rw [filter_map_hom (Interval.rename f) (p := (·.origin != .whole)) fun _ => rfl,
    find?_map_hom (Interval.rename f) (p := (·.origin == .whole)) fun _ => rfl,
    show (life.rename f).root = life.root.rename f from rfl, Option.getD_map]
  exact foldl_map_hom (g := Lifetime.rename f) (h := Interval.rename f) insertPiece_rename _
    { life with root := (own.find? (·.origin == .whole)).getD life.root }

end Sweep

/-- The result of a sweep, with all pieces in renamed locations. -/
def Swept.rename (f : String → String) (swept : Swept) : Swept :=
  { swept with
    lives := swept.lives.map (Lifetime.rename f)
    intervals := swept.intervals.map (Interval.rename f) }

/-- A sweep of renamed lifetimes over the renamed pool has the renamed result. -/
theorem sweep_rename (hf : Function.Injective f) (order : LinearOrder) (lives : List Lifetime)
    (pool : List String) : sweep order (lives.map (Lifetime.rename f)) (pool.map f) =
      renamed f (Swept.rename f) (sweep order lives pool) := by
  -- neither the ends nor the number of steps has a name in it
  have hends : ((lives.map (·.root)).map (Interval.rename f)).map (fun i => (i.register, i.stop)) =
      (lives.map (·.root)).map fun i => (i.register, i.stop) := List.map_map
  have hcoverage : Sweep.coverage ((lives.map (·.root)).map (Interval.rename f)) =
      Sweep.coverage (lives.map (·.root)) := List.foldr_map
  unfold sweep
  simp only [roots_rename, hends, hcoverage]
  refine renamed_bind (Sweep.lineUp_rename _) fun s => ?_
  refine renamed_bind (Sweep.run_rename hf { order, pool, ends := _ } _ s) fun s => ?_
  have hlives : (lives.map (Lifetime.rename f)).map
      (Sweep.collect (s.placed.map (Interval.rename f))) =
      (lives.map (Sweep.collect s.placed)).map (Lifetime.rename f) := by
    rw [List.map_map, List.map_map]
    exact List.map_congr_left fun life _ => Sweep.collect_rename s.placed life
  rw [Sweep.placed_rename, hlives]
  rfl

end RegAlloc
