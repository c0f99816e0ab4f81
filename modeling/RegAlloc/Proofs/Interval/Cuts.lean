import RegAlloc.Proofs.Action
import RegAlloc.Proofs.Interval.Canonical
import RegAlloc.Proofs.Liveness.Track
import RegAlloc.Proofs.Sweep.Pieces

/-!
# Cuts divide a lifetime

A cut strictly inside a piece leaves the piece with what lies before it and puts the rest, as a
new piece, right behind it in the list; all other pieces stay as they are. So whatever pieces are
cut, in whatever order, the pieces of a lifetime stand one behind the other and share out among
them the positions and the uses of the interval that was there first. Any other cut is refused.

- `Lifetime.Cut`, `Lifetime.run` — cuts as data, one after the other;
- `Lifetime.CutFrom` — a lifetime that some cuts make of an interval;
- `Laid.pieces_cut` — what one cut does to the list of pieces;
- `Lifetime.Divides` — the pieces share out an interval among them;
- `Divides.after`, `CutFrom.divides` — one cut and a sequence of cuts keep it so;
- `cuts_divide` — all of it about an interval that is built.
-/

namespace RegAlloc

/-! ## The two sides of a cut -/

namespace Interval

variable {i : Interval} {p : Position}

/-- The uses before a cut, followed by those from it on, are all uses. -/
theorem uses_keepBefore_append (h : i.Used) (p : Position) (id : IntervalId) :
    (i.keepBefore p).uses ++ (i.cutOff p id).uses = i.uses := by
  have hsorted := h.sorted
  show i.uses.filter (·.position < p) ++ i.uses.filter (p ≤ ·.position) = i.uses
  generalize i.uses = uses at hsorted
  induction uses with
  | nil => rfl
  | cons u uses ih =>
    obtain ⟨hu, hrest⟩ := List.pairwise_cons.1 hsorted
    by_cases hlt : u.position < p
    · rw [List.filter_cons_of_pos (by simpa using hlt),
        List.filter_cons_of_neg (by simpa using hlt), List.cons_append, ih hrest]
    · -- the uses are in order, so the others are behind the cut as well
      have hnone : (u :: uses).filter (·.position < p) = [] := by
        refine List.filter_eq_nil_iff.2 fun v hv => ?_
        have hle : u.position ≤ v.position := by
          rcases List.mem_cons.1 hv with rfl | hv
          · exact Int.le_refl _
          · exact hu v hv
        simp only [decide_eq_true_eq]
        lia
      have hall : (u :: uses).filter (p ≤ ·.position) = u :: uses := by
        refine List.filter_eq_self.2 fun v hv => ?_
        have := List.filter_eq_nil_iff.1 hnone v hv
        simp only [decide_eq_true_eq] at this ⊢
        lia
      rw [hnone, hall, List.nil_append]

theorem start_cutOff_lt (h : i.Shaped) (hp : p < i.stop) (id : IntervalId) :
    (i.cutOff p id).start < i.stop :=
  lt_stop h (covers_cutOff.1 (covers_start (shaped_cutOff h hp id))).1

theorem stop_cutOff_le (h : i.Shaped) (hp : p < i.stop) (id : IntervalId) :
    (i.cutOff p id).stop ≤ i.stop :=
  stop_le (shaped_cutOff h hp id) fun _ hx => lt_stop h (covers_cutOff.1 hx).1

/-- A well-shaped interval has the ends that its ranges show. -/
theorem ends_of_shaped (h : i.Shaped) : i.start? = some i.start ∧ i.stop? = some i.stop := by
  obtain ⟨r, rest, hr⟩ := List.exists_cons_of_ne_nil h.nonempty
  obtain ⟨s, -, hlast, hstop⟩ := exists_last h
  exact ⟨by simp [start, start?, hr], by rw [stop?, hlast, Option.map_some, hstop]⟩

/-- An interval that is built is a new one, but for its ranges and uses. -/
theorem Built.eq_new (h : i.Built) :
    i = { id := i.id, register := i.register, ranges := i.ranges, uses := i.uses } := by
  have hnew : i.origin = .whole ∧ i.location = none :=
    h.induction (P := fun i => i.origin = .whole ∧ i.location = none) (fun _ _ => ⟨rfl, rfl⟩)
      (fun _ _ _ _ hi => hi) (fun _ _ hi => hi) fun _ _ hi => hi
  rw [← hnew.1, ← hnew.2]

/-- The uses of an interval that is built are in order. -/
theorem Built.sorted (h : i.Built) : i.uses.Pairwise fun u v => u.position ≤ v.position :=
  h.induction (P := fun i => i.uses.Pairwise fun u v => u.position ≤ v.position)
    (fun _ _ => .nil) (fun _ _ _ _ hi => hi) (fun _ _ hi => hi)
    fun _ _ hi => Track.insertUse_sorted hi

end Interval

/-! ## One cut -/

namespace Lifetime

/-- A cut that is asked for: the index of a piece, a position, and the id of the new piece. -/
structure Cut where
  piece : Nat
  position : Position
  id : IntervalId
  deriving DecidableEq, Repr

/-- The lifetime that a cut leaves, refused or not. -/
def after (life : Lifetime) (cut : Cut) : Lifetime :=
  (Lifetime.cut cut.piece cut.position cut.id).leaves life

/-- The lifetime after a sequence of cuts, some of which may be refused. -/
def run (life : Lifetime) (cuts : List Cut) : Lifetime := cuts.foldl after life

/-- A lifetime that some sequence of cuts makes of an interval. -/
def CutFrom (life : Lifetime) (whole : Interval) : Prop := ∃ cuts, life = run { root := whole } cuts

variable {life next : Lifetime} {whole piece : Interval} {p : Position} {id : IntervalId}
  {front behind : List Interval} {k : Nat}

theorem pieces_modifyPiece (f : Interval → Interval) :
    (life.modifyPiece k f).pieces = life.pieces.modify k f := by
  cases k with
  | zero => rfl
  | succ k => rfl

/-- A new piece that does not belong before the root is put in its place among all pieces. -/
theorem pieces_insertPiece {child : Interval} (h : startsAfter child life.root = false) :
    (life.insertPiece child).pieces = insertBefore (startsAfter child) child life.pieces := by
  simp [insertPiece, pieces, insertBefore, h]

/-- A cut looks up its piece and tries to cut it before it changes anything. -/
theorem careful_cut (k : Nat) (p : Position) (id : IntervalId) : Action.Careful (cut k p id) := by
  refine Action.Careful.ask fun piece => ?_
  refine Action.Careful.ask fun _ => ?_
  rintro life v left ⟨⟩

theorem after_of_error {v : Violation} (h : life.split k p id = .error v) :
    life.after ⟨k, p, id⟩ = life :=
  (careful_cut k p id).leaves_eq h

theorem after_of_ok {index : Nat} (h : life.split k p id = .ok (next, index)) :
    life.after ⟨k, p, id⟩ = next :=
  Action.leaves_of_on h

/-- What a cut comes to: the piece is looked up and cut, and then both parts are put in place. -/
theorem split_of_piece (hpiece : life.pieces[k]? = some piece) :
    life.split k p id = piece.split p id >>= fun parts =>
      let rest := life.modifyPiece k fun _ => parts.1
      .ok (rest.insertPiece parts.2, rest.pieceIndex parts.2) := by
  refine (Action.on_ask _ _ life).trans ?_
  rw [findPiece, hpiece]
  exact Action.on_ask _ _ life

theorem split_of_none (hpiece : life.pieces[k]? = none) :
    life.split k p id = .error (.noPiece k) := by
  refine (Action.on_ask _ _ life).trans ?_
  rw [findPiece, hpiece]
  rfl

/-- A piece can be cut strictly inside, and nowhere else. -/
theorem split_eq (hpiece : life.pieces[k]? = some piece) (hshaped : piece.Shaped) :
    life.split k p id = if piece.start < p ∧ p < piece.stop then
        let rest := life.modifyPiece k fun _ => piece.keepBefore p
        .ok (rest.insertPiece (piece.cutOff p id), rest.pieceIndex (piece.cutOff p id))
      else .error (.cannotSplit piece.id piece.start piece.stop p) := by
  rw [split_of_piece hpiece, Interval.split_eq hshaped]
  split
  · rfl
  · rfl

namespace Laid

/-- What is cut off from a piece is put right behind what the piece keeps. -/
theorem pieces_cut (h : life.Laid) (hpieces : life.pieces = front ++ piece :: behind)
    (hstart : piece.start < p) (hstop : p < piece.stop) (id : IntervalId) :
    ((life.modifyPiece front.length fun _ => piece.keepBefore p).insertPiece
        (piece.cutOff p id)).pieces =
      front ++ piece.keepBefore p :: piece.cutOff p id :: behind := by
  have hshaped : piece.Shaped := h.shaped piece (by simp [hpieces])
  obtain ⟨-, hbehind, hfront⟩ := List.pairwise_append.1 (hpieces ▸ h.ordered)
  -- the new piece starts behind the cut, and before the old one stopped
  have hchild := Interval.le_start_cutOff hshaped hstop id
  have hchild' := Interval.start_cutOff_lt hshaped hstop id
  -- the pieces before the cut start earlier, and so does the front
  have hearlier : ∀ y ∈ front ++ [piece.keepBefore p],
      startsAfter (piece.cutOff p id) y = false := by
    intro y hy
    have hle : y.start ≤ piece.start := by
      rcases List.mem_append.1 hy with hy | hy
      · have := hfront y hy piece (by simp)
        have := Interval.start_lt_stop (h.shaped y (by simp [hpieces, hy]))
        lia
      · rw [List.mem_singleton.1 hy]
        exact Int.le_of_eq (Interval.start_keepBefore hshaped hstart)
    simp only [startsAfter, decide_eq_false_iff_not]
    lia
  -- the pieces behind start where the old piece stopped, or later
  have hlater : ∀ y ∈ behind, startsAfter (piece.cutOff p id) y = true := by
    intro y hy
    have := (List.pairwise_cons.1 hbehind).1 y hy
    simp only [startsAfter, decide_eq_true_eq]
    lia
  have hkept : (life.modifyPiece front.length fun _ => piece.keepBefore p).pieces =
      (front ++ [piece.keepBefore p]) ++ behind := by
    rw [pieces_modifyPiece, hpieces, List.modify_eq_take_cons_drop (by simp), List.take_left,
      ← List.drop_drop, List.drop_left, ← List.append_cons]
    rfl
  -- the root stays first, since the front of a piece starts where the piece did
  have hhead := congrArg List.head? hkept
  rw [List.head?_append_of_ne_nil _ (by simp)] at hhead
  rw [pieces_insertPiece (hearlier _ (List.mem_of_head? hhead.symm)), hkept,
    insertBefore_append _ hearlier hlater, ← List.append_cons]

end Laid

/-! ## Sequences of cuts -/

/-- The pieces of a lifetime share out an interval among them. -/
structure Divides (life : Lifetime) (whole : Interval) : Prop extends Laid life where
  covers : ∀ p, (∃ i ∈ life.pieces, i.covers p = true) ↔ whole.covers p = true
  used : ∀ i ∈ life.pieces, i.Used
  uses : life.pieces.flatMap (·.uses) = whole.uses

namespace Divides

/-- An interval that was not cut is its own only piece. -/
theorem uncut (hshaped : whole.Shaped) (hused : whole.Used) : Divides { root := whole } whole where
  shaped := by simpa [pieces] using hshaped
  ordered := by simp [pieces]
  register := by simp [pieces, Lifetime.register]
  covers p := by simp [pieces]
  used := by simpa [pieces] using hused
  uses := by simp [pieces]

/-- Two parts of a piece in its place share out what it had. -/
theorem cut (h : life.Divides whole) (hpieces : life.pieces = front ++ piece :: behind)
    (hnext : next.pieces = front ++ piece.keepBefore p :: piece.cutOff p id :: behind)
    (hstart : piece.start < p) (hstop : p < piece.stop) : next.Divides whole := by
  have hmem : piece ∈ life.pieces := by simp [hpieces]
  have hshaped := h.shaped piece hmem
  have hused := h.used piece hmem
  have hkept := Interval.stop_keepBefore_le hshaped hstart
  have hkept' := Interval.start_keepBefore hshaped hstart
  have hchild := Interval.le_start_cutOff hshaped hstop id
  have hchild' := Interval.stop_cutOff_le hshaped hstop id
  -- what holds of all pieces still holds if it holds of the two parts
  have hall : ∀ {P : Interval → Prop}, (∀ i ∈ life.pieces, P i) → P (piece.keepBefore p) →
      P (piece.cutOff p id) → ∀ i ∈ next.pieces, P i := by
    intro P hP hkeep hcut i hi
    rw [hnext, List.mem_append, List.mem_cons, List.mem_cons] at hi
    rcases hi with hi | rfl | rfl | hi
    · exact hP i (by simp [hpieces, hi])
    · exact hkeep
    · exact hcut
    · exact hP i (by simp [hpieces, hi])
  have hregister : ∀ i ∈ next.pieces, i.register = life.register :=
    hall h.register (h.register piece hmem) (h.register piece hmem)
  refine
    { shaped := hall h.shaped (Interval.shaped_keepBefore hshaped hstart)
        (Interval.shaped_cutOff hshaped hstop id)
      ordered := ?ordered
      register := fun i hi => (hregister i hi).trans (hregister next.root (by simp [pieces])).symm
      covers := fun q => ?covers
      used := hall h.used (Interval.used_keepBefore hused p) (Interval.used_cutOff hused p id)
      uses := ?uses }
  -- the two parts take the place of the piece that they were cut from
  case ordered =>
    obtain ⟨hfront, hrest, hacross⟩ := List.pairwise_append.1 (hpieces ▸ h.ordered)
    obtain ⟨hpiece, hbehind⟩ := List.pairwise_cons.1 hrest
    rw [hnext]
    refine List.pairwise_append.2 ⟨hfront, List.pairwise_cons.2 ⟨fun y hy => ?_,
      List.pairwise_cons.2 ⟨fun y hy => ?_, hbehind⟩⟩, fun x hx y hy => ?_⟩
    · rcases List.mem_cons.1 hy with rfl | hy
      · lia
      · have := hpiece y hy
        lia
    · have := hpiece y hy
      lia
    · have hle := hacross x hx piece (by simp)
      rcases List.mem_cons.1 hy with rfl | hy
      · lia
      rcases List.mem_cons.1 hy with rfl | hy
      · lia
      · exact hacross x hx y (by simp [hy])
  case covers =>
    rw [← h.covers q, hpieces, hnext]
    simp only [List.mem_append, List.mem_cons, or_and_right, exists_or, exists_eq_left,
      Interval.covers_keepBefore, Interval.covers_cutOff]
    have hside := Int.lt_or_le q p
    grind
  case uses =>
    rw [← h.uses, hpieces, hnext, List.flatMap_append, List.flatMap_append, List.flatMap_cons,
      List.flatMap_cons, List.flatMap_cons, ← List.append_assoc (piece.keepBefore p).uses,
      Interval.uses_keepBefore_append hused]

/-- Every cut keeps the pieces dividing the interval, carried out or refused. -/
theorem after (h : life.Divides whole) (cut : Cut) : (life.after cut).Divides whole := by
  cases hsplit : life.split cut.piece cut.position cut.id with
  -- a refused cut leaves everything as it was
  | error v =>
    rw [after_of_error hsplit]
    exact h
  | ok answer =>
    rw [after_of_ok hsplit]
    -- the piece is there, and the cut is inside
    cases hpiece : life.pieces[cut.piece]? with
    | none =>
      rw [split_of_none hpiece] at hsplit
      cases hsplit
    | some piece =>
      obtain ⟨hk, hget⟩ := List.getElem?_eq_some_iff.1 hpiece
      have hpieces : life.pieces =
          life.pieces.take cut.piece ++ piece :: life.pieces.drop (cut.piece + 1) := by
        rw [← hget, List.getElem_cons_drop, List.take_append_drop]
      have hlength : (life.pieces.take cut.piece).length = cut.piece := by
        rw [List.length_take]
        lia
      rw [split_eq hpiece (h.shaped piece (List.mem_of_getElem? hpiece))] at hsplit
      split at hsplit
      · next hinside =>
        cases hsplit
        have hcut := h.pieces_cut hpieces hinside.1 hinside.2 cut.id
        rw [hlength] at hcut
        exact h.cut hpieces hcut hinside.1 hinside.2
      · cases hsplit

/-- Pieces that share out an interval start one behind the other. -/
theorem increasing (h : life.Divides whole) :
    life.pieces.Pairwise fun i j => i.start < j.start ∧ i.stop ≤ j.start := by
  refine h.ordered.imp_of_mem fun {i j} hi _ hle => ⟨?_, hle⟩
  have := Interval.start_lt_stop (h.shaped i hi)
  lia

/-- Every position of the interval is in one piece, and no other position is in any. -/
theorem countP_covers (h : life.Divides whole) (p : Position) :
    life.pieces.countP (·.covers p) = if whole.covers p then 1 else 0 := by
  rw [h.toLaid.countP_covers]
  congr 1
  rw [List.any_eq_true, h.covers]

end Divides

/-- Cuts of an interval divide it. -/
theorem CutFrom.divides (h : life.CutFrom whole) (hshaped : whole.Shaped) (hused : whole.Used) :
    life.Divides whole := by
  obtain ⟨cuts, rfl⟩ := h
  exact List.foldlRecOn (motive := (Divides · whole)) cuts Lifetime.after
    (.uncut hshaped hused) fun _ hlife cut _ => hlife.after cut

/-- An interval that covers nothing cannot be cut. -/
theorem exists_split_error_of_empty (hempty : whole.ranges = []) (k : Nat) (p : Position)
    (id : IntervalId) : ∃ v, split { root := whole } k p id = .error v := by
  have hrefused : whole.split p id = .error (.emptyInterval whole.id) := by
    rw [Interval.split, Interval.checkNonempty, Interval.isEmpty, hempty]
    rfl
  cases k with
  | zero =>
    have hpiece : ({ root := whole } : Lifetime).pieces[0]? = some whole := rfl
    refine ⟨.emptyInterval whole.id, ?_⟩
    rw [split_of_piece hpiece, hrefused]
    rfl
  | succ k => exact ⟨.noPiece (k + 1), split_of_none rfl⟩

theorem CutFrom.eq_of_empty (h : life.CutFrom whole) (hempty : whole.ranges = []) :
    life = { root := whole } := by
  obtain ⟨cuts, rfl⟩ := h
  refine List.foldlRecOn (motive := (· = ({ root := whole } : Lifetime))) cuts Lifetime.after rfl
    fun _ hlife cut _ => ?_
  obtain ⟨v, hv⟩ := exists_split_error_of_empty hempty cut.piece cut.position cut.id
  rw [hlife, after_of_error hv]

end Lifetime

/-- Whatever pieces of an interval that is built are cut, and wherever: a piece is cut exactly
strictly inside, and a cut that is refused changes nothing; the pieces stand one behind the other;
each position of the interval is in one of them, and no other position is in any; none of them is
empty, unless nothing was ever put into the interval; and their uses, one list behind the other,
are the uses of the interval, each in the piece that covers it. -/
theorem cuts_divide {whole : Interval} (hbuilt : whole.Built)
    (hcovered : ∀ u ∈ whole.uses, whole.covers u.position = true)
    {life : Lifetime} (hlife : life.CutFrom whole) :
    (∀ k piece, life.pieces[k]? = some piece → ∀ p id,
      ((∃ next index, life.split k p id = .ok (next, index)) ↔
        ∃ start stop, piece.start? = some start ∧ piece.stop? = some stop ∧
          start < p ∧ p < stop) ∧
      ∀ v, life.split k p id = .error v → life.after ⟨k, p, id⟩ = life) ∧
    (life.pieces.Pairwise fun i j => i.start < j.start ∧ i.stop ≤ j.start) ∧
    (∀ p, life.pieces.countP (·.covers p) = if whole.covers p then 1 else 0) ∧
    ((∀ piece ∈ life.pieces, piece.isEmpty = false) ∨
      (whole = { id := whole.id, register := whole.register } ∧ life = { root := whole })) ∧
    life.pieces.flatMap (·.uses) = whole.uses ∧
    ∀ piece ∈ life.pieces, ∀ u ∈ piece.uses, piece.covers u.position = true := by
  have hunchanged : ∀ k p id v, life.split k p id = .error v → life.after ⟨k, p, id⟩ = life :=
    fun _ _ _ _ hv => Lifetime.after_of_error hv
  by_cases hempty : whole.ranges = []
  · -- nothing is covered, so there is no use either, and no cut was carried out
    have hroot := hlife.eq_of_empty hempty
    have hnone : ∀ p, whole.covers p = false := fun p => by rw [Interval.covers, hempty]; rfl
    have huses : whole.uses = [] := List.eq_nil_iff_forall_not_mem.2 fun u hu => by
      simpa [hnone] using hcovered u hu
    have hnew := hbuilt.eq_new
    rw [hempty, huses] at hnew
    subst hroot
    refine ⟨fun k piece hk p id => ⟨?_, hunchanged k p id⟩, by simp [Lifetime.pieces],
      fun p => by simp [Lifetime.pieces, hnone], .inr ⟨hnew, rfl⟩, by simp [Lifetime.pieces],
      by simp [Lifetime.pieces, huses]⟩
    obtain ⟨v, hv⟩ := Lifetime.exists_split_error_of_empty hempty k p id
    obtain rfl : piece = whole := by
      simpa [Lifetime.pieces] using List.mem_of_getElem? hk
    simp [hv, Interval.start?, hempty]
  -- every cut divides what is covered, and it is refused exactly if one side would be empty
  · have hdivides := hlife.divides ⟨hbuilt.ordered, hempty⟩ ⟨hbuilt.sorted, hcovered⟩
    refine ⟨fun k piece hk p id => ⟨?_, hunchanged k p id⟩, hdivides.increasing,
      hdivides.countP_covers, .inl fun piece hpiece => ?_, hdivides.uses,
      fun piece hpiece => (hdivides.used piece hpiece).covered⟩
    · have hshaped := hdivides.shaped piece (List.mem_of_getElem? hk)
      obtain ⟨hstart, hstop⟩ := Interval.ends_of_shaped hshaped
      rw [Lifetime.split_eq hk hshaped, hstart, hstop]
      split <;> simp_all
    · exact List.isEmpty_eq_false_iff.2 (hdivides.shaped piece hpiece).nonempty

/-- A life with a hole, read on both sides of it. -/
def holed : Interval := Interval.run { id := 0, register := 0 }
  [.addRange 8 14, .addRange 1 4, .addUse ⟨12, .register, .read⟩, .addUse ⟨3, .any, .read⟩,
    .setFrom 2, .addUse ⟨8, .any, .write⟩]

/-- The life cut in its hole, and the new piece cut once more; the other two cuts are refused. -/
def holedCuts : Lifetime :=
  Lifetime.run { root := holed } [⟨0, 6, 1⟩, ⟨0, 4, 2⟩, ⟨1, 11, 2⟩, ⟨1, 11, 3⟩]

theorem cuts_divide_holed : holed.Built ∧ holedCuts.CutFrom holed ∧
    holedCuts.pieces.map (·.ranges) = [[⟨2, 4⟩], [⟨8, 11⟩], [⟨11, 14⟩]] ∧
    (∀ p, holedCuts.pieces.countP (·.covers p) = if holed.covers p then 1 else 0) ∧
    holedCuts.pieces.map (·.uses) =
      [[⟨3, .any, .read⟩], [⟨8, .any, .write⟩], [⟨12, .register, .read⟩]] ∧
    holedCuts.pieces.flatMap (·.uses) = holed.uses := by
  have hbuilt : holed.Built := ⟨_, _, _, rfl⟩
  have hcuts : holedCuts.CutFrom holed := ⟨_, rfl⟩
  obtain ⟨-, -, hcovers, -, huses, -⟩ := cuts_divide hbuilt (by decide) hcuts
  exact ⟨hbuilt, hcuts, by decide, hcovers, by decide, huses⟩

end RegAlloc
