import RegAlloc.Proofs.Intervals
import RegAlloc.Proofs.Sorted

/-!
# One list of ranges for each set of positions

An interval is built by calls that add ranges, move starts and add uses. Whatever calls were
made, its ranges are in order and no two of them touch. Such a list can be read off the set of
positions that it covers: the first range starts at the least of them and stops at the first gap.
So two intervals that cover the same positions have the same ranges, whatever calls built them.

- `Interval.Call`, `Interval.run` — calls as data, refused ones left out;
- `Interval.Built` — an interval that some calls build;
- `Ranges.eq_of_covers` — ordered lists that cover the same positions are equal;
- `Ranges.covers_raise_of_mem` — what moving a start takes away, seen from the range;
- `Ranges.addMerging`, `Ranges.raiseFirst` — the same operations in one pass over a list, with
  `addMerging_eq_add` and `raiseFirst_eq_raise`;
- `Interval.Built.ordered`, `Interval.Built.calls_in_passes` — every interval that is built has
  ordered ranges, so the passes do for it what the operations do;
- `ranges_canonical` — all of it about an interval that is built.
-/

namespace RegAlloc

/-! ## Ordered lists as sets -/

namespace Ranges

variable {r s : Range} {rs ss : List Range} {p : Position}

/-- What lies behind the first range is covered by the others. -/
theorem covers_tail (h : Ordered (r :: rs)) :
    covers rs p = true ↔ covers (r :: rs) p = true ∧ r.stop ≤ p := by
  obtain ⟨-, hfront, -⟩ := ordered_cons.1 h
  rw [covers_cons, Bool.or_eq_true, Range.covers_iff]
  constructor
  · intro hp
    obtain ⟨t, ht, hstart, -⟩ := covers_iff.1 hp
    have := hfront t ht
    exact ⟨.inr hp, by lia⟩
  · rintro ⟨⟨-, hlt⟩ | hp, hstop⟩
    · lia
    · exact hp

/-- A list that covers more does not start later. -/
theorem start_le_start (hr : Ordered (r :: rs)) (hs : Ordered (s :: ss))
    (h : ∀ p, covers (r :: rs) p = true → covers (s :: ss) p = true) : s.start ≤ r.start := by
  refine start_le_of_covers hs (h r.start ?_)
  simp [Range.covers, (ordered_cons.1 hr).1]

/-- Of two lists that start together, the first range of the one that covers more does not
stop earlier. -/
theorem stop_le_stop (hs : Ordered (s :: ss))
    (h : ∀ p, covers (r :: rs) p = true → covers (s :: ss) p = true) (hstart : r.start = s.start) :
    r.stop ≤ s.stop := by
  refine Int.not_lt.1 fun hlt => ?_
  -- where the range of the larger list stops, it leaves a position uncovered
  have hgap : covers (s :: ss) s.stop = false := covers_stop hs (by simp)
  have hlt' := (ordered_cons.1 hs).1
  rw [h s.stop (by simp [Range.covers, hlt]; lia)] at hgap
  cases hgap

/-- Ordered lists that cover the same positions are equal. -/
theorem eq_of_covers : ∀ {rs ss : List Range}, Ordered rs → Ordered ss →
    (∀ p, covers rs p = true ↔ covers ss p = true) → rs = ss
  | [], [], _, _, _ => rfl
  | [], s :: ss, _, hs, h => by
    have hstart : covers [] s.start = true :=
      (h s.start).2 (by simp [Range.covers, (ordered_cons.1 hs).1])
    cases hstart
  | r :: rs, [], hr, _, h => by
    have hstart : covers [] r.start = true :=
      (h r.start).1 (by simp [Range.covers, (ordered_cons.1 hr).1])
    cases hstart
  | r :: rs, s :: ss, hr, hs, h => by
    have hstart : r.start = s.start := Int.le_antisymm
      (start_le_start hs hr fun p => (h p).2) (start_le_start hr hs fun p => (h p).1)
    have hstop : r.stop = s.stop := Int.le_antisymm
      (stop_le_stop hs (fun p => (h p).1) hstart)
      (stop_le_stop hr (fun p => (h p).2) hstart.symm)
    have hrest : rs = ss := eq_of_covers (ordered_cons.1 hr).2.2 (ordered_cons.1 hs).2.2
      fun p => by rw [covers_tail hr, covers_tail hs, h, hstop]
    obtain ⟨start, stop⟩ := r
    cases hstart
    cases hstop
    rw [hrest]

/-- Moving the start of a range up to `p` takes away what the range has below `p`. -/
theorem covers_raise_of_mem (h : Ordered rs) (hr : r ∈ rs) (hp : r.covers p = true)
    (q : Position) :
    covers (raise p rs) q = true ↔ covers rs q = true ∧ ¬ (r.start ≤ q ∧ q < p) := by
  obtain ⟨hstart, hstop⟩ := Range.covers_iff.1 hp
  rw [covers_raise h (covers_iff.2 ⟨r, hr, hstart, hstop⟩)]
  refine and_congr_right fun _ => ⟨?_, fun hnot => ?_⟩
  · rintro (hle | ⟨x, hqx, hxp, hx⟩) ⟨hrq, hqp⟩
    · lia
    · -- a gap between `q` and `p` would be inside the range
      rw [covers_iff.2 ⟨r, hr, by lia, by lia⟩] at hx
      cases hx
  · by_cases hpq : p ≤ q
    · exact .inl hpq
    · exact .inr ⟨r.start - 1, by lia, by lia, covers_start_sub_one h hr⟩

/-! ## In one pass over the list -/

/-- Look at one range of a list while adding another to it: one that is apart from what has been
merged so far is kept, any other is merged. -/
def absorb (found : Range × List Range) (s : Range) : Range × List Range :=
  if s.stop < found.1.start || found.1.stop < s.start then (found.1, found.2 ++ [s])
  else (found.1.hull s, found.2)

/-- Add a range by looking at all others, and put what has been merged among those that were
kept, by its start. -/
def addMerging (r : Range) (rs : List Range) : List Range :=
  let found := rs.foldl absorb (r, [])
  insertBefore (found.1.start < ·.start) found.1 found.2

/-- Let the first range around `p` start at `p`; without such a range, add `p` alone. -/
def raiseFirst (p : Position) (rs : List Range) : List Range :=
  match rs.findIdx? (·.covers p) with
  | some index => rs.modify index fun r => { r with start := p }
  | none => addMerging ⟨p, p + 1⟩ rs

/-- Ranges that start behind what has been merged are all kept. -/
theorem foldl_absorb_of_behind {kept : List Range} (h : ∀ s ∈ rs, r.stop < s.start) :
    rs.foldl absorb (r, kept) = (r, kept ++ rs) := by
  induction rs generalizing kept with
  | nil => rw [List.foldl_nil, List.append_nil]
  | cons s rest ih =>
    obtain ⟨hs, hrest⟩ := List.forall_mem_cons.1 h
    have hkept : absorb (r, kept) s = (r, kept ++ [s]) := by simp [absorb, hs]
    rw [List.foldl_cons, hkept, ih hrest, List.append_assoc]
    rfl

/-- Looking at the rest of an ordered list, with all ranges that were kept in front of what has
been merged. -/
theorem insertBefore_foldl_absorb : ∀ {rs : List Range} {r : Range} {kept : List Range},
    r.start < r.stop → Ordered (kept ++ rs) → (∀ k ∈ kept, k.stop < r.start) →
      insertBefore ((rs.foldl absorb (r, kept)).1.start < ·.start) (rs.foldl absorb (r, kept)).1
        (rs.foldl absorb (r, kept)).2 = kept ++ add r rs
  | rs, r, kept, hr, h, hfront => by
    have hearlier : ∀ k ∈ kept, decide (r.start < k.start) = false := fun k hk => by
      have := h.nonempty k (List.mem_append_left _ hk)
      have := hfront k hk
      exact decide_eq_false (by lia)
    obtain ⟨-, hordered, hacross⟩ := List.pairwise_append.1 h.apart
    match rs with
    | [] =>
      have hend := insertBefore_append r hearlier (fun t (ht : t ∈ []) => by cases ht)
      rwa [List.append_nil] at hend
    | s :: rest =>
      obtain ⟨hbehind, -⟩ := List.pairwise_cons.1 hordered
      have hs := h.nonempty s (by simp)
      rw [List.foldl_cons, absorb, add]
      by_cases hbefore : s.stop < r.start
      · -- one more range in front
        rw [if_pos (by simp [hbefore]), if_pos hbefore,
          insertBefore_foldl_absorb hr (by simpa using h)]
        · simp
        · intro k hk
          obtain hk | hk := List.mem_append.1 hk
          · exact hfront k hk
          · exact List.mem_singleton.1 hk ▸ hbefore
      rw [if_neg hbefore]
      by_cases hafter : r.stop < s.start
      · -- everything else is behind
        have hrest : ∀ t ∈ rest, r.stop < t.start := fun t ht => by
          have := hbehind t ht
          lia
        rw [if_pos (by simp [hafter]), if_pos hafter, foldl_absorb_of_behind hrest,
          List.append_assoc]
        refine insertBefore_append r hearlier fun t ht => decide_eq_true ?_
        obtain rfl | ht := List.mem_cons.1 ht
        · lia
        · have := hrest t ht
          lia
      · -- the two become one, which nothing in front touches either
        rw [if_neg (by simp [hbefore, hafter]), if_neg hafter]
        refine insertBefore_foldl_absorb ?_ ?_ fun k hk => ?_
        · simp only [Range.hull]
          lia
        · have hsub : (kept ++ rest).Sublist (kept ++ s :: rest) :=
            (List.sublist_cons_self s rest).append_left kept
          exact ⟨fun t ht => h.nonempty t (hsub.subset ht), h.apart.sublist hsub⟩
        · have := hfront k hk
          have := hacross k hk s (by simp)
          simp only [Range.hull]
          lia

/-- Adding a range in one pass over an ordered list comes to the same. -/
theorem addMerging_eq_add (h : Ordered rs) (hr : r.start < r.stop) : addMerging r rs = add r rs :=
  insertBefore_foldl_absorb hr h (by simp)

/-- In an ordered list no range but the first around a position is around it. -/
theorem raiseFirst_eq_raise (h : Ordered rs) (p : Position) : raiseFirst p rs = raise p rs := by
  rw [raiseFirst]
  cases hfound : rs.findIdx? (·.covers p) with
  | none =>
    -- no range covers `p`, so both add one
    have hnone : covers rs p = false := List.any_eq_false.2 fun t ht =>
      Bool.eq_false_iff.1 (List.findIdx?_eq_none_iff.1 hfound t ht)
    rw [raise_of_not_covers hnone]
    exact addMerging_eq_add h (by lia)
  | some index =>
    -- the first range that covers `p` is the only one
    obtain ⟨hlt, hcovers, -⟩ := List.findIdx?_eq_some_iff_getElem.1 hfound
    have hsome : covers rs p = true := List.any_eq_true.2 ⟨_, List.getElem_mem hlt, hcovers⟩
    rw [raise, if_pos hsome]
    refine List.ext_getElem? fun k => ?_
    rw [List.getElem?_modify, List.getElem?_map, Option.map_eq_map]
    refine Option.map_congr fun t hget => ?_
    obtain ⟨hlt', rfl⟩ := List.getElem?_eq_some_iff.1 hget
    by_cases hk : index = k
    · subst hk
      rw [if_pos rfl, if_pos hcovers]
    · -- a range before or behind the one that covers `p` does not
      have hnot : ¬ rs[k].covers p = true := by
        intro ht
        rw [Range.covers_iff] at ht hcovers
        have hapart := List.pairwise_iff_getElem.1 h.apart
        obtain hk | hk := Nat.lt_or_gt_of_ne hk
        · have := hapart index k hlt hlt' hk
          lia
        · have := hapart k index hlt' hlt hk
          lia
      rw [if_neg hk, if_neg hnot]

end Ranges

/-! ## Building an interval -/

namespace Interval

/-- A call that builds an interval. -/
inductive Call where
  | addRange (start stop : Position)
  | setFrom (p : Position)
  | addUse (use : UsePoint)
  deriving DecidableEq, Repr

/-- Carry out one call. -/
def apply (i : Interval) : Call → Except Violation Interval
  | .addRange start stop => i.addRange start stop
  | .setFrom p => .ok (i.setFrom p)
  | .addUse use => .ok (i.addUse use)

/-- The interval after a call, unchanged if the call is refused. -/
def after (i : Interval) (call : Call) : Interval :=
  match i.apply call with
  | .ok next => next
  | .error _ => i

/-- The interval after a sequence of calls, refused ones left out. -/
def run (i : Interval) (calls : List Call) : Interval := calls.foldl after i

/-- An interval that is built by some sequence of calls on a new one. -/
def Built (i : Interval) : Prop :=
  ∃ id register calls, i = run { id, register } calls

variable {i j : Interval} {p q start stop : Position}

theorem addRange_eq_ok (h : start < stop) :
    i.addRange start stop = .ok { i with ranges := Ranges.add ⟨start, stop⟩ i.ranges } := by
  rw [addRange, if_pos h]

/-- What a call can do to an interval. -/
theorem after_cases (i : Interval) (call : Call) :
    i.after call = i ∨
    (∃ start stop, start < stop ∧
      i.after call = { i with ranges := Ranges.add ⟨start, stop⟩ i.ranges }) ∨
    (∃ p, i.after call = i.setFrom p) ∨ ∃ use, i.after call = i.addUse use := by
  cases call with
  | addRange start stop =>
    rw [after, apply]
    by_cases hlt : start < stop
    · rw [addRange_eq_ok hlt]
      exact .inr (.inl ⟨start, stop, hlt, rfl⟩)
    · rw [addRange, if_neg hlt]
      exact .inl rfl
  | setFrom p => exact .inr (.inr (.inl ⟨p, rfl⟩))
  | addUse use => exact .inr (.inr (.inr ⟨use, rfl⟩))

/-- What holds of a new interval and is kept by every call that is carried out holds of every
interval that is built. -/
theorem Built.induction {P : Interval → Prop} (hnew : ∀ id register, P { id, register })
    (hadd : ∀ i start stop, start < stop → P i →
      P { i with ranges := Ranges.add ⟨start, stop⟩ i.ranges })
    (hset : ∀ i p, P i → P (i.setFrom p)) (huse : ∀ i use, P i → P (i.addUse use))
    (h : i.Built) : P i := by
  obtain ⟨id, register, calls, rfl⟩ := h
  refine List.foldlRecOn (motive := P) calls after (hnew id register) fun i hi call _ => ?_
  rcases after_cases i call with heq | ⟨start, stop, hlt, heq⟩ | ⟨p, heq⟩ | ⟨use, heq⟩
  · rwa [heq]
  · exact heq ▸ hadd i start stop hlt hi
  · exact heq ▸ hset i p hi
  · exact heq ▸ huse i use hi

/-- The ranges of an interval that is built are in order. -/
theorem Built.ordered (h : i.Built) : Ranges.Ordered i.ranges :=
  h.induction (P := fun i => Ranges.Ordered i.ranges) (fun _ _ => Ranges.ordered_nil)
    (fun _ _ _ hlt hi => Ranges.ordered_add hlt hi) (fun _ p hi => Ranges.ordered_raise p hi)
    fun _ _ hi => hi

/-- To an interval that is built a range can as well be added in one pass over its ranges, and
the start of the first range around a position moved there. -/
theorem Built.calls_in_passes (h : i.Built) :
    (∀ start stop, start < stop →
      i.addRange start stop = .ok { i with ranges := Ranges.addMerging ⟨start, stop⟩ i.ranges }) ∧
    ∀ p, i.setFrom p = { i with ranges := Ranges.raiseFirst p i.ranges } := by
  refine ⟨fun start stop hlt => ?_, fun p => ?_⟩
  · rw [addRange_eq_ok hlt, Ranges.addMerging_eq_add h.ordered hlt]
  · rw [setFrom, Ranges.raiseFirst_eq_raise h.ordered]

end Interval

/-- Whatever calls built an interval, its ranges are not empty, in order, and with an uncovered
position behind each of them. A range that is added joins its positions to the set, and no others.
Setting the start to a position takes away exactly what lies below it in its range, and adds
exactly that position if it was not covered. So intervals that cover the same positions have the
same ranges. -/
theorem ranges_canonical {i : Interval} (h : i.Built) :
    Ranges.Ordered i.ranges ∧ (∀ r ∈ i.ranges, i.covers r.stop = false) ∧
    (∀ start stop, start < stop → ∃ j, i.addRange start stop = .ok j ∧
      ∀ q, j.covers q = true ↔ i.covers q = true ∨ (start ≤ q ∧ q < stop)) ∧
    (∀ p, ∀ r ∈ i.ranges, r.covers p = true →
      ∀ q, (i.setFrom p).covers q = true ↔ i.covers q = true ∧ ¬ (r.start ≤ q ∧ q < p)) ∧
    (∀ p, i.covers p = false →
      ∀ q, (i.setFrom p).covers q = true ↔ i.covers q = true ∨ q = p) ∧
    ∀ j : Interval, j.Built → (∀ q, i.covers q = true ↔ j.covers q = true) →
      i.ranges = j.ranges := by
  have hordered := h.ordered
  refine ⟨hordered, fun r hr => Ranges.covers_stop hordered hr, fun start stop hlt => ?_,
    fun p r hr hp q => Ranges.covers_raise_of_mem hordered hr hp q, fun p hp q => ?_,
    fun j hj hsame => Ranges.eq_of_covers hordered hj.ordered hsame⟩
  · refine ⟨_, Interval.addRange_eq_ok hlt, fun q => ?_⟩
    rw [Interval.covers, Ranges.covers_add, Range.covers_iff, or_comm]
    rfl
  · rw [Interval.covers, Interval.setFrom, Ranges.raise_of_not_covers hp, Ranges.covers_add,
      Range.covers_iff, or_comm]
    exact or_congr_right (by lia)

/-- Two ranges that a third one joins; the start is then moved into the whole, and one position
is added below it. -/
def joined : Interval := Interval.run { id := 0, register := 0 }
  [.addRange 6 9, .addRange 1 3, .addRange 3 6, .setFrom 4, .setFrom 2]

/-- The same positions, from other calls, one of them refused. -/
def rejoined : Interval := Interval.run { id := 1, register := 5 }
  [.setFrom 2, .addUse ⟨7, .any, .read⟩, .addRange 5 9, .addRange 5 5, .addRange 4 6]

theorem ranges_canonical_joined : joined.Built ∧ rejoined.Built ∧
    joined.ranges = [⟨2, 3⟩, ⟨4, 9⟩] ∧ Ranges.Ordered joined.ranges ∧
    (∀ q, (joined.setFrom 6).covers q = true ↔ joined.covers q = true ∧ ¬ (4 ≤ q ∧ q < 6)) ∧
    (∀ q, joined.covers q = true ↔ rejoined.covers q = true) ∧
    joined.ranges = rejoined.ranges := by
  have hjoined : joined.Built := ⟨_, _, _, rfl⟩
  have hrejoined : rejoined.Built := ⟨_, _, _, rfl⟩
  have hlists : joined.ranges = [⟨2, 3⟩, ⟨4, 9⟩] ∧ rejoined.ranges = [⟨2, 3⟩, ⟨4, 9⟩] := by decide
  have hsame : ∀ q, joined.covers q = true ↔ rejoined.covers q = true := fun q => by
    rw [Interval.covers, Interval.covers, hlists.1, hlists.2]
  obtain ⟨hordered, -, -, hraised, -, hequal⟩ := ranges_canonical hjoined
  exact ⟨hjoined, hrejoined, hlists.1, hordered,
    hraised 6 ⟨4, 9⟩ (by simp [hlists.1]) (by decide), hsame, hequal rejoined hrejoined hsame⟩

end RegAlloc
