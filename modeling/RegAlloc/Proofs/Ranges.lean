import RegAlloc.Range

/-!
# Range lists as sets of positions

A list of ranges that is ordered, with an uncovered position between neighbours,
stands for the set of positions it covers. Every operation on such lists is described
here by what it does to that set, so that later proofs speak of positions only.

- `Ranges.Ordered` — the lists that the allocator builds; `Ranges.Ascending` — lists of
  disjoint ranges that may touch;
- `covers_add`, `covers_raise`, `covers_before`, `covers_onward` — the set after each
  operation; `ordered_add` and its siblings say that the list stays ordered;
- `firstCommon?_isFirst`, `nextStart?_eq_some` — what the searches find;
- `size_onward_lt` — how the number of positions drops when the front is cut off.
-/

namespace RegAlloc

namespace Ranges

/-- Ranges that are not empty, in ascending order, no two of them touching. -/
structure Ordered (rs : List Range) : Prop where
  nonempty : ∀ r ∈ rs, r.start < r.stop
  apart : rs.Pairwise fun r s => r.stop < s.start

theorem ordered_nil : Ordered [] := ⟨by simp, .nil⟩

theorem ordered_cons {r : Range} {rs : List Range} :
    Ordered (r :: rs) ↔ r.start < r.stop ∧ (∀ s ∈ rs, r.stop < s.start) ∧ Ordered rs := by
  constructor
  · intro h
    obtain ⟨hfront, hrest⟩ := List.pairwise_cons.1 h.apart
    exact ⟨h.nonempty r (by simp), hfront, fun s hs => h.nonempty s (by simp [hs]), hrest⟩
  · rintro ⟨hr, hfront, hrs⟩
    refine ⟨?_, List.pairwise_cons.2 ⟨hfront, hrs.apart⟩⟩
    simpa [hr] using hrs.nonempty

/-- Ranges in order that do not overlap, none of them empty. They may touch. -/
structure Ascending (rs : List Range) : Prop where
  nonempty : ∀ r ∈ rs, r.start < r.stop
  apart : rs.Pairwise fun r s => r.stop ≤ s.start

instance (rs : List Range) : Decidable (Ascending rs) :=
  decidable_of_iff ((∀ r ∈ rs, r.start < r.stop) ∧ rs.Pairwise fun r s => r.stop ≤ s.start)
    ⟨fun h => ⟨h.1, h.2⟩, fun h => ⟨h.nonempty, h.apart⟩⟩

theorem ascending_cons {r : Range} {rs : List Range} :
    Ascending (r :: rs) ↔ r.start < r.stop ∧ (∀ s ∈ rs, r.stop ≤ s.start) ∧ Ascending rs := by
  constructor
  · rintro ⟨hnonempty, hapart⟩
    obtain ⟨hr, hrs⟩ := List.forall_mem_cons.1 hnonempty
    obtain ⟨hfront, hrest⟩ := List.pairwise_cons.1 hapart
    exact ⟨hr, hfront, hrs, hrest⟩
  · rintro ⟨hr, hfront, hrs⟩
    exact ⟨List.forall_mem_cons.2 ⟨hr, hrs.nonempty⟩, List.pairwise_cons.2 ⟨hfront, hrs.apart⟩⟩

theorem Ordered.ascending {rs : List Range} (h : Ordered rs) : Ascending rs :=
  ⟨h.nonempty, h.apart.imp Int.le_of_lt⟩

@[simp] theorem covers_nil (p : Position) : covers [] p = false := rfl

@[simp] theorem covers_cons (r : Range) (rs : List Range) (p : Position) :
    covers (r :: rs) p = (r.covers p || covers rs p) := rfl

/-! ## Adding a range -/

theorem lt_start_of_mem_add {r : Range} {b : Position} (hr : b < r.start) :
    ∀ {rs : List Range}, (∀ s ∈ rs, b < s.start) → ∀ s ∈ add r rs, b < s.start
  | [], _ => by simpa [add] using hr
  | s :: rest, h => by
    have hs : b < s.start := h s (by simp)
    have hrest : ∀ t ∈ rest, b < t.start := fun t ht => h t (by simp [ht])
    rw [add]
    split
    · simpa [hs] using lt_start_of_mem_add hr hrest
    split
    · simpa [hr, hs] using hrest
    · refine lt_start_of_mem_add ?_ hrest
      simp only [Range.hull]
      lia

/-- Adding a range keeps the list ordered. -/
theorem ordered_add : ∀ {rs : List Range} {r : Range}, r.start < r.stop → Ordered rs →
    Ordered (add r rs)
  | [], r, hr, _ => ordered_cons.2 ⟨hr, by simp, ordered_nil⟩
  | s :: rest, r, hr, h => by
    obtain ⟨hs, hfront, hrest⟩ := ordered_cons.1 h
    rw [add]
    split
    · next hbefore =>
      exact ordered_cons.2 ⟨hs, lt_start_of_mem_add hbefore hfront, ordered_add hr hrest⟩
    split
    · next hafter =>
      refine ordered_cons.2 ⟨hr, ?_, h⟩
      intro t ht
      rcases List.mem_cons.1 ht with rfl | ht
      · exact hafter
      · have := hfront t ht
        lia
    · refine ordered_add ?_ hrest
      simp only [Range.hull]
      lia

/-- Adding a range adds its positions. -/
theorem covers_add : ∀ {rs : List Range} {r : Range} (p : Position),
    covers (add r rs) p = true ↔ r.covers p = true ∨ covers rs p = true
  | [], r, p => by simp [add]
  | s :: rest, r, p => by
    rw [add]
    split
    · rw [covers_cons, Bool.or_eq_true, covers_add p, covers_cons, Bool.or_eq_true]
      exact or_left_comm
    split
    · rw [covers_cons, Bool.or_eq_true]
    · next hstop hstart =>
      -- the two ranges touch, so their hull has no further position
      have hhull : (r.hull s).covers p = true ↔ r.covers p = true ∨ s.covers p = true := by
        simp only [Range.covers_iff, Range.hull]
        lia
      rw [covers_add p, hhull, covers_cons, Bool.or_eq_true, or_assoc]

/-! ## Moving the start of a range -/

/-- Nothing is covered before the ranges start. -/
theorem covers_eq_false_of_lt {rs : List Range} {p : Position} (h : ∀ s ∈ rs, p < s.start) :
    covers rs p = false := by
  rw [Bool.eq_false_iff, Ne, covers_iff]
  rintro ⟨s, hs, hstart, -⟩
  have := h s hs
  lia

theorem Ascending.start_le_of_covers {r : Range} {rs : List Range} (h : Ascending (r :: rs))
    {q : Position} (hq : covers (r :: rs) q = true) : r.start ≤ q := by
  obtain ⟨hr, hfront, -⟩ := ascending_cons.1 h
  obtain ⟨s, hs, hstart, -⟩ := covers_iff.1 hq
  rcases List.mem_cons.1 hs with rfl | hs
  · exact hstart
  · have := hfront s hs
    lia

theorem start_le_of_covers {r : Range} {rs : List Range} (h : Ordered (r :: rs)) {q : Position}
    (hq : covers (r :: rs) q = true) : r.start ≤ q := h.ascending.start_le_of_covers hq

/-- The position where a range stops is not covered: no other range touches it. -/
theorem covers_stop : ∀ {rs : List Range} {r : Range}, Ordered rs → r ∈ rs →
    covers rs r.stop = false
  | t :: rest, r, h, hr => by
    obtain ⟨ht, hfront, hrest⟩ := ordered_cons.1 h
    rw [covers_cons, Bool.or_eq_false_iff]
    rcases List.mem_cons.1 hr with rfl | hr
    · exact ⟨by simp [Range.covers], covers_eq_false_of_lt hfront⟩
    · have htr := hfront r hr
      have hrr := hrest.nonempty r hr
      refine ⟨?_, covers_stop hrest hr⟩
      rw [Bool.eq_false_iff, Ne, Range.covers_iff]
      lia

/-- Nor is the position before the start of a range. -/
theorem covers_start_sub_one : ∀ {rs : List Range} {r : Range}, Ordered rs → r ∈ rs →
    covers rs (r.start - 1) = false
  | t :: rest, r, h, hr => by
    obtain ⟨ht, hfront, hrest⟩ := ordered_cons.1 h
    rw [covers_cons, Bool.or_eq_false_iff]
    rw [Bool.eq_false_iff, Ne, Range.covers_iff]
    rcases List.mem_cons.1 hr with rfl | hr
    · refine ⟨by lia, covers_eq_false_of_lt fun s hs => ?_⟩
      have := hfront s hs
      lia
    · have htr := hfront r hr
      exact ⟨by lia, covers_start_sub_one hrest hr⟩

/-- Moving a start up to `p` takes away the positions that are joined to `p` from
below, and no others. -/
theorem covers_raise {rs : List Range} {p : Position} (h : Ordered rs)
    (hp : covers rs p = true) (q : Position) :
    covers (raise p rs) q = true ↔
      covers rs q = true ∧ (p ≤ q ∨ ∃ x, q ≤ x ∧ x < p ∧ covers rs x = false) := by
  rw [raise, if_pos hp, covers_iff, covers_iff]
  constructor
  · rintro ⟨s, hs, hstart, hstop⟩
    obtain ⟨r, hr, rfl⟩ := List.mem_map.1 hs
    -- the range that covers `p` is cut short, and the others stay
    by_cases hrp : r.covers p = true
    · rw [if_pos hrp] at hstart hstop
      rw [Range.covers_iff] at hrp
      exact ⟨⟨r, hr, by lia, hstop⟩, .inl hstart⟩
    · rw [if_neg hrp] at hstart hstop
      refine ⟨⟨r, hr, hstart, hstop⟩, ?_⟩
      by_cases hpq : p ≤ q
      · exact .inl hpq
      -- the range of `q` ends before `p`, at a position that is not covered
      · refine .inr ⟨r.stop, by lia, ?_, covers_stop h hr⟩
        rw [Range.covers_iff] at hrp
        have hne : r.stop ≠ p := by
          rintro rfl
          simp [covers_stop h hr] at hp
        lia
  · rintro ⟨⟨r, hr, hstart, hstop⟩, hq⟩
    refine ⟨_, List.mem_map_of_mem hr, ?_⟩
    split
    · next hrp =>
      rw [Range.covers_iff] at hrp
      refine ⟨?_, hstop⟩
      -- an uncovered position between `q` and `p` would be in the same range
      rcases hq with hq | ⟨x, hqx, hxp, hx⟩
      · exact hq
      · rw [Bool.eq_false_iff, Ne, covers_iff] at hx
        exact absurd ⟨r, hr, by lia, by lia⟩ hx
    · exact ⟨hstart, hstop⟩

/-- Without a range around `p`, raising adds `p` alone. -/
theorem raise_of_not_covers {rs : List Range} {p : Position} (hp : covers rs p = false) :
    raise p rs = add ⟨p, p + 1⟩ rs := by
  simp [raise, hp]

/-- Moving a start keeps the list ordered. -/
theorem ordered_raise {rs : List Range} (p : Position) (h : Ordered rs) :
    Ordered (raise p rs) := by
  by_cases hp : covers rs p = true
  · rw [raise, if_pos hp]
    constructor
    · intro s hs
      obtain ⟨r, hr, rfl⟩ := List.mem_map.1 hs
      have := h.nonempty r hr
      split
      · next hrp => exact (Range.covers_iff.1 hrp).2
      · exact this
    · refine List.pairwise_map.2 (h.apart.imp ?_)
      intro r s hrs
      split <;> split <;> simp_all only [Range.covers_iff] <;> lia
  · rw [raise_of_not_covers (Bool.eq_false_iff.2 hp)]
    exact ordered_add (by lia) h

/-! ## Cutting -/

theorem before?_covers {r s : Range} {p : Position} (h : r.before? p = some s) (q : Position) :
    s.covers q = true ↔ r.covers q = true ∧ q < p := by
  rw [Range.before?] at h
  split at h
  · cases h
    simp only [Range.covers_iff]
    lia
  split at h
  · cases h
  · cases h
    simp only [Range.covers_iff]
    lia

theorem before?_eq_none {r : Range} {p : Position} (h : r.before? p = none) : p ≤ r.start := by
  rw [Range.before?] at h
  split at h
  · cases h
  split at h
  · assumption
  · cases h

theorem onward?_covers {r s : Range} {p : Position} (h : r.onward? p = some s) (q : Position) :
    s.covers q = true ↔ r.covers q = true ∧ p ≤ q := by
  rw [Range.onward?] at h
  split at h
  · cases h
  split at h <;> cases h <;> simp only [Range.covers_iff] <;> lia

theorem onward?_eq_none {r : Range} {p : Position} (h : r.onward? p = none) : r.stop ≤ p := by
  rw [Range.onward?] at h
  split at h
  · assumption
  split at h <;> cases h

/-- What lies before a cut are the positions before it. -/
theorem covers_before (rs : List Range) (p q : Position) :
    covers (before rs p) q = true ↔ covers rs q = true ∧ q < p := by
  simp only [covers, before, List.any_eq_true, List.mem_filterMap]
  constructor
  · rintro ⟨s, ⟨r, hr, hrs⟩, hq⟩
    obtain ⟨hrq, hqp⟩ := (before?_covers hrs q).1 hq
    exact ⟨⟨r, hr, hrq⟩, hqp⟩
  · rintro ⟨⟨r, hr, hrq⟩, hqp⟩
    cases hrs : r.before? p with
    | none =>
      have := before?_eq_none hrs
      rw [Range.covers_iff] at hrq
      lia
    | some s => exact ⟨s, ⟨r, hr, hrs⟩, (before?_covers hrs q).2 ⟨hrq, hqp⟩⟩

/-- What lies from a cut on are the positions from it on. -/
theorem covers_onward (rs : List Range) (p q : Position) :
    covers (onward rs p) q = true ↔ covers rs q = true ∧ p ≤ q := by
  simp only [covers, onward, List.any_eq_true, List.mem_filterMap]
  constructor
  · rintro ⟨s, ⟨r, hr, hrs⟩, hq⟩
    obtain ⟨hrq, hpq⟩ := (onward?_covers hrs q).1 hq
    exact ⟨⟨r, hr, hrq⟩, hpq⟩
  · rintro ⟨⟨r, hr, hrq⟩, hpq⟩
    cases hrs : r.onward? p with
    | none =>
      have := onward?_eq_none hrs
      rw [Range.covers_iff] at hrq
      lia
    | some s => exact ⟨s, ⟨r, hr, hrs⟩, (onward?_covers hrs q).2 ⟨hrq, hpq⟩⟩

/-- Cutting off the end keeps the list ordered. -/
theorem ordered_before {rs : List Range} (p : Position) (h : Ordered rs) :
    Ordered (before rs p) := by
  constructor
  · intro s hs
    obtain ⟨r, hr, hrs⟩ := List.mem_filterMap.1 hs
    have := h.nonempty r hr
    grind [Range.before?]
  · refine List.Pairwise.filterMap _ ?_ h.apart
    grind [Range.before?]

/-- Cutting off the front keeps the list ordered. -/
theorem ordered_onward {rs : List Range} (p : Position) (h : Ordered rs) :
    Ordered (onward rs p) := by
  constructor
  · intro s hs
    obtain ⟨r, hr, hrs⟩ := List.mem_filterMap.1 hs
    have := h.nonempty r hr
    grind [Range.onward?]
  · refine List.Pairwise.filterMap _ ?_ h.apart
    grind [Range.onward?]

/-! ## Searching -/

theorem Range.firstCommon?_eq_none_iff {r s : Range} :
    r.firstCommon? s = none ↔ ∀ p, r.covers p = true → s.covers p = false := by
  simp only [Range.firstCommon?, Bool.eq_false_iff, Ne, Range.covers_iff]
  split
  · next hlt =>
    simp only [reduceCtorEq, false_iff, Classical.not_forall]
    exact ⟨max r.start s.start, by lia, by lia⟩
  · next hlt =>
    simp only [true_iff]
    lia

theorem Range.firstCommon?_eq_some {r s : Range} {p : Position} (h : r.firstCommon? s = some p) :
    p = max r.start s.start ∧ r.covers p = true ∧ s.covers p = true := by
  rw [Range.firstCommon?] at h
  split at h
  · cases h
    simp only [Range.covers_iff, true_and]
    lia
  · cases h

/-- What a search for the first position with a property may answer. -/
def IsFirst (P : Position → Prop) : Option Position → Prop
  | some p => P p ∧ ∀ q, P q → p ≤ q
  | none => ∀ q, ¬ P q

theorem IsFirst.congr {P Q : Position → Prop} (hPQ : ∀ q, P q ↔ Q q) {found : Option Position}
    (h : IsFirst P found) : IsFirst Q found := by
  rwa [← funext fun q => propext (hPQ q)]

/-- There is one answer. -/
theorem IsFirst.unique {P : Position → Prop} : ∀ {found found' : Option Position},
    IsFirst P found → IsFirst P found' → found = found'
  | some p, some q, ⟨hp, hpleast⟩, ⟨hq, hqleast⟩ =>
    congrArg some (Int.le_antisymm (hpleast q hq) (hqleast p hp))
  | some p, none, ⟨hp, _⟩, hnone => absurd hp (hnone p)
  | none, some q, hnone, ⟨hq, _⟩ => absurd hq (hnone q)
  | none, none, _, _ => rfl

theorem firstCommon?_cons_cons (r s : Range) (rs ss : List Range) :
    firstCommon? (r :: rs) (s :: ss) =
      match r.firstCommon? s with
      | some p => some p
      | none => if r.stop ≤ s.stop then firstCommon? rs (s :: ss) else firstCommon? (r :: rs) ss :=
  rfl

/-- A range that meets neither the first of a list nor goes beyond it can be left behind: it has
nothing in common with the list. -/
theorem covers_and_cons {r s : Range} {ss : List Range} (hs : Ascending (s :: ss))
    (hapart : ∀ q, r.covers q = true → s.covers q = false) (hstop : r.stop ≤ s.stop)
    (rs : List Range) (q : Position) :
    covers (r :: rs) q = true ∧ covers (s :: ss) q = true ↔
      covers rs q = true ∧ covers (s :: ss) q = true := by
  rw [covers_cons, Bool.or_eq_true, or_and_right, or_iff_right_iff_imp]
  rintro ⟨hrq, hsq⟩
  obtain ⟨-, hlater, -⟩ := ascending_cons.1 hs
  have hbeyond : covers ss q = false := by
    refine covers_eq_false_of_lt fun t ht => ?_
    have := hlater t ht
    have := (Range.covers_iff.1 hrq).2
    lia
  rw [covers_cons, hapart q hrq, hbeyond] at hsq
  cases hsq

/-- The walk finds the least common position: what it leaves behind has none. -/
theorem firstCommon?_isFirst : ∀ {rs ss : List Range}, Ascending rs → Ascending ss →
    IsFirst (fun q => covers rs q = true ∧ covers ss q = true) (firstCommon? rs ss)
  | [], _, _, _ => fun q hq => by simp at hq
  | _ :: _, [], _, _ => fun q hq => by simp at hq
  | r :: rs, s :: ss, hr, hs => by
    rw [firstCommon?_cons_cons]
    cases hrs : r.firstCommon? s with
    | some p =>
      obtain ⟨hp, hrp, hsp⟩ := Range.firstCommon?_eq_some hrs
      refine ⟨by simp [hrp, hsp], fun q hq => ?_⟩
      have := hr.start_le_of_covers hq.1
      have := hs.start_le_of_covers hq.2
      lia
    | none =>
      have hapart := Range.firstCommon?_eq_none_iff.1 hrs
      obtain ⟨-, -, hr'⟩ := ascending_cons.1 hr
      obtain ⟨-, -, hs'⟩ := ascending_cons.1 hs
      by_cases hstop : r.stop ≤ s.stop
      · simp only [if_pos hstop]
        exact (firstCommon?_isFirst hr' hs).congr fun q =>
          (covers_and_cons hs hapart hstop rs q).symm
      · simp only [if_neg hstop]
        have hapart' : ∀ q, s.covers q = true → r.covers q = false := fun q hsq =>
          Bool.eq_false_iff.2 fun hrq => by simp [hapart q hrq] at hsq
        refine (firstCommon?_isFirst hr hs').congr fun q => ?_
        rw [and_comm, ← covers_and_cons hr hapart' (by lia) ss q, and_comm]

/-- No common position is found exactly when there is none. -/
theorem firstCommon?_eq_none_iff {rs ss : List Range} (hrs : Ascending rs) (hss : Ascending ss) :
    firstCommon? rs ss = none ↔ ∀ p, covers rs p = true → covers ss p = false := by
  have hfirst := firstCommon?_isFirst hrs hss
  constructor
  · intro hnone p hp
    rw [hnone] at hfirst
    exact Bool.eq_false_iff.2 fun hq => hfirst p ⟨hp, hq⟩
  · intro hnone
    exact hfirst.unique fun p hp => by simp [hnone p hp.1] at hp

/-- A search for the next range finds one as soon as a later position is covered. -/
theorem exists_nextStart? {rs : List Range} {p q : Position} (hp : covers rs p = false)
    (hq : covers rs q = true) (hpq : p ≤ q) : ∃ s, nextStart? rs p = some s := by
  obtain ⟨r, hr, hstart, hstop⟩ := covers_iff.1 hq
  have hlt : p < r.start := by
    rw [Bool.eq_false_iff, Ne, covers_iff] at hp
    exact Int.not_le.1 fun hle => hp ⟨r, hr, hle, by lia⟩
  rw [← Option.isSome_iff_exists, nextStart?, Option.isSome_map, List.find?_isSome]
  exact ⟨r, hr, by simpa using hlt⟩

/-- The start found is covered, and from an uncovered position up to it nothing is. -/
theorem nextStart?_eq_some : ∀ {rs : List Range} {p s : Position}, Ordered rs →
    nextStart? rs p = some s → covers rs p = false →
    p < s ∧ covers rs s = true ∧ ∀ q, p ≤ q → q < s → covers rs q = false
  | r :: rest, p, s, h, hs, hp => by
    obtain ⟨hr, hfront, hrest⟩ := ordered_cons.1 h
    rw [covers_cons, Bool.or_eq_false_iff] at hp
    rw [nextStart?, List.find?_cons] at hs
    split at hs
    · next hlt =>
      cases hs
      rw [decide_eq_true_eq] at hlt
      refine ⟨hlt, by simp [Range.covers, hr], fun q hpq hq => ?_⟩
      refine covers_eq_false_of_lt fun t ht => ?_
      rcases List.mem_cons.1 ht with rfl | ht
      · exact hq
      · have := hfront t ht
        lia
    · next hle =>
      obtain ⟨hps, hcov, hgap⟩ := nextStart?_eq_some hrest hs hp.2
      refine ⟨hps, by simp [hcov], fun q hpq hqs => ?_⟩
      rw [covers_cons, Bool.or_eq_false_iff]
      refine ⟨?_, hgap q hpq hqs⟩
      -- the first range starts by `p` and does not cover it, so it has stopped
      have hstop := hp.1
      rw [Bool.eq_false_iff, Ne, Range.covers_iff] at hstop ⊢
      rw [decide_eq_false_iff_not] at hle
      lia

/-! ## Extent -/

theorem stop_le_of_getLast? : ∀ {rs : List Range} {r s : Range}, Ordered rs →
    rs.getLast? = some r → s ∈ rs → s.stop ≤ r.stop
  | [t], r, s, _, hr, hs => by
    cases hr
    cases List.mem_singleton.1 hs
    exact Int.le_refl _
  | t :: u :: rest, r, s, h, hr, hs => by
    obtain ⟨-, hfront, hrest⟩ := ordered_cons.1 h
    rw [List.getLast?_cons_cons] at hr
    rcases List.mem_cons.1 hs with rfl | hs
    · have hrmem := List.mem_of_getLast? hr
      have h1 := hfront r hrmem
      have h2 := hrest.nonempty r hrmem
      lia
    · exact stop_le_of_getLast? hrest hr hs

/-! ## Number of positions -/

theorem size_cons (r : Range) (rs : List Range) : size (r :: rs) = r.size + size rs := rfl

theorem size_onward_cons (r : Range) (rs : List Range) (p : Position) :
    size (onward (r :: rs) p) = (r.stop - max r.start p).toNat + size (onward rs p) := by
  rw [onward, List.filterMap_cons]
  cases hr : r.onward? p with
  | none =>
    have := onward?_eq_none hr
    have hzero : (r.stop - max r.start p).toNat = 0 := by lia
    simp [hzero, onward]
  | some s =>
    have hsize : s.size = (r.stop - max r.start p).toNat := by
      rw [Range.onward?] at hr
      split at hr
      · cases hr
      split at hr <;> cases hr <;> simp only [Range.size] <;> lia
    simp [size_cons, hsize, onward]

/-- The further on, the fewer positions are left. -/
theorem size_onward_anti (rs : List Range) {p q : Position} (hpq : p ≤ q) :
    size (onward rs q) ≤ size (onward rs p) := by
  induction rs with
  | nil => simp [onward]
  | cons r rest ih =>
    rw [size_onward_cons, size_onward_cons]
    lia

theorem size_onward_le (rs : List Range) (p : Position) : size (onward rs p) ≤ size rs := by
  induction rs with
  | nil => simp [onward]
  | cons r rest ih =>
    rw [size_onward_cons, size_cons, Range.size]
    lia

/-- Cutting off a covered position leaves fewer positions. -/
theorem size_onward_lt : ∀ {rs : List Range} {p q : Position}, covers rs p = true → p < q →
    size (onward rs q) < size rs
  | r :: rest, p, q, hp, hpq => by
    have hle := size_onward_le rest q
    rw [size_onward_cons, size_cons, Range.size]
    rw [covers_cons, Bool.or_eq_true, Range.covers_iff] at hp
    rcases hp with hp | hp
    · lia
    · have := size_onward_lt hp hpq
      lia

end Ranges

end RegAlloc
