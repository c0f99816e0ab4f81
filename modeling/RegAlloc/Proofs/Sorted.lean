import RegAlloc.Sorted

/-!
# Stable insertion keeps order

Putting an element in front of the first one that belongs behind it keeps a list in
order, as long as the mark that finds the place agrees with that order.

- `sublist_insertBefore`, `insertBefore_append`, `pairwise_insertBefore` — one insertion;
- `pairwise_sortBy` — a whole sort, for elements of which any two can be told apart;
- `pairwise_sortBy_of_trans` — a whole sort, for elements that may be the same.
-/

namespace RegAlloc

universe u

variable {α : Type u} {R : α → α → Prop}

/-- An insertion leaves the others as they stand. -/
theorem sublist_insertBefore (later : α → Bool) (x : α) :
    ∀ l : List α, l.Sublist (insertBefore later x l)
  | [] => List.nil_sublist _
  | y :: ys => by
    rw [insertBefore]
    split
    · exact List.sublist_cons_self ..
    · exact (sublist_insertBefore later x ys).cons_cons y

/-- An element goes between those that belong before it and those that belong behind it. -/
theorem insertBefore_append {later : α → Bool} (x : α) {front behind : List α}
    (hfront : ∀ y ∈ front, later y = false) (hbehind : ∀ y ∈ behind, later y = true) :
    insertBefore later x (front ++ behind) = front ++ x :: behind := by
  induction front with
  | nil =>
    cases behind with
    | nil => rfl
    | cons y behind =>
      show insertBefore later x (y :: behind) = x :: y :: behind
      rw [insertBefore, if_pos (hbehind y (by simp))]
  | cons y front ih =>
    obtain ⟨hy, hfront⟩ := List.forall_mem_cons.1 hfront
    show insertBefore later x (y :: (front ++ behind)) = y :: (front ++ x :: behind)
    rw [insertBefore, if_neg (by simp [hy]), ih hfront]

/-- An insertion keeps a list in order. -/
theorem pairwise_insertBefore {later : α → Bool} {x : α} :
    ∀ {l : List α}, l.Pairwise R → (∀ y ∈ l, later y = true → R x y) →
      (∀ y ∈ l, later y = false → R y x) → (∀ y z, R x y → R y z → R x z) →
      (insertBefore later x l).Pairwise R
  | [], _, _, _, _ => List.pairwise_singleton R x
  | y :: ys, h, hlater, hearlier, htrans => by
    obtain ⟨hy, hys⟩ := List.pairwise_cons.1 h
    rw [insertBefore]
    split
    · next hmark =>
      have hxy : R x y := hlater y (by simp) hmark
      refine List.pairwise_cons.2 ⟨fun z hz => ?_, h⟩
      rcases List.mem_cons.1 hz with rfl | hz
      · exact hxy
      · exact htrans y z hxy (hy z hz)
    · next hmark =>
      have hyx : R y x := hearlier y (by simp) (by simpa using hmark)
      have hrest := pairwise_insertBefore hys (fun z hz => hlater z (by simp [hz]))
        (fun z hz => hearlier z (by simp [hz])) htrans
      refine List.pairwise_cons.2 ⟨fun z hz => ?_, hrest⟩
      rcases mem_insertBefore.1 hz with rfl | hz
      · exact hyx
      · exact hy z hz

/-- A sort by a transitive order that tells any two of its elements apart puts them in
that order. -/
theorem pairwise_sortBy {before : α → α → Bool}
    (htrans : ∀ x y z, before x y = true → before y z = true → before x z = true) {l : List α}
    (htotal : l.Pairwise fun x y => before x y = true ∨ before y x = true) :
    (sortBy before l).Pairwise fun x y => before x y = true := by
  -- the part sorted so far stays in order, and is told apart from what is still to come
  suffices h : ∀ (l sorted : List α), sorted.Pairwise (fun x y => before x y = true) →
      (∀ x ∈ sorted, ∀ y ∈ l, before x y = true ∨ before y x = true) →
      l.Pairwise (fun x y => before x y = true ∨ before y x = true) →
      (l.foldl (fun sorted x => insertBefore (before x) x sorted) sorted).Pairwise
        fun x y => before x y = true by
    exact h l [] .nil (by simp) htotal
  intro l
  induction l with
  | nil => intro sorted hsorted _ _; exact hsorted
  | cons x xs ih =>
    intro sorted hsorted hacross hrest
    obtain ⟨hx, hxs⟩ := List.pairwise_cons.1 hrest
    refine ih _ ?_ ?_ hxs
    · refine pairwise_insertBefore hsorted (fun _ _ h => h) (fun y hy hmark => ?_)
        fun y z => htrans x y z
      rcases hacross y hy x (by simp) with h | h
      · exact h
      · simp [h] at hmark
    · intro y hy z hz
      rcases mem_insertBefore.1 hy with rfl | hy
      · exact hx z hz
      · exact hacross y hy z (by simp [hz])

/-- A sort puts its elements in any transitive order that its comparisons agree with. -/
theorem pairwise_sortBy_of_trans {before : α → α → Bool}
    (hbefore : ∀ x y, before x y = true → R x y) (hnot : ∀ x y, before x y = false → R y x)
    (htrans : ∀ x y z, R x y → R y z → R x z) (l : List α) : (sortBy before l).Pairwise R :=
  List.foldlRecOn (motive := List.Pairwise R) l _ .nil fun _ hsorted x _ =>
    pairwise_insertBefore hsorted (fun y _ => hbefore x y) (fun y _ => hnot x y) (htrans x)

end RegAlloc
