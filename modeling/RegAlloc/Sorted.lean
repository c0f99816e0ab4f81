/-!
# Stable insertion into ordered lists

Uses, split pieces, waiting intervals and groups of moves are all kept in order
by putting each new element in front of the first one that belongs behind it,
so elements that compare equal stay in the order in which they arrived.

- `insertBefore later x l` — `x` goes in front of the first element marked `later`;
- `sortBy before l` — insertion sort by a strict order, equal elements in place.
-/

namespace RegAlloc

universe u

variable {α : Type u}

/-- Put `x` in front of the first element that `later` marks, or at the end. -/
def insertBefore (later : α → Bool) (x : α) : List α → List α
  | [] => [x]
  | y :: ys => if later y then x :: y :: ys else y :: insertBefore later x ys

/-- The place at which `insertBefore` puts its element. -/
def insertionIndex (later : α → Bool) (l : List α) : Nat :=
  (l.takeWhile fun y => !later y).length

/-- Sort by the strict order `before`, keeping equal elements as they come. -/
def sortBy (before : α → α → Bool) (l : List α) : List α :=
  l.foldl (fun sorted x => insertBefore (before x) x sorted) []

/-- Insertion adds its element and loses none. -/
theorem insertBefore_perm (later : α → Bool) (x : α) (l : List α) :
    (insertBefore later x l).Perm (x :: l) := by
  induction l with
  | nil => exact .refl _
  | cons y ys ih =>
    rw [insertBefore]
    split
    · exact .refl _
    · exact (ih.cons y).trans (.swap x y ys)

@[simp] theorem mem_insertBefore {later : α → Bool} {x a : α} {l : List α} :
    a ∈ insertBefore later x l ↔ a = x ∨ a ∈ l := by
  rw [(insertBefore_perm later x l).mem_iff, List.mem_cons]

@[simp] theorem length_insertBefore (later : α → Bool) (x : α) (l : List α) :
    (insertBefore later x l).length = l.length + 1 := by
  rw [(insertBefore_perm later x l).length_eq, List.length_cons]

/-- Sorting only rearranges. -/
theorem sortBy_perm (before : α → α → Bool) (l : List α) : (sortBy before l).Perm l := by
  suffices h : ∀ (l acc : List α),
      (l.foldl (fun sorted x => insertBefore (before x) x sorted) acc).Perm (acc ++ l) by
    simpa [sortBy] using h l []
  intro l
  induction l with
  | nil => intro acc; simp
  | cons x xs ih =>
    intro acc
    rw [List.foldl_cons]
    refine (ih _).trans ?_
    refine ((insertBefore_perm _ x acc).append_right xs).trans ?_
    exact List.perm_middle.symm

@[simp] theorem mem_sortBy {before : α → α → Bool} {a : α} {l : List α} :
    a ∈ sortBy before l ↔ a ∈ l :=
  (sortBy_perm before l).mem_iff

end RegAlloc
