/-!
# Sorting by runs

A long list is sorted run by run: as many elements as stand in order already are one
run, and a run that is too short is filled up from the elements behind it. When a
comparison can be refused, the order in which the elements are first looked at
decides which of them is the cause.

- `Runs.leastLength` — how short a run may be;
- `Runs.extent` — how far the elements in front stand in order;
- `Runs.meetingOrder` — the elements in the order in which they are first looked at.
-/

namespace RegAlloc

universe u

variable {α : Type u}

namespace Runs

/-- The least length of a run in a list of `n` elements: all of them if there are fewer
than 64, and else `n` divided by the power of two that brings it to between 32 and 64,
rounded up. -/
def leastLength (n : Nat) : Nat :=
  let parts := 1 <<< (n.log2 - 5)
  (n + parts - 1) / parts

/-- How many elements go on with a run whose last element is `last`. In a descending
run each comes strictly before the one in front of it, in any other none does. -/
def extent (before : α → α → Bool) (descending : Bool) (last : α) : List α → Nat
  | [] => 0
  | x :: rest =>
    if before x last = descending then extent before descending x rest + 1 else 0

/-- The elements in the order in which a sort first looks at them, for at most `fuel`
runs of at least `least` elements. A run starts by comparing its second element with
its first, and looks at the second one first. The element that ends a run which is
long enough has been looked at before the next run starts: `met` says so of the
first one. -/
def meetingsFrom (before : α → α → Bool) (least : Nat) : Nat → Bool → List α → List α
  | fuel + 1, met, x :: y :: rest =>
    let ordered := extent before (before y x) y rest
    let others := max ordered (least - 2)
    (if met then [x, y] else [y, x]) ++ rest.take others
      ++ meetingsFrom before least fuel (least ≤ ordered + 2) (rest.drop others)
  | _, _, short => short

/-- The elements of a list in the order in which a sort by the strict order `before`
first looks at them. -/
def meetingOrder (before : α → α → Bool) (l : List α) : List α :=
  meetingsFrom before (leastLength l.length) l.length false l

theorem meetingsFrom_perm (before : α → α → Bool) (least fuel : Nat) (met : Bool)
    (l : List α) : (meetingsFrom before least fuel met l).Perm l := by
  fun_induction meetingsFrom before least fuel met l with
  | case1 fuel met x y rest ordered others ih =>
    have start : (if met then [x, y] else [y, x]).Perm [x, y] := by
      cases met
      · exact .swap x y []
      · exact .refl _
    have parts : (rest.take others ++ rest.drop others).Perm rest := by
      rw [List.take_append_drop]
    rw [List.append_assoc]
    exact start.append ((ih.append_left _).trans parts)
  | case2 => exact .refl _

/-- Every element is looked at. -/
theorem meetingOrder_perm (before : α → α → Bool) (l : List α) :
    (meetingOrder before l).Perm l :=
  meetingsFrom_perm ..

@[simp] theorem mem_meetingOrder {before : α → α → Bool} {a : α} {l : List α} :
    a ∈ meetingOrder before l ↔ a ∈ l :=
  (meetingOrder_perm before l).mem_iff

end Runs

end RegAlloc
