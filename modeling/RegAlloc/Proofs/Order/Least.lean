import RegAlloc.Proofs.Order.Correct

/-!
# The least of all orders

Of the blocks that may be placed, a schedule takes the one with the lowest number. That is a
choice made for one place at a time, but no other choices lead to an order that compares less
as a whole: where another order first differs from the schedule, its block could have been
placed there as well, and so it has a greater number.

- `Graph.Greedy`, `Graph.Greedy.place` — each block was the least one that could be placed;
- `Graph.orderings` — the orders in which edges lead forwards, loop edges aside;
- `linearize_least` — the blocks of a linear order are the least of them.
-/

namespace RegAlloc

/-- A search in an ascending list finds the least element that it looks for. -/
theorem le_of_find?_eq_some {p : Nat → Bool} {l : List Nat} {a b : Nat}
    (hsorted : l.Pairwise (· < ·)) (hfound : l.find? p = some b) (ha : a ∈ l) (hpa : p a = true) :
    b ≤ a := by
  obtain ⟨-, front, rest, rfl, hfront⟩ := List.find?_eq_some_iff_append.1 hfound
  rcases List.mem_append.1 ha with ha | ha
  · exact absurd hpa (by simpa using hfront a ha)
  · rcases List.mem_cons.1 ha with rfl | ha
    · exact Nat.le_refl a
    · have hrest := (List.pairwise_append.1 hsorted).2.1
      exact Nat.le_of_lt ((List.pairwise_cons.1 hrest).1 a ha)

namespace Graph

variable {g : Graph} {backEdges : List Edge}

/-! ## Greedy schedules -/

/-- Blocks of which each one was, when it was placed, the least that could be. -/
structure Greedy (g : Graph) (backEdges : List Edge) (waiting placed : List BlockId) : Prop where
  sorted : waiting.Pairwise (· < ·)
  least : ∀ front b rest, placed = front ++ b :: rest → ∀ a < g.blocks.length, a ∉ front →
    g.isReady backEdges front a = true → b ≤ a

/-- The first block that is ready is the least one. -/
theorem Greedy.place {waiting placed : List BlockId} (hplacing : Placing g backEdges waiting placed)
    (h : Greedy g backEdges waiting placed) {b : BlockId}
    (hfound : waiting.find? (g.isReady backEdges placed) = some b) :
    Greedy g backEdges (waiting.erase b) (placed ++ [b]) where
  sorted := h.sorted.sublist List.erase_sublist
  least front c rest hsplit a ha hout hready := by
    rcases List.eq_nil_or_concat rest with rfl | ⟨rest, last, rfl⟩
    · obtain ⟨rfl, hbc⟩ := List.append_inj' hsplit rfl
      cases hbc
      have hwaits : a ∈ waiting :=
        (List.mem_append.1 (hplacing.perm.mem_iff.2 (List.mem_range.2 ha))).resolve_left hout
      exact le_of_find?_eq_some h.sorted hfound hwaits hready
    · rw [List.concat_eq_append, ← List.cons_append, ← List.append_assoc] at hsplit
      exact h.least front c rest (List.append_inj' hsplit rfl).1 a ha hout hready

/-- Each block of a schedule is the least of those that could stand in its place. -/
theorem schedule_greedy (g : Graph) (backEdges : List Edge) :
    ∃ left, Greedy g backEdges left (g.schedule backEdges) := by
  have hstart : Placing g backEdges (List.range g.blocks.length) [] ∧
      Greedy g backEdges (List.range g.blocks.length) [] :=
    ⟨⟨List.Perm.refl _, by simp⟩, List.pairwise_lt_range, by simp⟩
  obtain ⟨left, -, hgreedy⟩ := placeNext_keep
    (P := fun waiting placed => Placing g backEdges waiting placed ∧
      Greedy g backEdges waiting placed)
    (fun _ _ _ ⟨hplacing, hgreedy⟩ hfound =>
      ⟨hplacing.place (List.mem_of_find?_eq_some hfound) (List.find?_some hfound),
        hgreedy.place hplacing hfound⟩) g.blocks.length hstart
  exact ⟨left, hgreedy⟩

/-! ## All orders of the blocks -/

/-- The orders of all blocks in which every edge leads to a later block, the edges in `loops`
aside. -/
def orderings (g : Graph) (loops : List Edge) : Set (List BlockId) :=
  {line | line.Perm (List.range g.blocks.length) ∧
    ∀ u v, g.HasEdge u v → ⟨u, v⟩ ∉ loops → line.idxOf u < line.idxOf v}

/-- In an order, a block stands once. -/
theorem notMem_front_of_mem_orderings {line : List BlockId} (hline : line ∈ g.orderings backEdges)
    {front rest : List BlockId} {a : BlockId} (hsplit : line = front ++ a :: rest) : a ∉ front := by
  have hnodup : (front ++ a :: rest).Nodup := hsplit ▸ hline.1.nodup_iff.2 List.nodup_range
  exact fun hmem => (List.nodup_append.1 hnodup).2.2 a hmem a List.mem_cons_self rfl

/-- In every order, a block could be placed when its turn comes. -/
theorem isReady_of_mem_orderings (hg : g.WellFormed) {line : List BlockId}
    (hline : line ∈ g.orderings backEdges) {front rest : List BlockId} {a : BlockId}
    (hsplit : line = front ++ a :: rest) : g.isReady backEdges front a = true := by
  have hout := notMem_front_of_mem_orderings hline hsplit
  obtain ⟨hperm, hforward⟩ := hline
  rw [isReady, List.all_eq_true]
  intro p hp
  rw [forwardPredecessors, List.mem_filter, decide_eq_true_eq] at hp
  have hedge : g.HasEdge p a := (hg.mirrored p a).2 hp.1
  have hmem : p ∈ line := hperm.mem_iff.2 (List.mem_range.2 (source_lt hedge))
  have hbefore := hforward p a hedge hp.2
  have hturn : line.idxOf a = front.length := by
    rw [hsplit, List.idxOf_append_of_notMem hout, List.idxOf_cons_self, Nat.add_zero]
  rw [hturn, ← List.mem_take_iff_idxOf_lt hmem, hsplit, List.take_left] at hbefore
  exact decide_eq_true hbefore

/-- Where an order first differs from a schedule, the schedule has the lower number. -/
theorem Greedy.le_of_mem_orderings (hg : g.WellFormed) {left placed : List BlockId}
    (h : Greedy g backEdges left placed) {line : List BlockId}
    (hline : line ∈ g.orderings backEdges) {front rest rest' : List BlockId} {a b : BlockId}
    (hplaced : placed = front ++ b :: rest) (hsplit : line = front ++ a :: rest') : b ≤ a := by
  have ha : a < g.blocks.length := List.mem_range.1 (hline.1.mem_iff.1 (by simp [hsplit]))
  exact h.least front b rest hplaced a ha (notMem_front_of_mem_orderings hline hsplit)
    (isReady_of_mem_orderings hg hline hsplit)

end Graph

/-- A list that has the lower element wherever it first differs from another one of its length
comes before it. -/
theorem eq_or_lex_of_forall_split : ∀ {l m : List Nat}, l.length = m.length →
    (∀ front a b rest rest', l = front ++ b :: rest → m = front ++ a :: rest' → b ≤ a) →
    m = l ∨ List.Lex (· < ·) l m
  | [], [], _, _ => .inl rfl
  | b :: rest, a :: rest', hlength, h => by
    rcases Nat.lt_or_eq_of_le (h [] a b rest rest' rfl rfl) with hlt | rfl
    · exact .inr (.rel hlt)
    · have hrest := eq_or_lex_of_forall_split (Nat.succ.inj hlength)
        fun front c d tail tail' hl hm =>
          h (b :: front) c d tail tail' (congrArg (b :: ·) hl) (congrArg (b :: ·) hm)
      exact hrest.imp (congrArg (b :: ·)) .cons

/-- The blocks of a linear order stand in an order in which every edge that closes no loop
leads to a later block, and of all such orders it is the first in the lexicographic order of
lists of numbers. -/
theorem linearize_least {g : Graph} (hg : g.Built) {order : LinearOrder}
    {messages : Messages Issue} (h : g.linearize = .ok (.success order messages)) :
    order.blocks ∈ g.orderings order.loopEdges ∧ ∀ line ∈ g.orderings order.loopEdges,
      line = order.blocks ∨ List.Lex (· < ·) order.blocks line := by
  have hsorts := LinearOrder.sorts_of_linearize hg.wellFormed h
  obtain ⟨-, hblocks, -⟩ := LinearOrder.blocks_of_linearize hg.wellFormed h
  refine ⟨⟨hsorts.perm, hsorts.forward⟩, fun line hline => ?_⟩
  obtain ⟨left, hgreedy⟩ := Graph.schedule_greedy g order.loopEdges
  rw [← hblocks] at hgreedy
  refine eq_or_lex_of_forall_split (hsorts.perm.trans hline.1.symm).length_eq ?_
  intro front a b rest rest' hplaced hsplit
  exact hgreedy.le_of_mem_orderings hg.wellFormed hline hplaced hsplit

/-- A cycle around two blocks that need not follow each other, entered from the last block. -/
def crossroads : Graph := Graph.run {} [
  .addBlock, .addBlock, .addBlock, .addBlock, .addBlock,
  .addEdge (4 : Nat) (3 : Nat), .addEdge (4 : Nat) (1 : Nat), .addEdge (3 : Nat) (0 : Nat),
  .addEdge (1 : Nat) (2 : Nat), .addEdge (0 : Nat) (2 : Nat), .addEdge (2 : Nat) (4 : Nat),
  .setEntry (4 : Nat)]

/-- The lowest block waits for another one, and the order that takes that one first compares
greater. -/
theorem linearize_least_crossroads : crossroads.Built ∧ ∃ order messages,
    crossroads.linearize = .ok (.success order messages) ∧ order.blocks = [4, 1, 3, 0, 2] ∧
      [4, 3, 0, 1, 2] ∈ crossroads.orderings order.loopEdges ∧
      List.Lex (· < ·) order.blocks [4, 3, 0, 1, 2] := by
  have hg : crossroads.Built := ⟨_, rfl⟩
  have h : crossroads.linearize = .ok (.success _ _) := rfl
  have hother : [4, 3, 0, 1, 2] ∈ crossroads.orderings [⟨2, 4⟩] := by
    refine ⟨by decide, fun u v hedge hforward => ?_⟩
    have hall : ∀ u ∈ List.range 5, ∀ v ∈ crossroads.successors u, ⟨u, v⟩ ∉ [(⟨2, 4⟩ : Edge)] →
        [4, 3, 0, 1, 2].idxOf u < [4, 3, 0, 1, 2].idxOf v := by decide
    exact hall u (List.mem_range.2 (Graph.source_lt hedge)) v hedge hforward
  exact ⟨hg, _, _, h, rfl, hother, ((linearize_least hg h).2 _ hother).resolve_left (by decide)⟩

end RegAlloc
