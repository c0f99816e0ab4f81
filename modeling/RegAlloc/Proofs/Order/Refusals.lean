import Mathlib.Data.Nat.Find
import Mathlib.Order.Bounds.Defs
import RegAlloc.Proofs.Order.Correct

/-!
# Graphs without a linear order

A graph is refused for one of two reasons: it has no blocks, or some of its blocks cannot be
reached from the entry. In the second case all of them are reported together. This rests on
the walk, which stops on every graph, and then has met exactly the blocks that edges lead to.

- `Walk.turns` — how a walk ends: after some number of turns, and not before;
- `Walk.reachable_step`, `Graph.reachable_of_mem_reached` — a walk meets nothing else than
  what can be reached;
- `Graph.Unreachable` — a block that edges do not lead to;
- `linearize_refuses_iff` — what is refused, and how it is reported.
-/

namespace RegAlloc

namespace Walk

variable {g : Graph} {entry : BlockId} {w : Walk}

/-! ## The end of a walk -/

theorem steps_add (g : Graph) (m n : Nat) (w : Walk) :
    w.steps g (m + n) = (w.steps g m).steps g n := by
  induction m generalizing w with
  | zero => rw [Nat.zero_add]; rfl
  | succ m ih => rw [Nat.succ_add]; exact ih (w.step g)

/-- A finished walk stays as it is. -/
theorem steps_finished (hpath : w.path = []) (n : Nat) : w.steps g n = w := by
  have hstep : w.step g = w := by simp [step, hpath]
  induction n with
  | zero => rfl
  | succ n ih => rw [steps, hstep, ih]

/-- A walk goes on for some number of turns, and then there is nothing left to explore. -/
theorem turns (hg : g.WellFormed) (hentry : entry < g.blocks.length) :
    ∃ n, (∀ m < n, ((start g entry).steps g m).path ≠ []) ∧
      ((start g entry).steps g n).path = [] ∧ g.walk entry = (start g entry).steps g n := by
  have hends : ∃ n, ((start g entry).steps g n).path = [] := ⟨_, path_walk hg hentry⟩
  refine ⟨Nat.find hends, fun m hm => Nat.find_min hends hm, Nat.find_spec hends, ?_⟩
  have hle : Nat.find hends ≤ 2 * g.edgeCount + 1 := Nat.find_min' hends (path_walk hg hentry)
  rw [Graph.walk, ← Nat.add_sub_of_le hle, steps_add, steps_finished (Nat.find_spec hends)]

/-! ## What a walk meets -/

/-- A step meets only what an edge leads to from a block that was met before. -/
theorem reachable_step (hinv : Inv g entry w)
    (h : ∀ b ∈ w.reached, Relation.ReflTransGen g.HasEdge entry b) :
    ∀ b ∈ (w.step g).reached, Relation.ReflTransGen g.HasEdge entry b := by
  have hpath := hinv.path
  have hpending := hinv.pending
  rw [Walk.step]
  split
  · exact h
  · exact h
  · next b s pending outer heq =>
    rw [heq] at hpath hpending
    dsimp only
    split
    · exact h
    · split
      · exact h
      -- a block is entered from one that can be reached
      · have hb : b ∈ w.reached := hpath.subset List.mem_cons_self
        have hs : s ∈ g.successors b :=
          hpending ⟨b, s :: pending⟩ List.mem_cons_self List.mem_cons_self
        exact List.forall_mem_cons.2 ⟨(h b hb).tail hs, h⟩

end Walk

namespace Graph

variable {g : Graph} {entry b : BlockId}

/-- Whatever a walk meets can be reached from where it started. -/
theorem reachable_of_mem_reached (hb : b ∈ (g.walk entry).reached) :
    Relation.ReflTransGen g.HasEdge entry b := by
  have hwalk := Walk.steps_keep (g := g) (n := 2 * g.edgeCount + 1)
    (P := fun w => Walk.Inv g entry w ∧
      ∀ b ∈ w.reached, Relation.ReflTransGen g.HasEdge entry b)
    (fun _ ⟨hinv, h⟩ => ⟨hinv.step, Walk.reachable_step hinv h⟩)
    ⟨.start g entry, fun b hb => List.mem_singleton.1 hb ▸ .refl⟩
  exact hwalk.2 b hb

/-- A block that no edges lead to from the entry. -/
def Unreachable (g : Graph) (b : BlockId) : Prop :=
  b < g.blocks.length ∧
    ∀ entry, g.entry = some entry → ¬ Relation.ReflTransGen g.HasEdge entry b

/-- The blocks that a walk from the entry does not meet are those that cannot be reached. -/
theorem mem_unreached_iff (hg : g.WellFormed) (hentry : g.entry = some entry) :
    b ∈ g.unreached (g.walk entry) ↔ g.Unreachable b := by
  have hreached : b ∈ (g.walk entry).reached ↔ Relation.ReflTransGen g.HasEdge entry b :=
    ⟨reachable_of_mem_reached, mem_reached hg (hg.entry_lt entry hentry)⟩
  rw [mem_unreached, hreached, Unreachable, hentry]
  simp

theorem pairwise_unreached (g : Graph) (w : Walk) : (g.unreached w).Pairwise (· < ·) :=
  List.pairwise_lt_range.filter _

/-! ## Refusals -/

/-- A graph has an entry unless it has no blocks. -/
theorem entry_eq_none_iff (hg : g.WellFormed) : g.entry = none ↔ g.blocks = [] := by
  constructor
  · unfold entry
    split
    · exact fun h => nomatch h
    · split
      · next hempty => exact fun _ => List.isEmpty_iff.1 hempty
      · exact fun h => nomatch h
  · intro hnone
    refine Option.eq_none_iff_forall_ne_some.2 fun b hb => ?_
    have hlt := hg.entry_lt b hb
    simp [hnone] at hlt

/-- A graph with blocks that cannot be reached is refused, and they are the cause. -/
theorem linearize_unreachable (hg : g.WellFormed) (hentry : g.entry = some entry)
    (hb : g.Unreachable b) :
    g.linearize = .ok (.fail [.unreachable (g.unreached (g.walk entry)) entry]) := by
  have hmissed : (!(g.unreached (g.walk entry)).isEmpty) = true := by
    have hmem := (mem_unreached_iff hg hentry).2 hb
    simpa [List.isEmpty_iff] using List.ne_nil_of_mem hmem
  unfold linearize
  simp only [hentry, hmissed, if_true]

end Graph

/-- A graph that is built either is put in order or refused, and it is refused exactly if it
has no blocks or a block that cannot be reached. All blocks that cannot be reached are
reported in one cause, in ascending order and at the least of them. The walk that looks for
them stops on every graph. -/
theorem linearize_refuses_iff {g : Graph} (hg : g.Built) :
    (∃ outcome, g.linearize = .ok outcome ∧
      (outcome.succeeded = false ↔ g.blocks = [] ∨ ∃ b, g.Unreachable b)) ∧
    (g.blocks = [] → g.linearize = .ok (.fail [.noBlocks])) ∧
    ((∃ b, g.Unreachable b) → ∃ (cause : Issue) (bs : List BlockId) (least : BlockId),
      g.linearize = .ok (.fail [cause]) ∧
      cause.diagnostic.family = .order ∧
      cause.diagnostic.code = Code.unreachableBlock.text ∧
      cause.diagnostic.blocks = bs.map Int.ofNat ∧
      bs.Pairwise (· < ·) ∧ (∀ b, b ∈ bs ↔ g.Unreachable b) ∧
      cause.diagnostic.site = some { block := some (least : Ref) } ∧
      IsLeast {b | g.Unreachable b} least) ∧
    ∀ entry < g.blocks.length, ∃ n,
      (∀ m < n, ((Walk.start g entry).steps g m).path ≠ []) ∧
      ((Walk.start g entry).steps g n).path = [] ∧
      g.walk entry = (Walk.start g entry).steps g n := by
  have hwell := hg.wellFormed
  have hnone : g.blocks = [] → g.linearize = .ok (.fail [.noBlocks]) := fun hblocks => by
    unfold Graph.linearize
    rw [(Graph.entry_eq_none_iff hwell).2 hblocks]
  -- a graph with a block has an entry
  have hentry : (∃ b, g.Unreachable b) → ∃ entry, g.entry = some entry := fun ⟨b, hb, _⟩ => by
    refine Option.ne_none_iff_exists'.1 fun hentry => ?_
    simp [(Graph.entry_eq_none_iff hwell).1 hentry] at hb
  refine ⟨?_, hnone, fun hmissed => ?_, fun entry => Walk.turns hwell⟩
  · by_cases hblocks : g.blocks = []
    · exact ⟨_, hnone hblocks, fun _ => .inl hblocks, fun _ => rfl⟩
    by_cases hmissed : ∃ b, g.Unreachable b
    · obtain ⟨entry, hentry⟩ := hentry hmissed
      obtain ⟨b, hb⟩ := hmissed
      exact ⟨_, Graph.linearize_unreachable hwell hentry hb, fun _ => .inr ⟨b, hb⟩, fun _ => rfl⟩
    · -- every block can be reached, so the graph has an order
      have hconnected : g.Connected := fun entry hentry b hb => by
        by_contra hpath
        refine hmissed ⟨b, hb, fun entry' hentry' => ?_⟩
        cases hentry.symm.trans hentry'
        exact hpath
      obtain ⟨order, messages, h⟩ := Graph.exists_linearize hwell hblocks hconnected
      have hreason : ¬ (g.blocks = [] ∨ ∃ b, g.Unreachable b) := not_or.2 ⟨hblocks, hmissed⟩
      exact ⟨_, h, by simp [Outcome.succeeded, hreason]⟩
  -- the blocks that were not reached are listed in ascending order
  · obtain ⟨entry, hentry⟩ := hentry hmissed
    obtain ⟨b, hb⟩ := hmissed
    have hmem : ∀ c, c ∈ g.unreached (g.walk entry) ↔ g.Unreachable c := fun c =>
      Graph.mem_unreached_iff hwell hentry
    have hsorted := Graph.pairwise_unreached g (g.walk entry)
    have hrefused := Graph.linearize_unreachable hwell hentry hb
    generalize g.unreached (g.walk entry) = bs at hmem hsorted hrefused
    cases bs with
    | nil => exact absurd ((hmem b).2 hb) List.not_mem_nil
    | cons least rest =>
      refine ⟨_, least :: rest, least, hrefused, rfl, rfl, rfl, hsorted, hmem, rfl,
        (hmem least).1 List.mem_cons_self, fun c hc => ?_⟩
      -- the first of them is the least
      rcases List.mem_cons.1 ((hmem c).2 hc) with rfl | hc
      · exact Nat.le_refl c
      · exact Nat.le_of_lt ((List.pairwise_cons.1 hsorted).1 c hc)

/-- A cycle that contains the entry, and blocks on both sides of it: one that leads into the
cycle, and two that follow each other in a cycle of their own. -/
def detached : Graph := Graph.run {} [
  .addBlock, .addBlock, .addBlock, .addBlock, .addBlock,
  .addEdge (0 : Nat) (1 : Nat), .addEdge (1 : Nat) (2 : Nat), .addEdge (2 : Nat) (2 : Nat),
  .addEdge (2 : Nat) (1 : Nat), .addEdge (3 : Nat) (4 : Nat), .addEdge (4 : Nat) (3 : Nat),
  .setEntry (1 : Nat)]

theorem linearize_refuses_iff_detached : detached.Built ∧ detached.Unreachable 0 ∧
    ∃ (cause : Issue) (bs : List BlockId) (least : BlockId),
      detached.linearize = .ok (.fail [cause]) ∧ cause.diagnostic.blocks = bs.map Int.ofNat ∧
      bs.Pairwise (· < ·) ∧ (∀ b, b ∈ bs ↔ detached.Unreachable b) ∧
      cause.diagnostic.site = some { block := some (least : Ref) } ∧ least = 0 := by
  have hg : detached.Built := ⟨_, rfl⟩
  have hfirst : detached.Unreachable 0 :=
    (Graph.mem_unreached_iff hg.wellFormed (rfl : detached.entry = some 1)).1 (by decide)
  obtain ⟨-, -, hreported, -⟩ := linearize_refuses_iff hg
  obtain ⟨cause, bs, least, hrefused, -, -, hblocks, hsorted, hmem, hsite, hleast⟩ :=
    hreported ⟨0, hfirst⟩
  exact ⟨hg, hfirst, cause, bs, least, hrefused, hblocks, hsorted, hmem, hsite,
    Nat.le_zero.1 (hleast.2 hfirst)⟩

end RegAlloc
