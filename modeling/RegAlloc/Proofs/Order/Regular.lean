import Mathlib.Data.List.Nodup
import Mathlib.Data.List.Pairwise
import RegAlloc.Order.Linearize
import RegAlloc.Proofs.Order.Emission

/-!
# Linear orders are regular

The stretches of a linear order follow each other without a gap, one for each block and
two positions for each of its instructions. Edges that close no loop lead forwards, and
loop edges lead back or stay.

- `Span.stop` — one past the last position of a stretch;
- `Contiguous` — stretches that follow each other;
- `LinearOrder.Regular` — the properties of an order that later proofs rely on;
- `LinearOrder.scheduled_of_linearize` — the order of a well-formed graph follows its schedule;
- `LinearOrder.regular_of_linearize` — every linear order of a graph that is built has them.
-/

namespace RegAlloc

/-- One past the last position of a stretch, its exit gap included. -/
def Span.stop (span : Span) : Position := span.last + stride

/-- Stretches that follow each other from a position on. -/
def Contiguous : Position → List Span → Prop
  | _, [] => True
  | p, span :: rest => span.first = p ∧ span.first < span.stop ∧ Contiguous span.stop rest

namespace Contiguous

theorem le_first : ∀ {spans : List Span} {p : Position}, Contiguous p spans →
    ∀ span ∈ spans, p ≤ span.first
  | first :: rest, p, ⟨hfirst, hlt, hrest⟩, span, hspan => by
    rcases List.mem_cons.1 hspan with rfl | hspan
    · exact Int.le_of_eq hfirst.symm
    · have := le_first hrest span hspan
      lia

theorem first_lt_stop : ∀ {spans : List Span} {p : Position}, Contiguous p spans →
    ∀ span ∈ spans, span.first < span.stop
  | first :: rest, p, ⟨_, hlt, hrest⟩, span, hspan => by
    rcases List.mem_cons.1 hspan with rfl | hspan
    · exact hlt
    · exact first_lt_stop hrest span hspan

/-- Earlier stretches end before later ones start. -/
theorem pairwise : ∀ {spans : List Span} {p : Position}, Contiguous p spans →
    spans.Pairwise fun s t => s.stop ≤ t.first
  | [], _, _ => .nil
  | _ :: _, _, ⟨_, _, hrest⟩ => List.pairwise_cons.2 ⟨hrest.le_first, hrest.pairwise⟩

/-- No position between stretches is left out. -/
theorem exists_at : ∀ {spans : List Span} {p : Position}, Contiguous p spans →
    ∀ {q : Position}, p ≤ q → (∃ s ∈ spans, q < s.stop) →
      ∃ s ∈ spans, s.first ≤ q ∧ q < s.stop
  | first :: rest, p, ⟨hfirst, _, hrest⟩, q, hle, ⟨s, hs, hlt⟩ => by
    by_cases hq : q < first.stop
    · exact ⟨first, by simp, by lia, hq⟩
    · rcases List.mem_cons.1 hs with rfl | hs
      · exact absurd hlt hq
      · obtain ⟨t, ht, hwithin⟩ := exists_at hrest (Int.not_lt.1 hq) ⟨s, hs, hlt⟩
        exact ⟨t, List.mem_cons_of_mem _ ht, hwithin⟩

/-- Stretches of different blocks that stand in this order do not overlap. -/
theorem stop_le_first {p : Position} {spans : List Span} (h : Contiguous p spans)
    (hnodup : (spans.map (·.block)).Nodup) {s t : Span} (hs : s ∈ spans) (ht : t ∈ spans)
    {front rest : List BlockId} (hsplit : spans.map (·.block) = front ++ t.block :: rest)
    (hbefore : s.block ∈ front) : s.stop ≤ t.first := by
  obtain ⟨before, behind, rfl, rfl, hbehind⟩ := List.map_eq_append_iff.1 hsplit
  obtain ⟨t', behind', rfl, htt', -⟩ := List.map_eq_cons_iff.1 hbehind
  obtain ⟨s', hs', hss'⟩ := List.mem_map.1 hbefore
  have hinj := List.inj_on_of_nodup_map hnodup
  cases hinj (by simp) ht htt'
  cases hinj (by simp [hs']) hs hss'
  exact (List.pairwise_append.1 h.pairwise).2.2 s hs' t (by simp)

end Contiguous

namespace Graph

/-! ## The numbering -/

variable {g : Graph}

theorem length_entriesOf (g : Graph) (b : BlockId) :
    (g.entriesOf b).length = max 1 (g.instructions b).length := by
  rw [entriesOf]
  split
  · next h => simp [h]
  · next h =>
    have : (g.instructions b).length ≠ 0 := fun hzero => h (List.length_eq_zero_iff.1 hzero)
    rw [List.length_map]
    omega

theorem map_block_spansFrom : ∀ (k : Nat) (blocks : List BlockId),
    (g.spansFrom k blocks).map (·.block) = blocks
  | _, [] => rfl
  | _, b :: rest => congrArg (b :: ·) (map_block_spansFrom _ rest)

theorem stop_spansFrom : ∀ {k : Nat} {blocks : List BlockId}, ∀ span ∈ g.spansFrom k blocks,
    span.stop = span.first + stride * (max 1 (g.instructions span.block).length : Nat)
  | k, b :: rest, span, hspan => by
    rcases List.mem_cons.1 hspan with rfl | hspan
    · simp only [Span.stop, length_entriesOf]
      lia
    · exact stop_spansFrom span hspan

theorem contiguous_spansFrom : ∀ (k : Nat) (blocks : List BlockId),
    Contiguous (k * stride) (g.spansFrom k blocks)
  | _, [] => trivial
  | k, b :: rest => by
    have hpos : 0 < (g.entriesOf b).length := by rw [length_entriesOf]; omega
    have hrest := contiguous_spansFrom (k + (g.entriesOf b).length) rest
    refine ⟨rfl, ?_, ?_⟩
    · simp only [Span.stop]
      lia
    · convert hrest using 1
      simp only [Span.stop]
      lia

/-- The entries of a sequence of blocks and the stretches of the blocks fit together. -/
theorem mem_spansFrom_of_entry : ∀ {blocks : List BlockId} {k j : Nat} {b : BlockId}
    {i : Option Instruction},
    (blocks.flatMap fun b => (g.entriesOf b).map fun i => (b, i))[j]? = some (b, i) →
    ∃ span ∈ g.spansFrom k blocks, span.block = b ∧ span.first ≤ (k + j : Nat) * stride ∧
      (k + j : Nat) * stride + 1 < span.stop
  | b' :: rest, k, j, b, i, hj => by
    rw [List.flatMap_cons] at hj
    by_cases hlt : j < (g.entriesOf b').length
    · rw [List.getElem?_append_left (by simpa using hlt)] at hj
      simp only [List.getElem?_map, Option.map_eq_some_iff, Prod.mk.injEq] at hj
      obtain ⟨_, -, rfl, -⟩ := hj
      refine ⟨_, List.mem_cons_self, rfl, ?_, ?_⟩
      · dsimp only
        lia
      · simp only [Span.stop]
        lia
    · rw [List.getElem?_append_right (by simpa using hlt)] at hj
      rw [List.length_map] at hj
      obtain ⟨span, hspan, hblock, hle, hlt'⟩ := mem_spansFrom_of_entry
        (k := k + (g.entriesOf b').length) hj
      refine ⟨span, List.mem_cons_of_mem _ hspan, hblock, ?_, ?_⟩ <;> lia

/-- The stretches end where the entries do. -/
theorem stop_le_of_mem_spansFrom : ∀ {blocks : List BlockId} {k : Nat},
    ∀ span ∈ g.spansFrom k blocks, span.stop ≤
      (k + (blocks.flatMap fun b => (g.entriesOf b).map fun i => (b, i)).length : Nat) * stride
  | b :: rest, k, span, hspan => by
    have hpos : 0 < (g.entriesOf b).length := by rw [length_entriesOf]; omega
    rw [List.flatMap_cons, List.length_append, List.length_map]
    rcases List.mem_cons.1 hspan with rfl | hspan
    · simp only [Span.stop]
      lia
    · have := stop_le_of_mem_spansFrom span hspan
      lia

end Graph

namespace LinearOrder

/-- What later proofs rely on in a linear order. -/
structure Regular (order : LinearOrder) : Prop where
  wellFormed : order.graph.WellFormed
  blocks : order.blocks.Perm (List.range order.graph.blocks.length)
  contiguous : Contiguous 0 order.spans
  stop : ∀ span ∈ order.spans, span.stop = span.first +
    stride * (max 1 (order.graph.instructions span.block).length : Nat)
  forward : ∀ s ∈ order.spans, ∀ t ∈ order.spans, t.block ∈ order.graph.successors s.block →
    order.isLoopEdge s.block t.block = false → s.stop ≤ t.first
  loopEdge : ∀ e ∈ order.loopEdges, e.target ∈ order.graph.successors e.source
  back : ∀ s ∈ order.spans, ∀ t ∈ order.spans, order.isLoopEdge s.block t.block = true →
    t.first ≤ s.first
  entry : (order.spans.head?.map (·.block)) = order.graph.entry
  slotAt : ∀ p slot, order.slotAt? p = some slot → slot.position = p - p % stride ∧
    ∃ span ∈ order.spans, span.block = slot.block ∧ span.first ≤ p ∧ p < span.stop
  hasSlot : ∀ span ∈ order.spans, ∀ p, span.first ≤ p → p < span.stop →
    (order.slotAt? p).isSome = true

namespace Regular

variable {order : LinearOrder}

theorem nodup (h : order.Regular) : (order.spans.map (·.block)).Nodup :=
  h.blocks.nodup_iff.2 List.nodup_range

theorem span_unique (h : order.Regular) {s t : Span} (hs : s ∈ order.spans) (ht : t ∈ order.spans)
    (heq : s.block = t.block) : s = t :=
  List.inj_on_of_nodup_map h.nodup hs ht heq

theorem exists_span (h : order.Regular) {b : BlockId} (hb : b < order.graph.blocks.length) :
    ∃ span ∈ order.spans, span.block = b :=
  List.mem_map.1 (h.blocks.mem_iff.2 (List.mem_range.2 hb))

theorem exists_span_target (h : order.Regular) {u v : BlockId}
    (huv : v ∈ order.graph.successors u) : ∃ span ∈ order.spans, span.block = v :=
  h.exists_span (h.wellFormed.target_lt u v huv)

theorem span?_eq_some (h : order.Regular) {b : BlockId} {span : Span} :
    order.span? b = some span ↔ span ∈ order.spans ∧ span.block = b := by
  rw [span?]
  constructor
  · intro hfind
    exact ⟨List.mem_of_find?_eq_some hfind, by simpa using List.find?_some hfind⟩
  · rintro ⟨hspan, rfl⟩
    cases hfind : order.spans.find? (·.block == span.block) with
    | none => simpa using List.find?_eq_none.1 hfind span hspan
    | some found =>
      have hblock := List.find?_some hfind
      rw [h.span_unique (List.mem_of_find?_eq_some hfind) hspan (beq_iff_eq.1 hblock)]

theorem span_block (h : order.Regular) {span : Span} (hspan : span ∈ order.spans) :
    order.span span.block = .ok span := by
  rw [LinearOrder.span, Ref.index?_natCast, Option.bind_some, h.span?_eq_some.2 ⟨hspan, rfl⟩]

/-- Blocks start at instructions, not in gaps. -/
theorem even_first (h : order.Regular) : ∀ span ∈ order.spans, span.first % stride = 0 := by
  suffices hall : ∀ (spans : List Span) (p : Position), Contiguous p spans → p % stride = 0 →
      (∀ span ∈ spans, ∃ n : Nat, span.stop = span.first + stride * n) →
      ∀ span ∈ spans, span.first % stride = 0 from
    hall order.spans 0 h.contiguous rfl fun span hspan => ⟨_, h.stop span hspan⟩
  intro spans
  induction spans with
  | nil => simp
  | cons span rest ih =>
    rintro p ⟨hfirst, -, hrest⟩ hp hstop
    obtain ⟨n, hn⟩ := hstop span (by simp)
    refine List.forall_mem_cons.2 ⟨by lia, ih span.stop hrest (by lia) fun s hs => ?_⟩
    exact hstop s (by simp [hs])

/-- Blocks end in gaps. -/
theorem odd_exit (h : order.Regular) {span : Span} (hspan : span ∈ order.spans) :
    (span.last + 1) % stride = 1 := by
  have heven := h.even_first span hspan
  have hstop := h.stop span hspan
  rw [Span.stop] at hstop
  lia

/-- Of two stretches one ends before the other starts. -/
theorem stop_le_or (h : order.Regular) {s t : Span} (hs : s ∈ order.spans) (ht : t ∈ order.spans)
    (hne : s ≠ t) : s.stop ≤ t.first ∨ t.stop ≤ s.first := by
  have : Std.Symm fun s t : Span => s.stop ≤ t.first ∨ t.stop ≤ s.first := ⟨fun _ _ => Or.symm⟩
  exact (h.contiguous.pairwise.imp fun hle => .inl hle :
    order.spans.Pairwise fun s t => s.stop ≤ t.first ∨ t.stop ≤ s.first).forall hs ht hne

/-- A position lies in one stretch. -/
theorem span_at_unique (h : order.Regular) {s t : Span} (hs : s ∈ order.spans)
    (ht : t ∈ order.spans) {p : Position} (hsp : s.first ≤ p ∧ p < s.stop)
    (htp : t.first ≤ p ∧ p < t.stop) : s = t := by
  refine Decidable.byContradiction fun hne => ?_
  rcases h.stop_le_or hs ht hne with hle | hle <;> lia

theorem first_le_last (h : order.Regular) {span : Span} (hspan : span ∈ order.spans) :
    span.first ≤ span.last := by
  have := h.stop span hspan
  rw [Span.stop] at this
  lia

/-- The last instruction of a stretch is in no other one. -/
theorem eq_of_last (h : order.Regular) {s t : Span} (hs : s ∈ order.spans) (ht : t ∈ order.spans)
    (hfirst : t.first ≤ s.last) (hlast : s.last ≤ t.last) : s = t := by
  refine h.span_at_unique hs ht (p := s.last) ⟨h.first_le_last hs, ?_⟩ ⟨hfirst, ?_⟩
  all_goals
    rw [Span.stop]
    lia

/-- A stretch that ends behind the start of another one contains it or stands behind it. -/
theorem stop_le_stop (h : order.Regular) {s t : Span} (hs : s ∈ order.spans)
    (ht : t ∈ order.spans) (hlt : s.first < t.stop) : s.stop ≤ t.stop := by
  by_cases heq : s = t
  · exact Int.le_of_eq (heq ▸ rfl)
  · have := h.contiguous.first_lt_stop t ht
    rcases h.stop_le_or hs ht heq with hle | hle <;> lia

/-- A stretch behind another one comes later in the list. -/
theorem mem_later (h : order.Regular) {earlier later : List Span} {span t : Span}
    (hspans : order.spans = earlier ++ span :: later) (ht : t ∈ order.spans)
    (hbehind : span.stop ≤ t.first) : t ∈ later := by
  have hlt := h.contiguous.first_lt_stop t ht
  have hlt' := h.contiguous.first_lt_stop span (by simp [hspans])
  have hpairwise := h.contiguous.pairwise
  rw [hspans] at ht hpairwise
  rcases List.mem_append.1 ht with ht | ht
  · have := (List.pairwise_append.1 hpairwise).2.2 t ht span (by simp)
    lia
  · rcases List.mem_cons.1 ht with rfl | ht
    · lia
    · exact ht

/-- The blocks start where their stretches do. -/
theorem isBlockStart_iff (h : order.Regular) {p : Position} :
    order.isBlockStart p = true ↔ ∃ span ∈ order.spans, span.first = p := by
  rw [isBlockStart]
  constructor
  · intro hstart
    split at hstart
    -- without a slot there is no start of a block
    · cases hstart
    · next slot hslot =>
      simp only [Bool.and_eq_true, beq_iff_eq, Option.map_eq_some_iff] at hstart
      obtain ⟨-, span, hspan, rfl⟩ := hstart
      exact ⟨span, (h.span?_eq_some.1 hspan).1, rfl⟩
  · rintro ⟨span, hspan, rfl⟩
    -- the first position of a stretch has a slot, which is of the block
    have hlt := h.contiguous.first_lt_stop span hspan
    obtain ⟨slot, hslot⟩ := Option.isSome_iff_exists.1
      (h.hasSlot span hspan span.first (Int.le_refl _) hlt)
    obtain ⟨hposition, s, hs, hblock, hwithin⟩ := h.slotAt _ slot hslot
    cases h.span_at_unique hs hspan hwithin ⟨Int.le_refl _, hlt⟩
    have heven := h.even_first span hspan
    have hfirst : order.span? slot.block = some span := h.span?_eq_some.2 ⟨hspan, hblock⟩
    have hposition' : slot.position = span.first := by lia
    simp [hslot, hfirst, hposition']

/-- No block starts within a stretch. -/
theorem isBlockStart_eq_false (h : order.Regular) {span : Span} (hspan : span ∈ order.spans)
    {p : Position} (hfirst : span.first < p) (hstop : p < span.stop) :
    order.isBlockStart p = false := by
  rw [Bool.eq_false_iff, ne_eq, h.isBlockStart_iff]
  rintro ⟨other, hother, rfl⟩
  have hlt := h.contiguous.first_lt_stop other hother
  cases h.span_at_unique hother hspan ⟨Int.le_refl _, hlt⟩ ⟨by lia, hstop⟩
  lia

/-- What holds of a stretch as soon as it holds of all behind it, holds of all. -/
theorem backward_induction (h : order.Regular) {P : Span → Prop}
    (hstep : ∀ span ∈ order.spans, (∀ t ∈ order.spans, span.stop ≤ t.first → P t) → P span) :
    ∀ span ∈ order.spans, P span := by
  have hsuffix : ∀ (later earlier : List Span), order.spans = earlier ++ later →
      ∀ span ∈ later, P span := by
    intro later
    induction later with
    | nil => simp
    | cons first rest ih =>
      intro earlier hspans
      have hrest := ih (earlier ++ [first]) (by simp [hspans])
      refine List.forall_mem_cons.2 ⟨hstep first (by simp [hspans]) fun t ht hbehind => ?_, hrest⟩
      exact hrest t (h.mem_later hspans ht hbehind)
  exact hsuffix order.spans [] rfl

end Regular

/-! ## Orders of graphs -/

section Scheduled

variable {g : Graph} {entry : BlockId} {w : Walk} {spans : List Span}

/-- Stretches that follow a schedule respect the edges that are no back edges. -/
theorem stop_le_first_of_forward (hg : g.WellFormed)
    (hmap : spans.map (·.block) = g.schedule w.backEdges) (hnodup : (spans.map (·.block)).Nodup)
    (hcontiguous : Contiguous 0 spans) {s t : Span} (hs : s ∈ spans) (ht : t ∈ spans)
    (hedge : t.block ∈ g.successors s.block) (hforward : ⟨s.block, t.block⟩ ∉ w.backEdges) :
    s.stop ≤ t.first := by
  have htmem : t.block ∈ g.schedule w.backEdges := hmap ▸ List.mem_map_of_mem ht
  obtain ⟨front, rest, hsplit⟩ := List.append_of_mem htmem
  exact hcontiguous.stop_le_first hnodup hs ht (hmap.trans hsplit)
    (Graph.forward_before hg.mirrored hsplit hedge hforward)

/-- Along edges that are no back edges every block comes later. -/
theorem first_le_of_path (hg : g.WellFormed)
    (hmap : spans.map (·.block) = g.schedule w.backEdges) (hnodup : (spans.map (·.block)).Nodup)
    (hcontiguous : Contiguous 0 spans)
    (hspan : ∀ b < g.blocks.length, ∃ span ∈ spans, span.block = b) {x y : BlockId}
    (hpath : Relation.ReflTransGen
      (fun x y => y ∈ g.successors x ∧ ⟨x, y⟩ ∉ w.backEdges) x y) :
    ∀ s ∈ spans, ∀ t ∈ spans, t.block = x → s.block = y → t.first ≤ s.first := by
  induction hpath with
  | refl =>
    rintro s hs t ht rfl heq
    exact Int.le_of_eq (List.inj_on_of_nodup_map hnodup hs ht heq ▸ rfl)
  | @tail y z _ hyz ih =>
    rintro s hs t ht rfl rfl
    obtain ⟨m, hm, rfl⟩ := hspan y (Graph.source_lt hyz.1)
    have := ih m hm t ht rfl rfl
    have := stop_le_first_of_forward hg hmap hnodup hcontiguous hm hs hyz.1 hyz.2
    have := hcontiguous.first_lt_stop m hm
    lia

end Scheduled

/-- What a linear order is made of. -/
theorem of_linearize {g : Graph} {order : LinearOrder} {messages : Messages Issue}
    (h : g.linearize = .ok (.success order messages)) :
    ∃ entry, g.entry = some entry ∧ (∀ b < g.blocks.length, b ∈ (g.walk entry).reached) ∧
      (g.orderBlocks entry (g.walk entry).backEdges).length = g.blocks.length ∧ order =
        { graph := g.freeze
          slots := g.slotsOf (g.orderBlocks entry (g.walk entry).backEdges)
          spans := g.spansFrom 0 (g.orderBlocks entry (g.walk entry).backEdges)
          loopEdges := (g.walk entry).backEdges } := by
  -- no entry, blocks that are not reached, or too few blocks in order: no success
  rw [Graph.linearize] at h
  split at h
  · cases h
  · next entry hentry =>
    dsimp only at h
    split at h
    · cases h
    · next hreached =>
      split at h
      · next hlength =>
        cases h
        refine ⟨entry, hentry, fun b hb => ?_, hlength, rfl⟩
        simp only [Graph.unreached, Bool.not_eq_true', Bool.not_eq_false, List.isEmpty_iff,
          List.filter_eq_nil_iff, List.mem_range, decide_eq_true_eq, Decidable.not_not] at hreached
        exact hreached b hb
      · cases h

/-- The order of a well-formed graph follows its schedule. -/
theorem scheduled_of_linearize {g : Graph} (hg : g.WellFormed) {order : LinearOrder}
    {messages : Messages Issue} (h : g.linearize = .ok (.success order messages)) :
    ∃ entry, g.entry = some entry ∧ (∀ b < g.blocks.length, b ∈ (g.walk entry).reached) ∧
      (g.schedule (g.walk entry).backEdges).length = g.blocks.length ∧ order =
        { graph := g.freeze
          slots := g.slotsOf (g.schedule (g.walk entry).backEdges)
          spans := g.spansFrom 0 (g.schedule (g.walk entry).backEdges)
          loopEdges := (g.walk entry).backEdges } := by
  obtain ⟨entry, hentry, hreached, hlength, horder⟩ := of_linearize h
  rw [Graph.orderBlocks_eq_schedule hg (hg.entry_lt entry hentry) hreached] at hlength horder
  exact ⟨entry, hentry, hreached, hlength, horder⟩

theorem graph_of_linearize {g : Graph} {order : LinearOrder} {messages : Messages Issue}
    (h : g.linearize = .ok (.success order messages)) : order.graph = g.freeze := by
  obtain ⟨_, _, _, _, rfl⟩ := of_linearize h
  rfl

/-- A linear order numbers the instructions as the graph does. -/
theorem indexed_of_linearize {g : Graph} (hg : g.Indexed) {order : LinearOrder}
    {messages : Messages Issue} (h : g.linearize = .ok (.success order messages)) :
    order.graph.Indexed := by
  rw [graph_of_linearize h]
  exact hg

/-- The slot at a position belongs to the stretch around it. -/
theorem slotAt_slotsOf (g : Graph) (blocks : List BlockId) (p : Position) (slot : Slot)
    (h : (if p < 0 then none else (g.slotsOf blocks)[(p / stride).toNat]?) = some slot) :
    slot.position = p - p % stride ∧
      ∃ span ∈ g.spansFrom 0 blocks, span.block = slot.block ∧ span.first ≤ p ∧ p < span.stop := by
  split at h
  · cases h
  · simp only [Graph.slotsOf, List.getElem?_map, List.getElem?_zipIdx, Option.map_eq_some_iff] at h
    obtain ⟨_, ⟨⟨b, i⟩, hentry, rfl⟩, rfl⟩ := h
    obtain ⟨span, hspan, hblock, hle, hlt⟩ := Graph.mem_spansFrom_of_entry (k := 0) hentry
    refine ⟨?_, span, hspan, hblock, ?_, ?_⟩
    · dsimp only
      lia
    · lia
    · lia

/-- Every position of a stretch has a slot. -/
theorem hasSlot_slotsOf (g : Graph) (blocks : List BlockId) : ∀ span ∈ g.spansFrom 0 blocks,
    ∀ p, 0 ≤ span.first → span.first ≤ p → p < span.stop →
      (if p < 0 then none else (g.slotsOf blocks)[(p / stride).toNat]?).isSome = true := by
  intro span hspan p hnonneg hle hlt
  have hstop := Graph.stop_le_of_mem_spansFrom span hspan
  rw [if_neg (by lia), Option.isSome_iff_ne_none, ne_eq, List.getElem?_eq_none_iff, Nat.not_le]
  simp only [Graph.slotsOf, List.length_map, List.length_zipIdx]
  lia

/-- Every linear order of a well-formed graph is regular. -/
theorem regular_of_linearize {g : Graph} (hg : g.WellFormed) {order : LinearOrder}
    {messages : Messages Issue} (h : g.linearize = .ok (.success order messages)) :
    order.Regular := by
  obtain ⟨entry, hentry, hreached, hlength, rfl⟩ := scheduled_of_linearize hg h
  have hwalk := Walk.Inv.walk g entry
  -- of the walk only what it reached and its back edges are used
  generalize g.walk entry = w at hreached hlength hwalk ⊢
  have hperm := Graph.schedule_perm hlength
  have hmap : (g.spansFrom 0 (g.schedule w.backEdges)).map (·.block) = g.schedule w.backEdges :=
    Graph.map_block_spansFrom ..
  have hcontiguous : Contiguous 0 (g.spansFrom 0 (g.schedule w.backEdges)) := by
    simpa using Graph.contiguous_spansFrom (g := g) 0 (g.schedule w.backEdges)
  have hstop : ∀ span ∈ g.spansFrom 0 (g.schedule w.backEdges), _ := Graph.stop_spansFrom
  have hslotAt := slotAt_slotsOf g (g.schedule w.backEdges)
  have hhasSlot := hasSlot_slotsOf g (g.schedule w.backEdges)
  generalize g.spansFrom 0 (g.schedule w.backEdges) = spans
    at hmap hcontiguous hstop hslotAt hhasSlot ⊢
  have hblocks : (spans.map (·.block)).Perm (List.range g.blocks.length) := hmap ▸ hperm
  have hnodup : (spans.map (·.block)).Nodup := hblocks.nodup_iff.2 List.nodup_range
  have hspan : ∀ b < g.blocks.length, ∃ span ∈ spans, span.block = b := fun b hb =>
    List.mem_map.1 (hblocks.mem_iff.2 (List.mem_range.2 hb))
  refine ⟨hg.freeze, hblocks, hcontiguous, hstop, fun s hs t ht hedge hforward => ?_,
    fun e he => (hwalk.back e he).1, fun s hs t ht hback => ?_, ?_, hslotAt, fun span hspan p =>
    hhasSlot span hspan p (hcontiguous.le_first span hspan)⟩
  -- an edge that is not a loop edge leads to a later stretch
  · exact stop_le_first_of_forward hg hmap hnodup hcontiguous hs ht hedge
      (by simpa [isLoopEdge] using hforward)
  · have hback : ⟨s.block, t.block⟩ ∈ w.backEdges := by simpa [isLoopEdge] using hback
    exact first_le_of_path hg hmap hnodup hcontiguous hspan (hwalk.back_path hback) s hs t ht rfl
      rfl
  -- the first block in order is the entry
  · change spans.head?.map (·.block) = g.entry
    rw [← List.head?_map, hmap, hentry]
    have hlt := hg.entry_lt entry hentry
    cases hscheduled : g.schedule w.backEdges with
    | nil =>
      rw [hscheduled, List.length_nil] at hlength
      lia
    | cons b rest =>
      have hb : b < g.blocks.length := List.mem_range.1 (hperm.mem_iff.1 (by simp [hscheduled]))
      exact congrArg some (Graph.head_schedule hg hwalk hscheduled (hreached b hb))

end LinearOrder

end RegAlloc
