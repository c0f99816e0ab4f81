import RegAlloc.Proofs.Order.Regular

/-!
# One numbering

A linear order can be read in four ways: as a list of slots, as the stretches of the blocks,
by looking up the position of an instruction, and by looking up what is at a position. All
four are one numbering, whether or not a block has code.

- `Graph.slotsIn` — the slots that a block should have;
- `Graph.slotsOf_eq` — the slots of an order are those of its stretches, one after the other;
- `LinearOrder.Consistent` — the four ways agree;
- `linearize_numbers` — they do in every linear order.
-/

namespace RegAlloc

/-- Among the elements of lists with different keys, those with one key are a list of their own. -/
theorem filter_flatMap_key {α β κ : Type} [DecidableEq κ] {key : α → κ} {keyOf : β → κ}
    {f : α → List β} {l : List α} (hnodup : (l.map key).Nodup)
    (hkey : ∀ x, ∀ y ∈ f x, keyOf y = key x) {x : α} (hx : x ∈ l) :
    (l.flatMap f).filter (keyOf · == key x) = f x := by
  have hother : ∀ z, key z ≠ key x → (f z).filter (keyOf · == key x) = [] := fun z hz =>
    List.filter_eq_nil_iff.2 fun y hy heq => hz ((hkey z y hy).symm.trans (beq_iff_eq.1 heq))
  induction l with
  | nil => cases hx
  | cons z rest ih =>
    rw [List.map_cons, List.nodup_cons] at hnodup
    rw [List.flatMap_cons, List.filter_append]
    rcases List.mem_cons.1 hx with rfl | hmem
    · -- no later list has the same key
      have hrest : (rest.flatMap f).filter (keyOf · == key x) = [] := by
        rw [List.filter_flatMap, List.flatMap_eq_nil_iff]
        exact fun t ht => hother t fun heq => hnodup.1 (heq ▸ List.mem_map_of_mem ht)
      rw [hrest, List.append_nil]
      exact List.filter_eq_self.2 fun y hy => beq_iff_eq.2 (hkey x y hy)
    · rw [hother z fun heq => hnodup.1 (heq ▸ List.mem_map_of_mem hmem), List.nil_append]
      exact ih hnodup.2 hmem

namespace Graph

variable {g : Graph}

/-- The slots of a block with a given stretch: its code in order, or one placeholder. -/
def slotsIn (g : Graph) (span : Span) : List Slot :=
  match g.instructions span.block with
  | [] => [{ position := span.first, block := span.block }]
  | code => code.zipIdx.map fun (i, k) =>
    { position := span.first + stride * k, block := span.block, instruction := some i }

theorem mem_slotsIn {span : Span} {slot : Slot} (h : slot ∈ g.slotsIn span) :
    slot.block = span.block ∧
      ((g.instructions span.block = [] ∧ slot.instruction = none) ∨
        ∃ (k : Nat) (i : Instruction), (g.instructions span.block)[k]? = some i ∧
          slot.position = span.first + stride * k ∧ slot.instruction = some i) := by
  unfold slotsIn at h
  split at h
  · next hempty =>
    cases List.mem_singleton.1 h
    exact ⟨rfl, .inl ⟨hempty, rfl⟩⟩
  · obtain ⟨⟨i, k⟩, hmem, rfl⟩ := List.mem_map.1 h
    exact ⟨rfl, .inr ⟨k, i, List.mk_mem_zipIdx_iff_getElem?.1 hmem, rfl, rfl⟩⟩

/-- The entries of a block, numbered from `k` on, are the slots of a stretch that begins
there. -/
theorem map_entriesOf (b : BlockId) (k : Nat) (span : Span) (hblock : span.block = b)
    (hfirst : span.first = k * stride) :
    (((g.entriesOf b).map fun i => (b, i)).zipIdx k).map
        (fun ((block, instruction), k) => ({ position := k * stride, block, instruction } : Slot)) =
      g.slotsIn span := by
  subst hblock
  unfold entriesOf slotsIn
  cases g.instructions span.block with
  | nil => simp [hfirst]
  | cons first rest =>
    rw [List.map_map, List.zipIdx_map, List.map_map, List.zipIdx_eq_map_add, List.map_map]
    refine List.map_congr_left fun ⟨i, j⟩ _ => ?_
    have hposition : ((k + j : Nat) : Position) * stride = k * stride + stride * j := by
      push_cast
      lia
    simp only [Function.comp, Prod.map, hfirst, hposition, id]

/-- The slots of an order are those of its stretches, one after the other. -/
theorem slotsOf_eq (blocks : List BlockId) :
    g.slotsOf blocks = (g.spansFrom 0 blocks).flatMap g.slotsIn := by
  suffices hall : ∀ (blocks : List BlockId) (k : Nat),
      ((blocks.flatMap fun b => (g.entriesOf b).map fun i => (b, i)).zipIdx k).map
          (fun ((block, instruction), k) =>
            ({ position := k * stride, block, instruction } : Slot)) =
        (g.spansFrom k blocks).flatMap g.slotsIn from hall blocks 0
  intro blocks
  induction blocks with
  | nil => exact fun _ => rfl
  | cons b rest ih =>
    intro k
    rw [List.flatMap_cons, List.zipIdx_append, List.map_append, List.length_map, ih, spansFrom,
      List.flatMap_cons]
    congr 1
    exact map_entriesOf b k _ rfl rfl

/-- Among the slots of stretches of different blocks, those of one block are its own. -/
theorem filter_flatMap_slotsIn {spans : List Span} (hnodup : (spans.map (·.block)).Nodup)
    {span : Span} (hspan : span ∈ spans) :
    (spans.flatMap g.slotsIn).filter (·.block == span.block) = g.slotsIn span :=
  filter_flatMap_key hnodup (fun _ _ hslot => (mem_slotsIn hslot).1) hspan

end Graph

/-- The slots of a linear order, stretch by stretch. -/
theorem LinearOrder.slots_of_linearize {g : Graph} {order : LinearOrder} {messages : Messages Issue}
    (h : g.linearize = .ok (.success order messages)) :
    order.slots = order.spans.flatMap order.graph.slotsIn := by
  obtain ⟨_, _, _, _, rfl⟩ := of_linearize h
  exact Graph.slotsOf_eq _

/-- Each stretch begins where the one before it stops. -/
theorem Contiguous.isChain : ∀ {spans : List Span} {p : Position}, Contiguous p spans →
    spans.IsChain fun s t => t.first = s.stop
  | [], _, _ => .nil
  | [_], _, _ => .singleton _
  | _ :: _ :: _, _, ⟨_, _, hrest⟩ => List.isChain_cons_cons.2 ⟨hrest.1, hrest.isChain⟩

namespace LinearOrder

/-- The four ways to read a linear order of a graph agree. -/
structure Consistent (order : LinearOrder) (g : Graph) : Prop where
  position : ∀ (k : Nat) (slot : Slot), order.slots[k]? = some slot → slot.position = stride * k
  first : ∃ s, order.spans.head? = some s ∧ s.first = 0
  next : order.spans.IsChain fun s t => t.first = s.last + stride
  span : ∀ s ∈ order.spans, order.span s.block = .ok s
  /-- The slots of a block are its instructions in order, or one placeholder. -/
  code : ∀ s ∈ order.spans, order.slots.filter (·.block == s.block) = g.slotsIn s
  /-- The slot at the position of an instruction, and in the gap behind it, is its own. -/
  slotAt : ∀ (b : BlockId) (k : Nat) (i : Instruction), (g.instructions b)[k]? = some i →
    i.index = k ∧ ∃ p, order.positionOf b k = .ok p ∧
      order.slotAt? p = some ⟨p, b, some i⟩ ∧ order.slotAt? (p + 1) = some ⟨p, b, some i⟩
  blockAt : ∀ (p : Position) (b : BlockId), order.blockAt? p = some b ↔
    ∃ s, order.span b = .ok s ∧ s.first ≤ p ∧ p ≤ s.last + 1
  isBlockStart : ∀ p, order.isBlockStart p = true ↔ ∃ s ∈ order.spans, s.first = p
  stop : ∃ s, order.spans.getLast? = some s ∧ order.stop = s.last + stride
  inside : ∀ p, (order.blockAt? p).isSome = true ↔ 0 ≤ p ∧ p < order.stop

variable {order : LinearOrder} {span : Span} {p : Position}

/-- There is a block at the positions from zero to the end. -/
theorem isSome_blockAt?_iff : (order.blockAt? p).isSome = true ↔ 0 ≤ p ∧ p < order.stop := by
  unfold blockAt? slotAt? stop
  rw [Option.isSome_map]
  split
  · next hneg =>
    simp only [Option.isSome_none, Bool.false_eq_true, false_iff]
    lia
  · next hnonneg =>
    rw [isSome_getElem?]
    lia

namespace Regular

/-- The first stretch is that of the entry, and it starts the numbering. -/
theorem exists_head (h : order.Regular) {entry : BlockId}
    (hentry : order.graph.entry = some entry) :
    ∃ s, order.spans.head? = some s ∧ s.first = 0 ∧ s.block = entry := by
  obtain ⟨s, hhead, hblock⟩ := Option.map_eq_some_iff.1 (h.entry.trans hentry)
  obtain ⟨rest, hcons⟩ := List.head?_eq_some_iff.1 hhead
  have hcontiguous := h.contiguous
  rw [hcons] at hcontiguous
  exact ⟨s, hhead, hcontiguous.1, hblock⟩

theorem span_eq_ok (h : order.Regular) {b : BlockId} :
    order.span b = .ok span ↔ span ∈ order.spans ∧ span.block = b := by
  rw [← h.span?_eq_some, LinearOrder.span, Ref.index?_natCast, Option.bind_some]
  cases order.span? b <;> simp

/-- The block at a position is the one whose stretch contains it. -/
theorem blockAt?_eq_some (h : order.Regular) {b : BlockId} : order.blockAt? p = some b ↔
    ∃ s ∈ order.spans, s.block = b ∧ s.first ≤ p ∧ p < s.stop := by
  rw [blockAt?, Option.map_eq_some_iff]
  constructor
  · rintro ⟨slot, hslot, rfl⟩
    exact (h.slotAt p slot hslot).2
  · rintro ⟨s, hs, rfl, hfirst, hstop⟩
    obtain ⟨slot, hslot⟩ := Option.isSome_iff_exists.1 (h.hasSlot s hs p hfirst hstop)
    obtain ⟨-, t, ht, hblock, hwithin⟩ := h.slotAt p slot hslot
    cases h.span_at_unique ht hs hwithin ⟨hfirst, hstop⟩
    exact ⟨slot, hslot, hblock.symm⟩

/-- The last stretch ends where the order does. -/
theorem stop_eq (h : order.Regular) (hlast : order.spans.getLast? = some span) :
    order.stop = span.stop := by
  have hspan := List.mem_of_getLast? hlast
  have hlt := h.contiguous.first_lt_stop span hspan
  have hnonneg := h.contiguous.le_first span hspan
  -- the last position of the last stretch is inside, and the last one inside is in a stretch
  have hle : span.stop - 1 < order.stop := by
    have hat := h.blockAt?_eq_some (p := span.stop - 1) |>.2 ⟨span, hspan, rfl, by lia, by lia⟩
    exact (isSome_blockAt?_iff.1 (Option.isSome_of_eq_some hat)).2
  obtain ⟨b, hb⟩ := Option.isSome_iff_exists.1
    (isSome_blockAt?_iff.2 (⟨by lia, by lia⟩ : 0 ≤ order.stop - 1 ∧ order.stop - 1 < order.stop))
  obtain ⟨s, hs, -, -, hstop⟩ := h.blockAt?_eq_some.1 hb
  -- no stretch stops behind the last one
  have hbehind : s.stop ≤ span.stop := by
    obtain ⟨front, hfront⟩ := List.getLast?_eq_some_iff.1 hlast
    have hpairwise := h.contiguous.pairwise
    rw [hfront] at hs hpairwise
    rcases List.mem_append.1 hs with hs | hs
    · have := (List.pairwise_append.1 hpairwise).2.2 s hs span (by simp)
      lia
    · cases List.mem_singleton.1 hs
      exact Int.le_refl _
  lia

/-- An instruction has a position, given by its place in its block. -/
theorem positionOf_instruction (h : order.Regular) (hspan : span ∈ order.spans) {k : Nat}
    {i : Instruction} (hk : (order.graph.instructions span.block)[k]? = some i) :
    order.positionOf span.block k = .ok (span.first + stride * k) := by
  obtain ⟨hlength, -⟩ := List.getElem?_eq_some_iff.1 hk
  have hsize := h.stop span hspan
  rw [Span.stop] at hsize
  have hle : span.first + (k : Int) * stride ≤ span.last := by lia
  unfold positionOf
  rw [h.span_block hspan]
  show (if span.first + (k : Int) * stride ≤ span.last then _ else _) = _
  rw [if_pos hle, Int.mul_comm]
  rfl

/-- The slot of an instruction is found at its position and in the gap behind it. -/
theorem slotAt?_instruction (h : order.Regular)
    (hslots : order.slots = order.spans.flatMap order.graph.slotsIn) (hspan : span ∈ order.spans)
    {k : Nat} {i : Instruction} (hk : (order.graph.instructions span.block)[k]? = some i)
    (hp : p - p % stride = span.first + stride * k) :
    order.slotAt? p = some ⟨span.first + stride * k, span.block, some i⟩ := by
  obtain ⟨hlength, -⟩ := List.getElem?_eq_some_iff.1 hk
  have hsize := h.stop span hspan
  have hwithin : span.first ≤ p ∧ p < span.stop := by lia
  obtain ⟨slot, hslot⟩ := Option.isSome_iff_exists.1 (h.hasSlot span hspan p hwithin.1 hwithin.2)
  -- the slot is in the stretch that contains the position
  obtain ⟨hposition, s, hs, hblock, hin⟩ := h.slotAt p slot hslot
  cases h.span_at_unique hs hspan hin hwithin
  have hmem : slot ∈ order.slots := by
    unfold slotAt? at hslot
    split at hslot
    · cases hslot
    · exact List.mem_of_getElem? hslot
  rw [hslots] at hmem
  obtain ⟨t, ht, hmem⟩ := List.mem_flatMap.1 hmem
  obtain ⟨howner, hentry⟩ := Graph.mem_slotsIn hmem
  cases h.span_unique ht hspan (howner.symm.trans hblock.symm)
  -- every slot of the stretch stands at its own instruction
  rcases hentry with ⟨hempty, -⟩ | ⟨l, j, hl, hat, hcode⟩
  · simp [hempty] at hk
  · have hlk : l = k := by lia
    subst hlk
    cases hk.symm.trans hl
    rw [hslot, ← hat, hblock, ← hcode]

end Regular

end LinearOrder

/-- Every linear order is one consistent numbering. -/
theorem linearize_numbers {g : Graph} (hg : g.Built) {order : LinearOrder}
    {messages : Messages Issue} (h : g.linearize = .ok (.success order messages)) :
    order.Consistent g := by
  have hregular := LinearOrder.regular_of_linearize hg.wellFormed h
  obtain ⟨entry, hentry, -, -, horder⟩ := LinearOrder.of_linearize h
  -- the slots are those of the spans, one after the other
  have hslots : order.slots = order.spans.flatMap g.slotsIn := by
    rw [horder]
    exact Graph.slotsOf_eq _
  have hgraph : order.graph = g.freeze := by rw [horder]
  obtain ⟨s, hhead, hfirst, -⟩ := hregular.exists_head (by rw [hgraph]; exact hentry)
  refine
    { position := fun k slot hslot => ?position
      first := ⟨s, hhead, hfirst⟩
      next := hregular.contiguous.isChain
      span := fun s hs => hregular.span_block hs
      code := fun s hs => ?code
      slotAt := fun b k i hi => ⟨(hg.indexed b k i hi).1, ?slotAt⟩
      blockAt := fun p b => ?blockAt
      isBlockStart := fun p => hregular.isBlockStart_iff
      stop := ?stop
      inside := fun p => LinearOrder.isSome_blockAt?_iff }
  case position =>
    -- a slot is numbered by its place in the list
    rw [horder] at hslot
    simp only [Graph.slotsOf, List.getElem?_map, List.getElem?_zipIdx, Option.map_map,
      Option.map_eq_some_iff] at hslot
    obtain ⟨_, -, rfl⟩ := hslot
    show ((0 + k : Nat) : Position) * stride = stride * k
    lia
  case code =>
    rw [hslots]
    exact Graph.filter_flatMap_slotsIn hregular.nodup hs
  case slotAt =>
    -- the block of an instruction exists, so it has a stretch
    have hb : b < order.graph.blocks.length := by
      rw [hgraph]
      exact Graph.lt_of_mem_instructions (List.mem_of_getElem? hi)
    obtain ⟨s, hs, rfl⟩ := hregular.exists_span hb
    have hk : (order.graph.instructions s.block)[k]? = some i := by
      rw [hgraph]
      exact hi
    have heven := hregular.even_first s hs
    have hslots' : order.slots = order.spans.flatMap order.graph.slotsIn := by
      rw [hgraph]
      exact hslots
    exact ⟨_, hregular.positionOf_instruction hs hk,
      hregular.slotAt?_instruction hslots' hs hk (by lia),
      hregular.slotAt?_instruction hslots' hs hk (by lia)⟩
  case blockAt =>
    -- the stretch of a block is what its first and its last position bound
    rw [hregular.blockAt?_eq_some]
    constructor
    · rintro ⟨s, hs, rfl, hfirst, hstop⟩
      rw [Span.stop] at hstop
      exact ⟨s, hregular.span_block hs, hfirst, by lia⟩
    · rintro ⟨s, hs, hfirst, hlast⟩
      obtain ⟨hs, hblock⟩ := hregular.span_eq_ok.1 hs
      exact ⟨s, hs, hblock, hfirst, by rw [Span.stop]; lia⟩
  case stop =>
    -- there is a last stretch, since there is a first one
    have hlast := List.getLast?_eq_some_getLast (List.ne_nil_of_mem (List.mem_of_head? hhead))
    exact ⟨_, hlast, hregular.stop_eq hlast⟩

/-- A loop around a block without code, entered from the last block. -/
def emptyHeader : Graph := Graph.run {} [
  .addBlock, .addBlock, .addBlock,
  .addInstruction (1 : Nat) { opcode := "a" }, .addInstruction (1 : Nat) { opcode := "b" },
  .addInstruction (2 : Nat) { opcode := "c" },
  .addEdge (2 : Nat) (0 : Nat), .addEdge (0 : Nat) (1 : Nat), .addEdge (1 : Nat) (0 : Nat),
  .setEntry (2 : Nat)]

theorem linearize_numbers_emptyHeader : emptyHeader.Built ∧ ∃ order messages,
    emptyHeader.linearize = .ok (.success order messages) ∧ order.Consistent emptyHeader :=
  ⟨⟨_, rfl⟩, _, _, rfl, linearize_numbers ⟨_, rfl⟩ rfl⟩

end RegAlloc
