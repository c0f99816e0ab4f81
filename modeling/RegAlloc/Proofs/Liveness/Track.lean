import RegAlloc.Proofs.Liveness.Scan
import RegAlloc.Proofs.Ranges
import RegAlloc.Proofs.Sorted

/-!
# Following a register through code

While code is followed backwards, the life found so far covers either everything from
the start of the block up to the point that has been reached, if the value is needed
there, or nothing below that point. Each instruction settles two positions: its own, and
the gap behind it.

- `Track.Reached` — the state of a track at a point of a block;
- `Track.instruction_spec` — one instruction;
- `CodeLive` — where a value lives in straight-line code;
- `Track.code_spec` — straight-line code;
- `Track.mem_uses_code`, `Track.sorted_code` — the uses that are recorded.
-/

namespace RegAlloc

namespace Track

variable {r : VReg} {first p q : Position} {t : Track}

/-- A track that has been followed down to `p` in a block that starts at `first`: below
`p` the life covers the block if the value is needed, and nothing otherwise. -/
structure Reached (first p : Position) (t : Track) : Prop where
  ordered : Ranges.Ordered t.ranges
  below : ∀ q < p, Ranges.covers t.ranges q = true ↔ t.live = true ∧ first ≤ q

theorem Reached.lower {p' : Position} (h : Reached first p t) (hp : p' ≤ p) :
    Reached first p' t :=
  ⟨h.ordered, fun q hq => h.below q (by lia)⟩

/-! ## Whether the value is needed -/

theorem isEmpty_filter_uses (i : Instruction) (r : VReg) :
    (i.uses.filter (·.register == r)).isEmpty = !i.reads r := by
  rw [Bool.eq_iff_iff]
  simp [List.filter_eq_nil_iff, Instruction.reads]

theorem isEmpty_filter_defs (i : Instruction) (r : VReg) :
    (i.defs.filter (·.register == r)).isEmpty = !i.writes r := by
  rw [Bool.eq_iff_iff]
  simp [List.filter_eq_nil_iff, Instruction.writes]

theorem live_write (d : Def) : (write p t d).live = false := rfl

theorem live_writes (p : Position) : ∀ (ds : List Def) (t : Track),
    (ds.foldl (write p) t).live = (ds.isEmpty && t.live)
  | [], t => by simp
  | d :: ds, t => by rw [List.foldl_cons, live_writes p ds, live_write]; simp

theorem live_reads (first p : Position) : ∀ (us : List Use) (t : Track),
    (us.foldl (read first p) t).live = (!us.isEmpty || t.live)
  | [], t => by simp
  | u :: us, t => by rw [List.foldl_cons, live_reads first p us]; simp [read]

theorem live_instruction (r : VReg) (first p : Position) (i : Instruction) (t : Track) :
    (instruction r first p i t).live = (i.reads r || (!i.writes r && t.live)) := by
  rw [instruction, live_reads, live_writes, isEmpty_filter_uses, isEmpty_filter_defs, Bool.not_not]

/-- Following code finds whether the value is needed before it. -/
theorem live_code (r : VReg) (first : Position) : ∀ (c : List Instruction) (p : Position)
    (t : Track), (code r first p c t).live = liveBefore r t.live c
  | [], _, _ => rfl
  | i :: rest, p, t => by rw [code, live_instruction, live_code r first rest]; rfl

theorem live_extend_if (c : Prop) [Decidable c] (start stop : Position) (t : Track) :
    (if c then t.extend start stop else t).live = t.live := by
  split <;> rfl

theorem live_block (order : LinearOrder) (r : VReg) (span : Span) (out : Bool) (t : Track) :
    (t.block order r span out).live = liveBefore r out (order.graph.instructions span.block) := by
  rw [block]
  split
  · rw [live_extend_if, live_code, live_extend_if]
  · rw [live_code, live_extend_if]

/-! ## Writes -/

/-- A write starts the life in the gap behind the instruction. -/
theorem covers_write (h : Reached first (p + 1) t)
    (hgap : t.live = true → Ranges.covers t.ranges (p + 1) = true) (d : Def) (q : Position) :
    Ranges.covers (write p t d).ranges q = true ↔
      q = p + 1 ∨ (p + 1 < q ∧ Ranges.covers t.ranges q = true) := by
  simp only [write]
  cases hlive : t.live with
  | true =>
    -- the range that reached up to the gap now begins with the write
    have hbelow := h.below
    simp only [hlive, true_and] at hbelow
    simp only [if_true, Ranges.covers_raise h.ordered (hgap hlive)]
    constructor
    · rintro ⟨hq, hle | ⟨x, hqx, hxp, hx⟩⟩
      · exact (Int.lt_or_eq_of_le hle).symm.imp Eq.symm fun hlt => ⟨hlt, hq⟩
      · -- the life has no hole between the start of the block and the gap
        have hqfirst := (hbelow q (by lia)).1 hq
        simp [(hbelow x hxp).2 (by lia)] at hx
    · rintro (rfl | ⟨hlt, hq⟩)
      · exact ⟨hgap hlive, .inl (Int.le_refl _)⟩
      · exact ⟨hq, .inl (Int.le_of_lt hlt)⟩
  | false =>
    -- the value is not needed behind, so the write has a range of its own
    have hbelow := h.below q
    simp only [hlive, Bool.false_eq_true, false_and, iff_false] at hbelow
    simp only [Bool.false_eq_true, if_false, Ranges.covers_add, Range.covers_iff]
    constructor
    · rintro (hq | hq)
      · exact .inl (by lia)
      · refine (Int.lt_trichotomy q (p + 1)).elim (fun hlt => absurd hq (hbelow hlt)) fun hle => ?_
        exact hle.imp_right fun hlt => ⟨hlt, hq⟩
    · rintro (rfl | ⟨-, hq⟩)
      · exact .inl (by lia)
      · exact .inr hq

theorem reached_write (h : Reached first (p + 1) t)
    (hgap : t.live = true → Ranges.covers t.ranges (p + 1) = true) (d : Def) :
    Reached first (p + 1) (write p t d) := by
  refine ⟨?_, fun q hq => ?_⟩
  · simp only [write]
    split
    · exact Ranges.ordered_raise _ h.ordered
    · exact Ranges.ordered_add (by simp only; lia) h.ordered
  · rw [covers_write h hgap, live_write]
    simp only [Bool.false_eq_true, false_and, iff_false]
    lia

/-- All writes of an instruction together start the life in the gap behind it. -/
theorem writes_spec : ∀ (ds : List Def) {t : Track},
    Reached first (p + 1) t → (t.live = true → Ranges.covers t.ranges (p + 1) = true) →
    Reached first (p + 1) (ds.foldl (write p) t) ∧
      ∀ q, p < q → (Ranges.covers (ds.foldl (write p) t).ranges q = true ↔
        (q = p + 1 ∧ ds.isEmpty = false) ∨ Ranges.covers t.ranges q = true)
  | [], t, h, _ => ⟨h, by simp⟩
  | d :: ds, t, h, hgap => by
    have hwritten := reached_write h hgap d
    obtain ⟨hreached, hcovers⟩ := writes_spec ds hwritten (by simp [live_write])
    refine ⟨hreached, fun q hq => ?_⟩
    rw [List.foldl_cons, hcovers q hq, covers_write h hgap]
    simp only [List.isEmpty_cons, and_true]
    constructor
    · rintro (⟨rfl, -⟩ | rfl | ⟨-, h⟩)
      · exact .inl rfl
      · exact .inl rfl
      · exact .inr h
    · rintro (rfl | h)
      · exact .inr (.inl rfl)
      · by_cases heq : q = p + 1
        · exact .inr (.inl heq)
        · exact .inr (.inr ⟨by lia, h⟩)

/-! ## Reads -/

/-- All reads of an instruction together make the value live from the start of the block. -/
theorem reads_spec (hfirst : first ≤ p) : ∀ (us : List Use) {t : Track},
    Reached first (p + 1) t → Reached first (p + 1) (us.foldl (read first p) t) ∧
      ∀ q, p < q → Ranges.covers (us.foldl (read first p) t).ranges q
        = Ranges.covers t.ranges q
  | [], t, h => ⟨h, by simp⟩
  | u :: us, t, h => by
    have hcovers : ∀ q, Ranges.covers (read first p t u).ranges q = true ↔
        (first ≤ q ∧ q < p + 1) ∨ Ranges.covers t.ranges q = true := fun q => by
      rw [read, Ranges.covers_add, Range.covers_iff]
    have hread : Reached first (p + 1) (read first p t u) := by
      refine ⟨Ranges.ordered_add (by simp only; lia) h.ordered, fun q hq => ?_⟩
      have hlive : (read first p t u).live = true := rfl
      rw [hcovers, hlive, h.below q hq]
      simp only [hq, and_true, true_and, or_iff_left_iff_imp]
      exact And.right
    obtain ⟨hreached, hrest⟩ := reads_spec hfirst us hread
    refine ⟨hreached, fun q hq => ?_⟩
    rw [List.foldl_cons, hrest q hq, Bool.eq_iff_iff, hcovers]
    simp only [or_iff_right_iff_imp]
    lia

/-! ## One instruction -/

/-- An instruction settles its own position and the gap behind it. -/
theorem instruction_spec (i : Instruction) (h : Reached first (p + stride) t) (hfirst : first ≤ p) :
    Reached first p (instruction r first p i t) ∧
      ∀ q, p ≤ q → (Ranges.covers (instruction r first p i t).ranges q = true ↔
        (q = p ∧ (i.reads r || (!i.writes r && t.live)) = true) ∨
        (q = p + 1 ∧ (i.writes r || t.live) = true) ∨
        (p + stride ≤ q ∧ Ranges.covers t.ranges q = true)) := by
  have hgap : t.live = true → Ranges.covers t.ranges (p + 1) = true := fun hlive =>
    (h.below (p + 1) (by lia)).2 ⟨hlive, by lia⟩
  have hlower : Reached first (p + 1) t := h.lower (by lia)
  obtain ⟨hwritten, hcovers⟩ := writes_spec (i.defs.filter (·.register == r)) hlower hgap
  obtain ⟨hread, hcovers'⟩ := reads_spec hfirst (i.uses.filter (·.register == r)) hwritten
  refine ⟨hread.lower (by lia), fun q hq => ?_⟩
  rw [isEmpty_filter_defs] at hcovers
  -- behind the instruction only what the operands add is new
  rcases Int.lt_or_eq_of_le hq with hlt | rfl
  · rw [instruction, hcovers' q hlt, hcovers q hlt]
    have hbelow := h.below q
    grind
  -- at the instruction, what is covered is what is needed before it
  · have hlive := live_instruction r first p i t
    rw [instruction] at hlive ⊢
    rw [hread.below p (by lia), hlive]
    simp only [hfirst, and_true, true_and]
    lia

/-! ## Straight-line code -/

end Track

/-- Where a value lives in straight-line code at `p`: at an instruction before which it is
needed, and in a gap after which it is needed or in which it is written. -/
def CodeLive (r : VReg) (out : Bool) : Position → List Instruction → Position → Prop
  | _, [], _ => False
  | p, i :: rest, q =>
    (q = p ∧ liveBefore r out (i :: rest) = true) ∨
      (q = p + 1 ∧ (i.writes r || liveBefore r out rest) = true) ∨
      CodeLive r out (p + stride) rest q

theorem codeLive_iff {r : VReg} {out : Bool} {q : Position} :
    ∀ {body : List Instruction} {p : Position}, CodeLive r out p body q ↔
      ∃ (k : Nat) (i : Instruction),
      body[k]? = some i ∧ ((q = p + stride * k ∧ liveBefore r out (body.drop k) = true) ∨
        (q = p + stride * k + 1 ∧ (i.writes r || liveBefore r out (body.drop (k + 1))) = true))
  | [], p => by simp [CodeLive]
  | i :: rest, p => by
    rw [CodeLive, codeLive_iff]
    constructor
    · rintro (h | h | ⟨k, j, hj, h⟩)
      · exact ⟨0, i, rfl, .inl (by simpa using h)⟩
      · exact ⟨0, i, rfl, .inr (by simpa using h)⟩
      · refine ⟨k + 1, j, hj, h.imp (fun h => ⟨?_, h.2⟩) fun h => ⟨?_, h.2⟩⟩ <;> lia
    · rintro ⟨k, j, hj, h⟩
      cases k with
      | zero =>
        cases hj
        exact h.imp (by simp) fun h => .inl (by simpa using h)
      | succ k =>
        refine .inr (.inr ⟨k, j, hj, h.imp (fun h => ⟨?_, h.2⟩) fun h => ⟨?_, h.2⟩⟩) <;> lia

namespace Track

variable {r : VReg} {first p q : Position} {t : Track}

/-- Code settles the positions of its instructions and the gaps behind them. -/
theorem code_spec : ∀ (c : List Instruction) {p : Position},
    Reached first (p + stride * c.length) t → first ≤ p →
    Reached first p (code r first p c t) ∧
      ∀ q, p ≤ q → (Ranges.covers (code r first p c t).ranges q = true ↔
        CodeLive r t.live p c q ∨
          (p + stride * c.length ≤ q ∧ Ranges.covers t.ranges q = true))
  | [], p, h, _ => by
    refine ⟨h.lower (by simp), fun q hq => ?_⟩
    simp [code, CodeLive, hq]
  | i :: rest, p, h, hfirst => by
    obtain ⟨hreached, hcovers⟩ := code_spec rest (p := p + stride)
      (h.lower (by simp only [List.length_cons]; lia)) (by lia)
    obtain ⟨hreached', hcovers'⟩ := instruction_spec (r := r) i hreached hfirst
    rw [live_code] at hcovers'
    refine ⟨hreached', fun q hq => ?_⟩
    rw [code, hcovers' q hq]
    simp only [CodeLive, liveBefore, List.length_cons]
    by_cases hq' : p + stride ≤ q
    · rw [hcovers q hq']
      grind
    · have hnot : ¬ CodeLive r t.live (p + stride) rest q := fun hcode => by
        obtain ⟨k, j, -, hj⟩ := codeLive_iff.1 hcode
        lia
      grind

/-! ## Uses -/

theorem insertUse_sorted {u : UsePoint} {uses : List UsePoint}
    (h : uses.Pairwise fun a b => a.position ≤ b.position) :
    (Interval.insertUse u uses).Pairwise fun a b => a.position ≤ b.position := by
  refine pairwise_insertBefore h (fun y _ hy => ?_) (fun y _ hy => ?_) fun y z => ?_
  · rw [decide_eq_true_eq] at hy
    exact Int.le_of_lt hy
  · rw [decide_eq_false_iff_not] at hy
    exact Int.not_lt.1 hy
  · exact Int.le_trans

/-- The uses that an instruction at `p` makes of a register. -/
def UsedBy (r : VReg) (p : Position) (i : Instruction) (u : UsePoint) : Prop :=
  (∃ d ∈ i.defs, d.register = r ∧ u = ⟨p + 1, d.policy, .write⟩) ∨
    ∃ use ∈ i.uses, use.register = r ∧ u = ⟨p, use.policy, .read⟩

theorem UsedBy.mentions {i : Instruction} {u : UsePoint} (h : UsedBy r p i u) :
    i.mentions r = true := by
  rw [Instruction.mentions, Bool.or_eq_true, Instruction.reads, Instruction.writes,
    List.any_eq_true, List.any_eq_true]
  rcases h with ⟨d, hd, hregister, -⟩ | ⟨use, huse, hregister, -⟩
  · exact .inr ⟨d, hd, beq_iff_eq.2 hregister⟩
  · exact .inl ⟨use, huse, beq_iff_eq.2 hregister⟩

theorem mem_uses_instruction (i : Instruction) (u : UsePoint) :
    u ∈ (instruction r first p i t).uses ↔ UsedBy r p i u ∨ u ∈ t.uses := by
  -- each operand is put where its position belongs, and nothing is dropped
  have hwrites : ∀ (ds : List Def) (t : Track), u ∈ (ds.foldl (write p) t).uses ↔
      (∃ d ∈ ds, u = ⟨p + 1, d.policy, .write⟩) ∨ u ∈ t.uses := by
    intro ds
    induction ds with
    | nil => simp
    | cons d ds ih =>
      intro t
      simp only [List.foldl_cons, ih, write, Interval.insertUse, mem_insertBefore, List.mem_cons]
      grind
  have hreads : ∀ (us : List Use) (t : Track), u ∈ (us.foldl (read first p) t).uses ↔
      (∃ use ∈ us, u = ⟨p, use.policy, .read⟩) ∨ u ∈ t.uses := by
    intro us
    induction us with
    | nil => simp
    | cons d us ih =>
      intro t
      simp only [List.foldl_cons, ih, read, Interval.insertUse, mem_insertBefore, List.mem_cons]
      grind
  rw [instruction, hreads, hwrites]
  simp only [UsedBy, List.mem_filter, beq_iff_eq]
  grind

theorem sorted_instruction (i : Instruction)
    (h : t.uses.Pairwise fun a b => a.position ≤ b.position) :
    (instruction r first p i t).uses.Pairwise fun a b => a.position ≤ b.position := by
  refine List.foldlRecOn (motive := fun (t : Track) => t.uses.Pairwise fun a b =>
    a.position ≤ b.position) _ (read first p) ?_ fun t ht u _ => insertUse_sorted ht
  exact List.foldlRecOn (motive := fun (t : Track) => t.uses.Pairwise fun a b =>
    a.position ≤ b.position) _ (write p) h fun t ht d _ => insertUse_sorted ht

theorem mem_uses_code (u : UsePoint) : ∀ (body : List Instruction) {p : Position},
    u ∈ (code r first p body t).uses ↔
      (∃ (k : Nat) (i : Instruction), body[k]? = some i ∧ UsedBy r (p + stride * k) i u) ∨
        u ∈ t.uses
  | [], p => by simp [code]
  | i :: rest, p => by
    rw [code, mem_uses_instruction, mem_uses_code u rest, ← or_assoc]
    have hnext : ∀ k : Nat, p + stride * (k + 1 : Nat) = p + stride + stride * k := fun k => by lia
    refine or_congr ⟨?_, ?_⟩ Iff.rfl
    · rintro (h | ⟨k, j, hj, h⟩)
      · exact ⟨0, i, rfl, by simpa using h⟩
      · exact ⟨k + 1, j, hj, hnext k ▸ h⟩
    · rintro ⟨k, j, hj, h⟩
      cases k with
      | zero =>
        cases hj
        exact .inl (by simpa using h)
      | succ k => exact .inr ⟨k, j, hj, hnext k ▸ h⟩

theorem sorted_code : ∀ (c : List Instruction) {p : Position},
    (t.uses.Pairwise fun a b => a.position ≤ b.position) →
    (code r first p c t).uses.Pairwise fun a b => a.position ≤ b.position
  | [], _, h => h
  | i :: rest, _, h => sorted_instruction i (sorted_code rest h)

theorem uses_extend_if (c : Prop) [Decidable c] (start stop : Position) (t : Track) :
    (if c then t.extend start stop else t).uses = t.uses := by
  split <;> rfl

/-- A block records the uses of its code. -/
theorem uses_block (order : LinearOrder) (r : VReg) (span : Span) (out : Bool) (t : Track) :
    ∃ opened : Track, opened.uses = t.uses ∧ (t.block order r span out).uses =
      (code r span.first span.first (order.graph.instructions span.block) opened).uses := by
  refine ⟨if out then { t with live := out }.extend span.first (span.last + stride) else
    { t with live := out }, uses_extend_if .., ?_⟩
  rw [block]
  split
  · exact uses_extend_if ..
  · rfl

end Track

end RegAlloc
