import RegAlloc.Proofs.Liveness.Building
import RegAlloc.Proofs.Liveness.Entry
import RegAlloc.Proofs.Liveness.Flow

/-!
# The shape of what the analysis finds

The analysis of a linear order always returns, whatever its loops look like. On success each
register of the class that occurs has one lifetime, and the lifetimes are numbered in the
order of the registers. A lifetime is a list of ranges with gaps between them, inside the order;
those that begin in a gap begin with a write. Its uses are the operands that name the register,
one for each, in order of position and all within the lifetime.

- `LinearOrder.operandsOf` — one use for each operand that names a register;
- `LinearOrder.uses_scan_perm` — a scan records these and no others;
- `Lifetime.WellFormed`, `Liveness.WellFormed` — the shape;
- `analysis_wellFormed` — the analysis returns, and a result has that shape.
-/

namespace RegAlloc

/-- The operands of an instruction at `p` that name a register: reads at the instruction itself,
writes in the gap behind it. -/
def Instruction.operands (i : Instruction) (r : VReg) (p : Position) : List UsePoint :=
  (i.uses.filter (·.register == r)).map (fun use => ⟨p, use.policy, .read⟩) ++
    (i.defs.filter (·.register == r)).map fun d => ⟨p + 1, d.policy, .write⟩

namespace LinearOrder

/-- The operands of an instruction of a block that name a register, where it stands. -/
def operandsAt (order : LinearOrder) (r : VReg) (b : BlockId) (i : Instruction) : List UsePoint :=
  match order.positionOf b i.index with
  | .ok p => i.operands r p
  | .error _ => []

/-- The operands of the whole graph that name a register, block by block. -/
def operandsOf (order : LinearOrder) (r : VReg) : List UsePoint :=
  (List.range order.graph.blocks.length).flatMap fun b =>
    (order.graph.instructions b).flatMap (order.operandsAt r b)

end LinearOrder

/-! ## Uses -/

namespace Track

variable {r : VReg} {first p : Position}

/-- A loop that records one use at each step records the uses of all its steps. -/
theorem uses_foldl_perm {α : Type} {f : Track → α → Track} {u : α → UsePoint}
    (hstep : ∀ t x, (f t x).uses.Perm (u x :: t.uses)) : ∀ (l : List α) (t : Track),
    (l.foldl f t).uses.Perm (l.map u ++ t.uses)
  | [], _ => .refl _
  | x :: l, t => by
    have hrest := uses_foldl_perm hstep l (f t x)
    exact hrest.trans (((hstep t x).append_left _).trans List.perm_middle)

/-- An instruction records its operands. -/
theorem uses_instruction_perm (i : Instruction) (t : Track) :
    (instruction r first p i t).uses.Perm (i.operands r p ++ t.uses) := by
  rw [instruction, Instruction.operands, List.append_assoc]
  have hread := uses_foldl_perm (f := read first p) (u := fun use => ⟨p, use.policy, .read⟩)
    fun t use => insertBefore_perm _ _ t.uses
  have hwrite := uses_foldl_perm (f := write p) (u := fun d => ⟨p + 1, d.policy, .write⟩)
    fun t d => insertBefore_perm _ _ t.uses
  exact (hread _ _).trans ((hwrite _ t).append_left _)

end Track

namespace LinearOrder

variable {order : LinearOrder} {r : VReg} {p : Position}

/-- The code of a block records its operands. -/
theorem uses_code_perm (first : Position) (t : Track) {b : BlockId} :
    ∀ {body : List Instruction} {p : Position}, order.Places b p body →
      (Track.code r first p body t).uses.Perm (body.flatMap (order.operandsAt r b) ++ t.uses)
  | [], _, _ => .refl _
  | i :: rest, p, hplaces => by
    rw [Track.code, List.flatMap_cons, operandsAt, hplaces.head, List.append_assoc]
    have hrest := uses_code_perm first t hplaces.tail
    exact (Track.uses_instruction_perm i _).trans (hrest.append_left _)

/-- A scan of the last blocks records their operands. -/
theorem uses_scanSpans_perm (h : order.Regular) (hindexed : order.graph.Indexed) :
    ∀ {spans : List Span}, (∀ span ∈ spans, span ∈ order.spans) →
      (order.scanSpans r spans).track.uses.Perm
        ((spans.map (·.block)).flatMap fun b =>
          (order.graph.instructions b).flatMap (order.operandsAt r b))
  | [], _ => .refl _
  | span :: later, hspans => by
    obtain ⟨hspan, hlater⟩ := List.forall_mem_cons.1 hspans
    obtain ⟨opened, huses, hblock⟩ := Track.uses_block order r span
      ((order.scanSpans r later).neededAfter order span.block) (order.scanSpans r later).track
    have hcode := uses_code_perm (r := r) span.first opened (h.places hindexed hspan)
    rw [huses] at hcode
    rw [scanSpans, hblock, List.map_cons, List.flatMap_cons]
    exact hcode.trans ((uses_scanSpans_perm h hindexed hlater).append_left _)

/-- A scan records one use for each operand that names its register. -/
theorem uses_scan_perm (h : order.Regular) (hindexed : order.graph.Indexed) (r : VReg) :
    (order.scan r).track.uses.Perm (order.operandsOf r) :=
  (uses_scanSpans_perm h hindexed fun _ hspan => hspan).trans (h.blocks.flatMap_right _)

/-! ## Ranges -/

/-- A scan covers positions of the order only. -/
theorem inside_of_covers (h : order.Regular)
    (hcovers : Ranges.covers (order.scan r).track.ranges p = true) : 0 ≤ p ∧ p < order.stop := by
  obtain ⟨span, hspan, hwithin⟩ := exists_span_of_covers h hcovers
  have hblock := h.blockAt?_eq_some.2 ⟨span, hspan, rfl, hwithin⟩
  exact isSome_blockAt?_iff.1 (Option.isSome_of_eq_some hblock)

end LinearOrder

/-! ## The shape -/

/-- A lifetime as the analysis finds it. -/
structure Lifetime.WellFormed (order : LinearOrder) (life : Lifetime) : Prop where
  whole : life.children = []
  /-- It can be built with every step checked. -/
  grown : order.grow life.root.id life.register = .ok life.root
  nonempty : life.root.ranges ≠ []
  ordered : Ranges.Ordered life.root.ranges
  inside : ∀ range ∈ life.root.ranges, 0 ≤ range.start ∧ range.stop ≤ order.stop
  sorted : life.root.uses.Pairwise fun u v => u.position ≤ v.position
  operands : life.root.uses.Perm (order.operandsOf life.register)
  covered : ∀ u ∈ life.root.uses, life.root.covers u.position = true
  written : ∀ range ∈ life.root.ranges, range.start % stride = 1 → life.root.WrittenAt range.start

/-- What the analysis of a class of registers finds. -/
structure Liveness.WellFormed (order : LinearOrder) (regClass : Option String)
    (liveness : Liveness) : Prop where
  ascending : (liveness.lives.map (·.register)).Pairwise (· < ·)
  occurring : ∀ r, r ∈ liveness.lives.map (·.register) ↔
    order.graph.inClass regClass r = true ∧ order.graph.mentions r = true
  ids : ∀ (k : Nat) (life : Lifetime), liveness.lives[k]? = some life → life.root.id = k
  lives : ∀ life ∈ liveness.lives, life.WellFormed order
  /-- A register that is live into a block has a lifetime. -/
  liveIn : ∀ entry ∈ liveness.liveIn, ∀ r ∈ entry.2, r ∈ liveness.lives.map (·.register)

namespace LinearOrder

variable {order : LinearOrder} {regClass : Option String}

theorem wellFormed_life (h : order.Regular) (hindexed : order.graph.Indexed) {life : Lifetime}
    (hlife : life ∈ livesOf (order.scans regClass)) : life.WellFormed order := by
  obtain ⟨-, hchildren, id, hroot⟩ := mem_livesOf hlife
  have hranges : life.root.ranges = (order.scan life.register).track.ranges := by rw [hroot]
  have huses : life.root.uses = (order.scan life.register).track.uses := by rw [hroot]
  have hshaped := (rooted_lives h).shaped life.root (List.mem_map_of_mem hlife)
  have hused := used_root h hlife
  have hinside : ∀ q, life.root.covers q = true → 0 ≤ q ∧ q < order.stop := fun q hq => by
    rw [Interval.covers, hranges] at hq
    exact inside_of_covers h hq
  have hcovers : ∀ range ∈ life.root.ranges, ∀ q, range.start ≤ q → q < range.stop →
      life.root.covers q = true := fun range hrange q hstart hstop =>
    Ranges.covers_iff.2 ⟨range, hrange, hstart, hstop⟩
  refine
    { whole := hchildren
      grown := ?grown
      nonempty := hshaped.nonempty
      ordered := hshaped.ordered
      inside := fun range hrange => ?inside
      sorted := hused.sorted
      operands := huses ▸ uses_scan_perm h hindexed life.register
      covered := hused.covered
      written := fun range hrange hodd => ?written }
  case grown =>
    rw [grow_eq_ok h hindexed, hroot]
  case inside =>
    -- the first and the last position of a range are covered, so they are inside
    have hlt := hshaped.ordered.nonempty range hrange
    have hstart := hinside _ (hcovers range hrange range.start (Int.le_refl _) hlt)
    have hstop := hinside _ (hcovers range hrange (range.stop - 1) (by lia) (by lia))
    exact ⟨hstart.1, by lia⟩
  case written =>
    -- the gap between two ranges is what makes a range begin
    have hlt := hshaped.ordered.nonempty range hrange
    exact writtenAt_of_begins h huses hranges hodd
      (hcovers range hrange range.start (Int.le_refl _) hlt)
      (Ranges.covers_start_sub_one hshaped.ordered hrange)

/-- A successful analysis finds lifetimes of the right shape, for the right registers. -/
theorem wellFormed_of_analyze (h : order.Regular) (hindexed : order.graph.Indexed)
    {liveness : Liveness} {messages : Messages Issue}
    (hsuccess : order.analyze regClass = .ok (.success liveness messages)) :
    liveness.WellFormed order regClass := by
  obtain ⟨-, rfl, -⟩ := (analyze_eq_success_iff h hindexed).1 hsuccess
  have hregisters : (order.livenessOf (order.scans regClass)).lives.map (·.register) =
      order.occurring regClass := registers_livesOf order regClass
  refine
    { ascending := hregisters ▸ pairwise_occurring order regClass
      occurring := fun r => ?occurring
      ids := fun k life hk => ?ids
      lives := fun life hlife => wellFormed_life h hindexed hlife
      liveIn := fun entry hentry r hr => ?liveIn }
  case occurring =>
    rw [hregisters, mem_occurring]
  case ids =>
    simp only [livenessOf, livesOf, List.getElem?_map, List.getElem?_zipIdx, Option.map_map,
      Option.map_eq_some_iff] at hk
    obtain ⟨_, -, rfl⟩ := hk
    simp
  case liveIn =>
    obtain ⟨span, -, rfl⟩ := List.mem_map.1 hentry
    rw [hregisters]
    rw [selectScanned_scans] at hr
    exact List.mem_of_mem_filter hr

end LinearOrder

/-- The analysis of a linear order returns, for every class of registers. Nothing that it
looks up is missing: every instruction has a position, which is even, and names declared
registers, and the life of every register can be built with each step checked. A result has
one lifetime for each register of the class that occurs, and all of them are well formed. -/
theorem analysis_wellFormed {g : Graph} (hg : g.Built) {order : LinearOrder}
    {messages : Messages Issue} (h : g.linearize = .ok (.success order messages))
    (regClass : Option String) : ∃ outcome, order.analyze regClass = .ok outcome ∧
      (∀ b, ∀ i ∈ order.graph.instructions b,
        (∃ p, order.positionOf b i.index = .ok p ∧ p % stride = 0) ∧
        ∀ r, i.mentions r = true → (order.graph.register? r).isSome = true) ∧
      (∀ id r, ∃ interval, order.grow id r = .ok interval) ∧
      ∀ liveness warnings, outcome = .success liveness warnings →
        liveness.WellFormed order regClass := by
  have hregular := LinearOrder.regular_of_linearize hg.wellFormed h
  have hindexed := LinearOrder.indexed_of_linearize hg.indexed h
  obtain ⟨outcome, houtcome, -, -⟩ := LinearOrder.exists_analyze hregular hindexed regClass
  refine ⟨outcome, houtcome, fun b i hi => ⟨?_, fun r hr => ?_⟩,
    fun id r => ⟨_, LinearOrder.grow_eq_ok hregular hindexed id r⟩, ?_⟩
  · obtain ⟨span, hspan, rfl⟩ := hregular.exists_span (Graph.lt_of_mem_instructions hi)
    obtain ⟨k, hk⟩ := List.getElem?_of_mem hi
    have heven := hregular.even_first span hspan
    exact ⟨_, hregular.places hindexed hspan k i hk, by lia⟩
  · obtain ⟨k, rfl, hk⟩ := hregular.wellFormed.declared b i hi r hr
    simp [Graph.register?, hk]
  · rintro liveness warnings rfl
    exact LinearOrder.wellFormed_of_analyze hregular hindexed houtcome

/-- A loop that reads a value twice and writes it anew in one instruction, with a latch without
code. Behind the loop the value is read once more, and later written for nothing. -/
def whirl : Graph := Graph.run {} [
  .createRegister {}, .createRegister {}, .createRegister {},
  .addBlock, .addBlock, .addBlock, .addBlock,
  .addInstruction (0 : Nat)
    { opcode := "d", defs := [{ register := (2 : Nat) }, { register := (2 : Nat) }] },
  .addInstruction (1 : Nat)
    { opcode := "a"
      uses := [{ register := (2 : Nat) }, { register := (2 : Nat), policy := .any }]
      defs := [{ register := (2 : Nat) }, { register := (0 : Nat) }] },
  .addInstruction (3 : Nat) { opcode := "u", uses := [{ register := (2 : Nat) }] },
  .addInstruction (3 : Nat) { opcode := "n" },
  .addInstruction (3 : Nat) { opcode := "d", defs := [{ register := (2 : Nat) }] },
  .addEdge (0 : Nat) (1 : Nat), .addEdge (1 : Nat) (2 : Nat), .addEdge (2 : Nat) (1 : Nat),
  .addEdge (1 : Nat) (3 : Nat)]

theorem analysis_wellFormed_whirl : whirl.Built ∧ ∃ order messages liveness warnings,
    whirl.linearize = .ok (.success order messages) ∧
      order.analyze none = .ok (.success liveness warnings) ∧ liveness.WellFormed order none ∧
      liveness.lives.map (·.root.ranges) = [[⟨3, 4⟩], [⟨1, 7⟩, ⟨11, 12⟩]] := by
  have hg : whirl.Built := ⟨_, rfl⟩
  have h : whirl.linearize = .ok (.success _ _) := rfl
  obtain ⟨outcome, houtcome, -, -, hshape⟩ := analysis_wellFormed hg h none
  cases houtcome
  exact ⟨hg, _, _, _, _, h, rfl, hshape _ _ rfl, rfl⟩

end RegAlloc
