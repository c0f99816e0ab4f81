import Mathlib.Data.List.Forall2
import RegAlloc.Proofs.Graph.Commands
import RegAlloc.Proofs.Liveness.Classes
import RegAlloc.Proofs.Order.Finishing

/-!
# Graphs that are alike in a class

Two graphs are alike in a class of registers when they have the same registers, edges and entry,
and their instructions, one by one, have the same operands of the class. What the other operands
are, and what the instructions do, is left open. Such graphs get the same linear order, and the
class is live at the same places in both.

- `Instruction.AlikeOn`, `Block.AlikeOn`, `Graph.AlikeIn`, `LinearOrder.AlikeIn` — alikeness;
- `SameEnd` — two runs that end the same way;
- `Graph.AlikeIn.linearize` — the linear orders;
- `LinearOrder.AlikeIn.scan`, `LinearOrder.AlikeIn.analyze` — the analysis of the class.
-/

namespace RegAlloc

/-! ## Lists of which a part is read -/

section Lists

variable {α β : Type _} {p q : α → Bool} {l k : List α}

/-- Lists that agree on some members agree on any of these. -/
theorem filter_eq_of_filter (hqp : ∀ a, q a = true → p a = true) (h : l.filter p = k.filter p) :
    l.filter q = k.filter q := by
  have hq : ∀ l : List α, (l.filter p).filter q = l.filter q := fun l => by
    rw [List.filter_filter]
    refine List.filter_congr fun a _ => ?_
    cases ha : q a with
    | false => rfl
    | true => rw [hqp a ha, Bool.and_self]
  rw [← hq l, h, hq k]

theorem any_eq_of_filter (h : l.filter p = k.filter p) : l.any p = k.any p := by
  have hany : ∀ l : List α, (l.filter p).any p = l.any p := fun l => by
    simp only [List.any_filter, Bool.and_self]
  rw [← hany l, h, hany k]

/-- What is collected from some members only is collected from these. -/
theorem filterMap_filter_of_none {f : α → Option β} (hf : ∀ a, p a = false → f a = none) :
    (l.filter p).filterMap f = l.filterMap f := by
  rw [List.filterMap_filter]
  refine List.filterMap_congr fun a _ => ?_
  split
  · rfl
  · next ha => rw [hf a (by simpa using ha)]

theorem forall₂_any {R : α → β → Prop} {bs : List β} {r : β → Bool} (h : List.Forall₂ R l bs)
    (hR : ∀ a b, R a b → p a = r b) : l.any p = bs.any r := by
  induction h with
  | nil => rfl
  | cons hab _ ih => rw [List.any_cons, List.any_cons, hR _ _ hab, ih]

end Lists

/-! ## Instructions -/

/-- Two instructions have the same operands among the chosen registers. -/
structure Instruction.AlikeOn (own : VReg → Bool) (i j : Instruction) : Prop where
  uses : i.uses.filter (own ·.register) = j.uses.filter (own ·.register)
  defs : i.defs.filter (own ·.register) = j.defs.filter (own ·.register)

namespace Instruction.AlikeOn

variable {own : VReg → Bool} {i j : Instruction} {r : VReg}

theorem usesOf (h : i.AlikeOn own j) (hr : own r = true) :
    i.uses.filter (·.register == r) = j.uses.filter (·.register == r) :=
  filter_eq_of_filter (fun use huse => by rw [beq_iff_eq.1 huse, hr]) h.uses

theorem defsOf (h : i.AlikeOn own j) (hr : own r = true) :
    i.defs.filter (·.register == r) = j.defs.filter (·.register == r) :=
  filter_eq_of_filter (fun def' hdef => by rw [beq_iff_eq.1 hdef, hr]) h.defs

theorem reads (h : i.AlikeOn own j) (hr : own r = true) : i.reads r = j.reads r :=
  any_eq_of_filter (h.usesOf hr)

theorem writes (h : i.AlikeOn own j) (hr : own r = true) : i.writes r = j.writes r :=
  any_eq_of_filter (h.defsOf hr)

theorem mentions (h : i.AlikeOn own j) (hr : own r = true) : i.mentions r = j.mentions r := by
  rw [Instruction.mentions, Instruction.mentions, h.reads hr, h.writes hr]

end Instruction.AlikeOn

/-- Straight-line code that is alike needs the same values of the chosen registers. -/
theorem liveBefore_alike {own : VReg → Bool} {r : VReg} (hr : own r = true) (after : Bool)
    {code code' : List Instruction} (h : List.Forall₂ (Instruction.AlikeOn own) code code') :
    liveBefore r after code = liveBefore r after code' := by
  induction h with
  | nil => rfl
  | cons hij _ ih => rw [liveBefore, liveBefore, hij.reads hr, hij.writes hr, ih]

theorem Track.code_alike {own : VReg → Bool} {r : VReg} (hr : own r = true) (first p : Position)
    (t : Track) {code code' : List Instruction}
    (h : List.Forall₂ (Instruction.AlikeOn own) code code') :
    Track.code r first p code t = Track.code r first p code' t := by
  induction h generalizing p with
  | nil => rfl
  | cons hij _ ih =>
    rw [Track.code, Track.code, Track.instruction, Track.instruction, hij.defsOf hr,
      hij.usesOf hr, ih]

/-! ## Graphs -/

/-- Two blocks lead to the same blocks, and their instructions are alike one by one. -/
structure Block.AlikeOn (own : VReg → Bool) (a b : Block) : Prop where
  successors : a.successors = b.successors
  instructions : List.Forall₂ (Instruction.AlikeOn own) a.instructions b.instructions

/-- Blocks with the same id are alike, or neither is there. -/
theorem Block.getElem?_alike {own : VReg → Bool} {bs cs : List Block}
    (hblocks : List.Forall₂ (Block.AlikeOn own) bs cs) (k : Nat) :
    (bs[k]? = none ∧ cs[k]? = none) ∨
      ∃ a b, bs[k]? = some a ∧ cs[k]? = some b ∧ a.AlikeOn own b := by
  induction hblocks generalizing k with
  | nil => exact .inl ⟨rfl, rfl⟩
  | cons hab _ ih =>
    cases k with
    | zero => exact .inr ⟨_, _, rfl, rfl, hab⟩
    | succ k => simpa only [List.getElem?_cons_succ] using ih k

/-- Two graphs differ at most in what their instructions do and in their operands of other
classes. -/
structure Graph.AlikeIn (c : String) (g h : Graph) : Prop where
  registers : g.registers = h.registers
  entry : g.entry = h.entry
  blocks : List.Forall₂ (Block.AlikeOn (g.inClass (some c))) g.blocks h.blocks

namespace Graph.AlikeIn

variable {c : String} {g h : Graph}

theorem freeze (halike : g.AlikeIn c h) : g.freeze.AlikeIn c h.freeze :=
  ⟨halike.registers, halike.entry, halike.blocks⟩

theorem length (halike : g.AlikeIn c h) : g.blocks.length = h.blocks.length :=
  halike.blocks.length_eq

theorem inClass (halike : g.AlikeIn c h) : g.inClass = h.inClass := by
  funext regClass r
  unfold Graph.inClass Graph.register?
  rw [halike.registers]

theorem nameOf (halike : g.AlikeIn c h) : g.nameOf = h.nameOf := by
  funext r
  rw [Graph.nameOf, Graph.nameOf, Graph.register?, Graph.register?, halike.registers]

theorem successors (halike : g.AlikeIn c h) : g.successors = h.successors := by
  funext b
  rw [Graph.successors, Graph.successors]
  obtain ⟨hnone, hnone'⟩ | ⟨_, _, hsome, hsome', hab⟩ := Block.getElem?_alike halike.blocks b
  · rw [hnone, hnone']
  · rw [hsome, hsome', Option.map_some, Option.map_some, hab.successors]

theorem instructions (halike : g.AlikeIn c h) (b : BlockId) :
    List.Forall₂ (Instruction.AlikeOn (g.inClass (some c))) (g.instructions b)
      (h.instructions b) := by
  rw [Graph.instructions, Graph.instructions]
  obtain ⟨hnone, hnone'⟩ | ⟨_, _, hsome, hsome', hab⟩ := Block.getElem?_alike halike.blocks b
  · rw [hnone, hnone']
    exact .nil
  · rw [hsome, hsome']
    exact hab.instructions

theorem mentions (halike : g.AlikeIn c h) {r : VReg} (hr : g.inClass (some c) r = true) :
    g.mentions r = h.mentions r :=
  forall₂_any halike.blocks fun _ _ hab => forall₂_any hab.instructions fun _ _ hij =>
    hij.mentions hr

/-! ## Linear orders -/

theorem walk (halike : g.AlikeIn c h) (entry : BlockId) : g.walk entry = h.walk entry := by
  have hsteps : ∀ n w, Walk.steps g n w = Walk.steps h n w := by
    intro n
    induction n with
    | zero => exact fun _ => rfl
    | succ n ih =>
      intro w
      have hstep : w.step g = w.step h := by simp only [Walk.step, halike.successors]
      rw [Walk.steps, Walk.steps, hstep, ih]
  rw [Graph.walk, Graph.walk, hsteps, Walk.start, Walk.start, Graph.edgeCount_eq,
    Graph.edgeCount_eq, halike.successors, halike.length]

/-- The edges into a block are the same; they may have been declared in another order. -/
theorem predecessors (halike : g.AlikeIn c h) (hg : g.Consistent) (hh : h.Consistent)
    (b : BlockId) : (g.predecessors b).Perm (h.predecessors b) := by
  refine (List.perm_ext_iff_of_nodup (hg.distinctSources b) (hh.distinctSources b)).2 fun u => ?_
  rw [← hg.mirrored, ← hh.mirrored, halike.successors]

/-- The blocks are emitted in the same order: the counts are of predecessors in any order. -/
theorem orderBlocks (halike : g.AlikeIn c h) (hg : g.Consistent) (hh : h.Consistent) :
    g.orderBlocks = h.orderBlocks := by
  -- predecessors may be listed in another order, but only their number counts
  have hcounts : ∀ backEdges b, (g.forwardPredecessors backEdges b).length =
      (h.forwardPredecessors backEdges b).length := fun backEdges b =>
    ((halike.predecessors hg hh b).filter _).length_eq
  have hsteps : ∀ backEdges n e,
      Emission.steps g backEdges n e = Emission.steps h backEdges n e := by
    intro backEdges n
    induction n with
    | zero => exact fun _ => rfl
    | succ n ih =>
      intro e
      have hstep : e.step g backEdges = e.step h backEdges := by
        simp only [Emission.step, halike.successors]
      rw [Emission.steps, Emission.steps, hstep, ih]
  funext entry backEdges
  rw [Graph.orderBlocks, Graph.orderBlocks, hsteps, Emission.start, Emission.start, halike.length]
  simp only [hcounts]

theorem length_entriesOf (halike : g.AlikeIn c h) (b : BlockId) :
    (g.entriesOf b).length = (h.entriesOf b).length := by
  rw [Graph.length_entriesOf, Graph.length_entriesOf, (halike.instructions b).length_eq]

theorem spansFrom (halike : g.AlikeIn c h) (k : Nat) (blocks : List BlockId) :
    g.spansFrom k blocks = h.spansFrom k blocks := by
  induction blocks generalizing k with
  | nil => rfl
  | cons b rest ih => rw [Graph.spansFrom, Graph.spansFrom, halike.length_entriesOf, ih]

/-- The slots stand at the same positions. -/
theorem positions_slotsOf (halike : g.AlikeIn c h) (blocks : List BlockId) :
    (g.slotsOf blocks).map (·.position) = (h.slotsOf blocks).map (·.position) := by
  have hlength : (g.slotsOf blocks).length = (h.slotsOf blocks).length := by
    simp only [Graph.slotsOf, List.length_map, List.length_zipIdx, List.length_flatMap,
      halike.length_entriesOf]
  refine List.ext_getElem (by simpa only [List.length_map] using hlength) fun k _ _ => ?_
  simp [Graph.slotsOf]

end Graph.AlikeIn

/-- Two linear orders of graphs that are alike in a class. -/
structure LinearOrder.AlikeIn (c : String) (o o' : LinearOrder) : Prop where
  graph : o.graph.AlikeIn c o'.graph
  predecessors : ∀ b, (o.graph.predecessors b).Perm (o'.graph.predecessors b)
  positions : o.slots.map (·.position) = o'.slots.map (·.position)
  spans : o.spans = o'.spans
  loopEdges : o.loopEdges = o'.loopEdges

/-- Two runs end the same way: stopped by the same violation, failed with the same messages, or
with the same messages and related values. -/
inductive SameEnd {α β : Type} (R : α → β → Prop) :
    Except Violation (Outcome Issue α) → Except Violation (Outcome Issue β) → Prop
  | stopped (v : Violation) : SameEnd R (.error v) (.error v)
  | failed (messages : Messages Issue) :
    SameEnd R (.ok (.failure messages)) (.ok (.failure messages))
  | succeeded {a : α} {b : β} (messages : Messages Issue) (hab : R a b) :
    SameEnd R (.ok (.success a messages)) (.ok (.success b messages))

/-- Graphs that are alike are put in order alike. -/
theorem Graph.AlikeIn.linearize {c : String} {g h : Graph} (halike : g.AlikeIn c h)
    (hg : g.Consistent) (hh : h.Consistent) :
    SameEnd (LinearOrder.AlikeIn c) g.linearize h.linearize := by
  rw [Graph.linearize, Graph.linearize, halike.entry]
  cases h.entry with
  | none => exact .failed _
  | some entry =>
    dsimp only
    rw [Graph.unreached, Graph.unreached, halike.walk, halike.orderBlocks hg hh, halike.length]
    split
    · exact .failed _
    · split
      · exact .succeeded _ ⟨halike.freeze, halike.predecessors hg hh,
          halike.positions_slotsOf _, halike.spansFrom _ _, rfl⟩
      · exact .stopped _

namespace LinearOrder.AlikeIn

variable {c : String} {o o' : LinearOrder}

/-- What is read off the stretches and the loop edges alone is the same for both. -/
theorem agree {γ : Type} (h : o.AlikeIn c o') (f : LinearOrder → γ)
    (hf : ∀ order graph slots, f { order with graph, slots } = f order) : f o = f o' := by
  have houter : { o with graph := o'.graph, slots := o'.slots } = o' := by
    rw [h.spans, h.loopEdges]
  exact (hf o _ _).symm.trans (congrArg f houter)

/-! ## Analysis -/

theorem neededAfter (h : o.AlikeIn c o') (scan : Scan) (b : BlockId) :
    scan.neededAfter o b = scan.neededAfter o' b := by
  have hloop : o.isLoopEdge = o'.isLoopEdge := h.agree _ fun _ _ _ => rfl
  rw [Scan.neededAfter, Scan.neededAfter, h.graph.successors, hloop]

theorem liveInto (h : o.AlikeIn c o') : o.liveInto = o'.liveInto :=
  h.agree _ fun _ _ _ => rfl

/-- A register of the class is scanned alike. -/
theorem scan (h : o.AlikeIn c o') {r : VReg} (hr : o.graph.inClass (some c) r = true) :
    o.scan r = o'.scan r := by
  have hlatch : o.latchEnd? = o'.latchEnd? := h.agree _ fun _ _ _ => rfl
  have hblock : ∀ (span : Span) (liveOut : Bool) (t : Track),
      t.block o r span liveOut = t.block o' r span liveOut := by
    intro span liveOut t
    simp only [Track.block, Track.code_alike hr _ _ _ (h.graph.instructions span.block), hlatch]
  have hspans : ∀ spans, o.scanSpans r spans = o'.scanSpans r spans := by
    intro spans
    induction spans with
    | nil => rfl
    | cons span later ih =>
      rw [LinearOrder.scanSpans, LinearOrder.scanSpans, ih, h.neededAfter, hblock]
  rw [LinearOrder.scan, LinearOrder.scan, hspans, h.spans]

theorem occurring (h : o.AlikeIn c o') : o.occurring (some c) = o'.occurring (some c) := by
  refine (pairwise_occurring o _).eq_of_mem_iff (pairwise_occurring o' _) fun r => ?_
  rw [mem_occurring, mem_occurring, ← h.graph.inClass]
  exact and_congr_right fun hr => by rw [h.graph.mentions hr]

theorem scans (h : o.AlikeIn c o') : o.scans (some c) = o'.scans (some c) := by
  unfold LinearOrder.scans
  rw [← h.occurring]
  refine List.map_congr_left fun r hr => ?_
  rw [h.scan (mem_occurring.1 hr).1]

theorem entryIssues (h : o.AlikeIn c o') (scans : List (VReg × Scan)) :
    o.entryIssues scans = o'.entryIssues scans := by
  unfold LinearOrder.entryIssues
  rw [h.spans, h.liveInto, h.graph.nameOf]

theorem unusedIssues (h : o.AlikeIn c o') : o.unusedIssues (some c) = o'.unusedIssues (some c) := by
  unfold LinearOrder.unusedIssues
  rw [h.graph.registers, ← h.graph.inClass]
  refine congrArg (List.map _) (List.filter_congr fun register _ => ?_)
  cases hr : o.graph.inClass (some c) register.id with
  | false => rfl
  | true => rw [h.graph.mentions hr]

/-- Code that is alike is complained about alike, if only registers of the class are judged. -/
theorem killIssues (h : o.AlikeIn c o') {needed : VReg → Option Bool}
    (hneeded : ∀ r, o.graph.inClass (some c) r = false → needed r = none) (b : BlockId)
    (p : Position) {code code' : List Instruction}
    (hcode : List.Forall₂ (fun i j => i.index = j.index ∧
      i.AlikeOn (o.graph.inClass (some c)) j) code code') :
    o.killIssues needed b p code = o'.killIssues needed b p code' := by
  induction hcode generalizing p with
  | nil => rfl
  | @cons i j rest rest' hij hrest ih =>
    obtain ⟨hindex, hij⟩ := hij
    rw [LinearOrder.killIssues, LinearOrder.killIssues, ih]
    congr 1
    -- an operand of another class raises no issue, so it may be left out
    rw [← filterMap_filter_of_none (p := fun use => o.graph.inClass (some c) use.register)
      (fun use huse => by rw [hneeded _ huse]; rfl),
      ← filterMap_filter_of_none (l := j.uses)
        (p := fun use => o.graph.inClass (some c) use.register)
        (fun use huse => by rw [hneeded _ huse]; rfl), hij.uses]
    refine List.filterMap_congr fun use huse => ?_
    have hown := (List.mem_filter.1 huse).2
    refine Option.bind_congr fun after _ => ?_
    rw [killIssue?, killIssue?, hij.writes hown, h.graph.nameOf, hindex,
      liveBefore_alike hown after (hrest.imp fun _ _ hij => hij.2)]

/-- Instructions with the same place have the same number. -/
theorem numbered (h : o.AlikeIn c o') (hindexed : o.graph.Indexed) (hindexed' : o'.graph.Indexed)
    (b : BlockId) : List.Forall₂ (fun i j => i.index = j.index ∧
      i.AlikeOn (o.graph.inClass (some c)) j) (o.graph.instructions b)
        (o'.graph.instructions b) := by
  obtain ⟨hlength, halike⟩ := List.forall₂_iff_get.1 (h.graph.instructions b)
  refine List.forall₂_iff_get.2 ⟨hlength, fun k hk hk' => ⟨?_, halike k hk hk'⟩⟩
  exact (hindexed b k _ (List.getElem?_eq_getElem hk)).1.trans
    (hindexed' b k _ (List.getElem?_eq_getElem hk')).1.symm

theorem readsAfterKill (h : o.AlikeIn c o') (hindexed : o.graph.Indexed)
    (hindexed' : o'.graph.Indexed) :
    o.readsAfterKill (o.scans (some c)) = o'.readsAfterKill (o.scans (some c)) := by
  unfold LinearOrder.readsAfterKill
  rw [h.spans]
  refine List.flatMap_congr fun span _ => ?_
  simp only [h.neededAfter]
  refine h.killIssues (fun r hr => ?_) _ _ (h.numbered hindexed hindexed' _)
  rw [scans_class, Table.lookup_filter, hr]
  rfl

theorem liveInSets (h : o.AlikeIn c o') (scans : List (VReg × Scan)) :
    o.liveInSets scans = o'.liveInSets scans := by
  unfold LinearOrder.liveInSets
  rw [h.spans, h.liveInto]

theorem liveOutSets (h : o.AlikeIn c o') (liveIn : List (BlockId × List VReg)) :
    o.liveOutSets liveIn = o'.liveOutSets liveIn := by
  unfold LinearOrder.liveOutSets
  rw [LinearOrder.blocks, LinearOrder.blocks, h.spans, h.graph.successors]

theorem killsOf (h : o.AlikeIn c o') (scans : List (VReg × Scan)) :
    o.killsOf scans = o'.killsOf scans := by
  -- of a slot only its position is read
  have hmap : ∀ order : LinearOrder, order.killsOf scans =
      ((order.slots.map (·.position)).map fun p =>
        (p, selectScanned scans (p ∈ ·.track.deaths))).filter fun entry => !entry.2.isEmpty := by
    intro order
    rw [List.map_map]
    rfl
  rw [hmap, hmap, h.positions]

/-- The class is analysed alike. -/
theorem analyze (h : o.AlikeIn c o') (hregular : o.Regular) (hregular' : o'.Regular)
    (hindexed : o.graph.Indexed) (hindexed' : o'.graph.Indexed) :
    o.analyze (some c) = o'.analyze (some c) := by
  have herrors : o.errorsOf (o.scans (some c)) = o'.errorsOf (o'.scans (some c)) := by
    rw [← h.scans, errorsOf, errorsOf, ← h.readsAfterKill hindexed hindexed', h.entryIssues]
  have hliveness : o.livenessOf (o.scans (some c)) = o'.livenessOf (o'.scans (some c)) := by
    rw [← h.scans, livenessOf, livenessOf, h.liveInSets, h.liveOutSets, h.killsOf]
  rw [analyze_eq hregular hindexed, analyze_eq hregular' hindexed', analyzeEach, analyzeEach,
    herrors, hliveness, h.unusedIssues]

end LinearOrder.AlikeIn

end RegAlloc
