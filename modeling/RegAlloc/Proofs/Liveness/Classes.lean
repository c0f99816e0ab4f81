import Mathlib.Data.List.Sort
import RegAlloc.Proofs.Liveness.Entry
import RegAlloc.Proofs.Liveness.Exact
import RegAlloc.Proofs.Renaming.Basic

/-!
# One class of registers, or all of them

An analysis of one class finds what an analysis of all registers finds, less what is about the
other classes: the same lives, the registers of the class among those that are live at the
borders of a block or die at an instruction, and the complaints about registers of the class.

- `Issue.isAbout` — whether a cause names one of some registers;
- `Lifetime.outline`, `Liveness.dyingAt` — what an analysis says of a register and a position;
- `LinearOrder.scans_class` and the lemmas behind it — each part of the analysis, restricted;
- `class_analysed_alone` — the analysis as a whole.
-/

namespace RegAlloc

/-- Whether a cause names one of some registers. -/
def Issue.isAbout (own : VReg → Bool) : Issue → Bool
  | .readAfterKill r .. => own r
  | .liveAtEntry r .. => own r
  | .unused r _ => own r
  | _ => false

/-- A register, where it lives and where it is used. -/
def Lifetime.outline (life : Lifetime) : VReg × List Range × List UsePoint :=
  (life.register, life.root.ranges, life.root.uses)

/-- The registers whose value dies at a position. -/
def Liveness.dyingAt (liveness : Liveness) (p : Position) : List VReg :=
  (liveness.kills.lookup p).getD []

/-! ## Ascending lists -/

theorem ascending_filter (own : VReg → Bool) (rs : List VReg) :
    ascending (rs.filter own) = (ascending rs).filter own := by
  refine (pairwise_ascending _).eq_of_mem_iff ((pairwise_ascending rs).filter own) fun r => ?_
  simp only [mem_ascending, List.mem_filter]

namespace LinearOrder

variable (order : LinearOrder) (c : String)

/-! ## Scans -/

theorem occurring_class : order.occurring (some c) =
    (order.occurring none).filter (order.graph.inClass (some c)) := by
  unfold occurring
  rw [← ascending_filter, List.filter_filter]
  -- without a class every register is accepted
  exact congrArg ascending (List.filter_congr fun r _ => (Bool.and_true _).symm)

theorem scans_class : order.scans (some c) =
    (order.scans none).filter fun entry => order.graph.inClass (some c) entry.1 := by
  unfold scans
  rw [occurring_class, List.filter_map]
  rfl

theorem selectScanned_class (p : Scan → Bool) : selectScanned (order.scans (some c)) p =
    (selectScanned (order.scans none) p).filter (order.graph.inClass (some c)) := by
  rw [selectScanned_scans, selectScanned_scans, occurring_class, List.filter_filter,
    List.filter_filter]
  exact List.filter_congr fun r _ => Bool.and_comm _ _

/-! ## Lives -/

theorem outline_livesOf (scans : List (VReg × Scan)) : (livesOf scans).map Lifetime.outline =
    scans.map fun entry => (entry.1, entry.2.track.ranges, entry.2.track.uses) := by
  have hfst : (livesOf scans).map Lifetime.outline = (scans.zipIdx.map Prod.fst).map
      fun entry => (entry.1, entry.2.track.ranges, entry.2.track.uses) := by
    unfold livesOf
    rw [List.map_map, List.map_map]
    rfl
  rw [hfst, List.zipIdx_map_fst]

theorem livesOf_class : (livesOf (order.scans (some c))).map Lifetime.outline =
    ((livesOf (order.scans none)).filter fun life =>
      order.graph.inClass (some c) life.register).map Lifetime.outline := by
  have hfilter := List.filter_map (f := Lifetime.outline)
    (p := fun entry => order.graph.inClass (some c) entry.1) (l := livesOf (order.scans none))
  rw [outline_livesOf, List.filter_map] at hfilter
  rw [outline_livesOf, scans_class]
  exact hfilter

/-! ## Sets at the borders of blocks -/

theorem liveInSets_class : order.liveInSets (order.scans (some c)) =
    (order.liveInSets (order.scans none)).map
      (Prod.map id (List.filter (order.graph.inClass (some c)))) := by
  unfold liveInSets
  rw [List.map_map]
  refine List.map_congr_left fun span _ => ?_
  rw [selectScanned_class]
  rfl

/-- Looking up a restricted set. -/
theorem lookup_restricted (own : VReg → Bool) (sets : List (BlockId × List VReg)) (b : BlockId) :
    ((sets.map (Prod.map id (List.filter own))).lookup b).getD [] =
      ((sets.lookup b).getD []).filter own := by
  have hlookup := lookup_mapKeys Function.injective_id (List.filter own) sets b
  rw [id_eq] at hlookup
  rw [hlookup]
  cases sets.lookup b <;> rfl

theorem liveOutSets_restricted (own : VReg → Bool) (liveIn : List (BlockId × List VReg)) :
    order.liveOutSets (liveIn.map (Prod.map id (List.filter own))) =
      (order.liveOutSets liveIn).map (Prod.map id (List.filter own)) := by
  unfold liveOutSets
  rw [List.map_map]
  refine List.map_congr_left fun span _ => ?_
  simp only [lookup_restricted]
  rw [Function.comp_apply, Prod.map_apply, ← ascending_filter, List.filter_flatten, List.map_map]
  rfl

/-! ## Values that die -/

/-- A table without entries for empty lists is as good as one with them. -/
theorem lookup_nonempty (dying : Position → List VReg) (ps : List Position) (p : Position) :
    (((ps.map fun q => (q, dying q)).filter fun entry => !entry.2.isEmpty).lookup p).getD [] =
      if p ∈ ps then dying p else [] := by
  induction ps with
  | nil => rfl
  | cons q ps ih =>
    rw [List.map_cons, List.filter_cons]
    by_cases hp : p = q
    · subst hp
      rw [if_pos List.mem_cons_self]
      cases hdying : dying p with
      | nil =>
        -- nothing here, and nothing further on either
        rw [if_neg (by simp), ih, hdying, ite_self]
      | cons r rs => simp
    · have hmem : p ∈ q :: ps ↔ p ∈ ps := by simp [hp]
      simp only [hmem]
      rw [← ih]
      split
      · rw [List.lookup_cons, beq_false_of_ne hp]
      · rfl

theorem dying_killsOf (scans : List (VReg × Scan)) (p : Position) :
    ((order.killsOf scans).lookup p).getD [] =
      if p ∈ order.slots.map (·.position) then selectScanned scans (p ∈ ·.track.deaths)
      else [] := by
  rw [← lookup_nonempty (fun q => selectScanned scans (q ∈ ·.track.deaths)), List.map_map]
  rfl

/-! ## Complaints -/

theorem unusedIssues_class : order.unusedIssues (some c) =
    (order.unusedIssues none).filter (Issue.isAbout (order.graph.inClass (some c))) := by
  unfold unusedIssues
  rw [List.filter_map, List.filter_filter]
  congr 1

theorem killIssues_class (needed : VReg → Option Bool) (own : VReg → Bool) (b : BlockId)
    (p : Position) (code : List Instruction) :
    order.killIssues (fun r => if own r then needed r else none) b p code =
      (order.killIssues needed b p code).filter (Issue.isAbout own) := by
  induction code generalizing p with
  | nil => rfl
  | cons i rest ih =>
    rw [killIssues, killIssues, List.filter_append, ih, List.filter_filterMap]
    congr 1
    refine List.filterMap_congr fun use _ => ?_
    -- what is said about a register of another class is dropped on both sides
    cases hissue : (needed use.register).bind (order.killIssue? b p i rest use) with
    | none =>
      split
      · exact hissue
      · rfl
    | some issue =>
      obtain ⟨after, -, hafter⟩ := Option.bind_eq_some_iff.1 hissue
      -- a complaint is about the register that is read
      rw [Option.filter_some, eq_of_killIssue? hafter, Issue.isAbout, ← eq_of_killIssue? hafter]
      split
      · exact hissue
      · rfl

theorem readsAfterKill_class : order.readsAfterKill (order.scans (some c)) =
    (order.readsAfterKill (order.scans none)).filter
      (Issue.isAbout (order.graph.inClass (some c))) := by
  unfold readsAfterKill
  rw [List.filter_flatMap]
  refine List.flatMap_congr fun span _ => ?_
  rw [← killIssues_class, scans_class]
  dsimp only
  congr 1
  funext r
  rw [Table.lookup_filter, apply_ite (Option.map _)]
  rfl

theorem entryIssues_class : order.entryIssues (order.scans (some c)) =
    (order.entryIssues (order.scans none)).filter
      (Issue.isAbout (order.graph.inClass (some c))) := by
  unfold entryIssues
  cases order.spans.head? with
  | none => rfl
  | some span =>
    dsimp only
    rw [selectScanned_class, List.filter_map]
    rfl

end LinearOrder

/-- An analysis of one class succeeds where an analysis of all registers does, and finds of the
registers of the class, each of which that occurs has one life, what that one finds. -/
theorem class_analysed_alone {g : Graph} (hg : g.Built) {order : LinearOrder} {all : Liveness}
    {ordered messages : Messages Issue} (hordered : g.linearize = .ok (.success order ordered))
    (h : order.analyze none = .ok (.success all messages)) (c : String) :
    ∃ alone warned, order.analyze (some c) = .ok (.success alone warned) ∧
      (∀ r, (∃ life ∈ alone.lives, life.register = r) ↔
        order.graph.inClass (some c) r = true ∧ order.graph.mentions r = true) ∧
      alone.lives.map Lifetime.outline = (all.lives.filter fun life =>
        order.graph.inClass (some c) life.register).map Lifetime.outline ∧
      (∀ b, alone.liveInto b = (all.liveInto b).filter (order.graph.inClass (some c))) ∧
      (∀ b, alone.liveOutOf b = (all.liveOutOf b).filter (order.graph.inClass (some c))) ∧
      (∀ p, alone.dyingAt p = (all.dyingAt p).filter (order.graph.inClass (some c))) ∧
      warned.warnings.getD [] = (messages.warnings.getD []).filter
        (Issue.isAbout (order.graph.inClass (some c))) := by
  have hregular := LinearOrder.regular_of_linearize hg.wellFormed hordered
  have hindexed := LinearOrder.indexed_of_linearize hg.indexed hordered
  obtain ⟨herrors, rfl, rfl⟩ := (LinearOrder.analyze_eq_success_iff hregular hindexed).1 h
  refine ⟨_, _, (LinearOrder.analyze_eq_success_iff hregular hindexed).2 ⟨?_, rfl, rfl⟩,
    fun r => ?_, order.livesOf_class c, fun b => ?_, fun b => ?_, fun p => ?_, ?_⟩
  -- nothing was reported of all registers, so nothing of these
  · rw [LinearOrder.errorsOf, order.readsAfterKill_class, order.entryIssues_class,
      ← List.filter_append, ← LinearOrder.errorsOf, herrors]
    rfl
  · have hoccurs : (∃ life ∈ LinearOrder.livesOf (order.scans (some c)), life.register = r) ↔
        r ∈ order.occurring (some c) := by
      rw [← LinearOrder.registers_livesOf, List.mem_map]
    exact hoccurs.trans LinearOrder.mem_occurring
  · rw [Liveness.liveInto, LinearOrder.livenessOf, order.liveInSets_class,
      LinearOrder.lookup_restricted]
    rfl
  · rw [Liveness.liveOutOf, LinearOrder.livenessOf, order.liveInSets_class,
      order.liveOutSets_restricted, LinearOrder.lookup_restricted]
    rfl
  · rw [Liveness.dyingAt, Liveness.dyingAt, LinearOrder.livenessOf, LinearOrder.livenessOf,
      order.dying_killsOf, order.dying_killsOf, order.selectScanned_class,
      apply_ite (List.filter _)]
    rfl
  · have hlisted : ∀ issues : List Issue,
        (if issues.isEmpty then none else some issues).getD [] = issues := by
      rintro (_ | _) <;> rfl
    rw [hlisted, hlisted]
    exact order.unusedIssues_class c

/-- A loop over values of two classes, with a register of each that is never used. -/
def mixedLoop : Graph := Graph.run {} [
  .createRegister {}, .createRegister { regClass := some "float" },
  .createRegister { regClass := some "float" }, .createRegister {},
  .addBlock, .addBlock, .addBlock,
  .addInstruction (0 : Nat)
    { opcode := "a", defs := [{ register := (0 : Nat) }, { register := (1 : Nat) }] },
  .addInstruction (1 : Nat)
    { opcode := "b"
      uses := [{ register := (0 : Nat), policy := .any }, { register := (1 : Nat) }]
      defs := [{ register := (0 : Nat) }] },
  .addInstruction (2 : Nat)
    { opcode := "c", uses := [{ register := (1 : Nat), kill := true }, { register := (0 : Nat) }] },
  .addEdge (0 : Nat) (1 : Nat), .addEdge (1 : Nat) (1 : Nat), .addEdge (1 : Nat) (2 : Nat)]

theorem class_analysed_alone_mixedLoop : ∃ order all messages alone warned,
    mixedLoop.linearize = .ok (.success order {}) ∧
      order.analyze none = .ok (.success all messages) ∧
      order.analyze (some "float") = .ok (.success alone warned) ∧
      all.liveInto 1 = [0, 1] ∧ alone.liveInto 1 = [1] ∧
      all.dyingAt 4 = [0, 1] ∧ alone.dyingAt 4 = [1] ∧
      warned.warnings.getD [] = [.unused 2 "v2"] := by
  have hanalysed : ∃ order all messages, mixedLoop.linearize = .ok (.success order {}) ∧
      order.analyze none = .ok (.success all messages) ∧
      order.graph = mixedLoop.freeze ∧ all.liveInto 1 = [0, 1] ∧ all.dyingAt 4 = [0, 1] ∧
      messages.warnings.getD [] = [.unused 2 "v2", .unused 3 "v3"] :=
    ⟨_, _, _, rfl, rfl, rfl, rfl, rfl, rfl⟩
  obtain ⟨order, all, messages, hordered, h, hgraph, hlive, hdying, hwarned⟩ := hanalysed
  obtain ⟨alone, warned, halone, -, -, hlive', -, hdying', hwarned'⟩ :=
    class_analysed_alone ⟨_, rfl⟩ hordered h "float"
  refine ⟨order, all, messages, alone, warned, hordered, h, halone, hlive, ?_, hdying, ?_, ?_⟩
  · rw [hlive', hlive, hgraph]
    rfl
  · rw [hdying', hdying, hgraph]
    rfl
  · rw [hwarned', hwarned, hgraph]
    rfl

end RegAlloc
