import RegAlloc.Proofs.Liveness.Classes
import RegAlloc.Proofs.Liveness.Entry

/-!
# Reads that are marked as last uses

A read can be marked as the last use of its value. The analysis reports such a read if a
path along edges that close no loop leads from behind it to another read before any write. A
path that goes around a loop is not looked at. So a marked read that passes may still not be
the last use, but only in one way: a path without a write leads from behind it to a loop edge,
and the header that the edge returns to needs the value.

- `LinearOrder.Killing` — a read that is marked;
- `Graph.ReadAgain` — a later read of the same value;
- `LinearOrder.mem_readsAfterKill` — the reads that are reported;
- `LinearOrder.CarriedBack` — a way to a header that needs the value;
- `LinearOrder.forward_or_carriedBack` — every path to a read is forward, or goes that way;
- `kill_reports_exact` — what is reported, and what is left unreported.
-/

namespace RegAlloc

/-- Whether a cause is a read after one that was marked as the last. -/
def Issue.isReadAfterKill : Issue → Bool
  | .readAfterKill .. => true
  | _ => false

/-- Along given edges, the value of a register behind an instruction is read again: the
instruction itself, numbered `k` in its block, does not replace it, and some path behind it
reads the register before any write. -/
def Graph.ReadAgain (g : Graph) (edge : BlockId → BlockId → Prop) (r : VReg) (b : BlockId) (k : Nat)
    (i : Instruction) : Prop :=
  i.writes r = false ∧ g.NeededAlong edge r b (k + 1)

namespace LinearOrder

variable {order : LinearOrder} {regClass : Option String} {r : VReg} {b : BlockId} {k : Nat}

/-- A read of a register of a class, by the instruction numbered `k` of a block, that is marked
as the last use. -/
structure Killing (order : LinearOrder) (regClass : Option String) (span : Span) (k : Nat)
    (i : Instruction) (use : Use) : Prop where
  block : span ∈ order.spans
  code : (order.graph.instructions span.block)[k]? = some i
  read : use ∈ i.uses
  marked : use.kill = true
  inClass : order.graph.inClass regClass use.register = true

/-- What is reported of a marked read. -/
def killReport (order : LinearOrder) (span : Span) (k : Nat) (i : Instruction) (use : Use) :
    Issue :=
  .readAfterKill use.register (order.graph.nameOf use.register) span.block i.index
    (span.first + stride * k)

/-! ## Reports -/

/-- What is reported in straight-line code: the marked reads behind which the value is needed,
according to what is needed behind the code. -/
theorem mem_killIssues {needed : VReg → Option Bool} {issue : Issue} :
    ∀ {code : List Instruction} {p : Position}, issue ∈ order.killIssues needed b p code ↔
      ∃ (k : Nat) (i : Instruction), code[k]? = some i ∧ ∃ use ∈ i.uses, use.kill = true ∧
        i.writes use.register = false ∧ ∃ out, needed use.register = some out ∧
          liveBefore use.register out (code.drop (k + 1)) = true ∧
          issue = .readAfterKill use.register (order.graph.nameOf use.register) b i.index
            (p + stride * k)
  | [], p => by simp [killIssues]
  | i :: rest, p => by
    have hnext : ∀ k : Nat, p + stride * (k + 1 : Nat) = p + stride + stride * k := fun k => by lia
    rw [killIssues, List.mem_append, mem_killIssues, List.mem_filterMap]
    constructor
    · rintro (⟨k, j, hj, hissue⟩ | ⟨use, huse, hissue⟩)
      · exact ⟨k + 1, j, hj, by simpa only [hnext, List.drop_succ_cons] using hissue⟩
      · obtain ⟨out, hout, hissue⟩ := Option.bind_eq_some_iff.1 hissue
        rw [killIssue?] at hissue
        split at hissue
        · next hholds =>
          cases hissue
          simp only [Bool.and_eq_true, Bool.not_eq_true'] at hholds
          obtain ⟨⟨hkill, hwrites⟩, hlive⟩ := hholds
          exact ⟨0, i, rfl, use, huse, hkill, hwrites, out, hout, hlive, by simp⟩
        · cases hissue
    · rintro ⟨k, j, hj, use, huse, hkill, hwrites, out, hout, hlive, rfl⟩
      cases k with
      | zero =>
        cases hj
        rw [Nat.zero_add, List.drop_succ_cons, List.drop_zero] at hlive
        refine .inr ⟨use, huse, Option.bind_eq_some_iff.2 ⟨out, hout, ?_⟩⟩
        simp [killIssue?, hkill, hwrites, hlive]
      | succ k =>
        exact .inl ⟨k, j, hj, use, huse, hkill, hwrites, out, hout, hlive, by rw [hnext]⟩

/-- A register that an instruction reads is one of those analysed, if it is of the class. -/
theorem Killing.mem_occurring {span : Span} {i : Instruction} {use : Use}
    (hkilling : order.Killing regClass span k i use) :
    use.register ∈ order.occurring regClass := by
  have hi := List.mem_of_getElem? hkilling.code
  have hmentions : i.mentions use.register = true := by
    have hreads : i.reads use.register = true :=
      List.any_eq_true.2 ⟨use, hkilling.read, beq_self_eq_true use.register⟩
    rw [Instruction.mentions, hreads, Bool.true_or]
  exact LinearOrder.mem_occurring.2
    ⟨hkilling.inClass, Graph.mentions_iff.2 ⟨span.block, i, hi, hmentions⟩⟩

/-- The marked reads that are reported are those whose value a forward path reads again. -/
theorem mem_readsAfterKill (h : order.Regular) {issue : Issue} :
    issue ∈ order.readsAfterKill (order.scans regClass) ↔ ∃ span k i use,
      order.Killing regClass span k i use ∧
        order.graph.ReadAgain order.Forward use.register span.block k i ∧
        issue = order.killReport span k i use := by
  simp only [readsAfterKill, List.mem_flatMap, List.mem_reverse, mem_killIssues, lookup_scans]
  constructor
  · rintro ⟨span, hspan, k, i, hi, use, huse, hkill, hwrites, out, hout, hlive, rfl⟩
    split at hout
    · next hr =>
      cases hout
      exact ⟨span, k, i, use, ⟨hspan, hi, huse, hkill, (LinearOrder.mem_occurring.1 hr).1⟩,
        ⟨hwrites, (liveBefore_drop_iff_forward h).1 hlive⟩, rfl⟩
    · cases hout
  · rintro ⟨span, k, i, use, hkilling, ⟨hwrites, hneeded⟩, rfl⟩
    refine ⟨span, hkilling.block, k, i, hkilling.code, use, hkilling.read, hkilling.marked, hwrites,
      order.neededAfter use.register span.block, ?_, (liveBefore_drop_iff_forward h).2 hneeded, rfl⟩
    rw [if_pos hkilling.mem_occurring]
    rfl

/-- The errors of an analysis that are about marked reads are the reads that it looks for. -/
theorem isReadAfterKill_iff (h : order.Regular) {issue : Issue} :
    issue ∈ order.readsAfterKill (order.scans regClass) ++ order.entryIssues (order.scans regClass)
      ∧ issue.isReadAfterKill = true ↔ issue ∈ order.readsAfterKill (order.scans regClass) := by
  constructor
  · rintro ⟨hmem, hcause⟩
    refine (List.mem_append.1 hmem).resolve_right fun hentry => ?_
    unfold entryIssues at hentry
    split at hentry
    · cases hentry
    · obtain ⟨r, -, rfl⟩ := List.mem_map.1 hentry
      cases hcause
  · intro hmem
    obtain ⟨span, k, i, use, -, -, rfl⟩ := (mem_readsAfterKill h).1 hmem
    exact ⟨List.mem_append_left _ hmem, rfl⟩

/-! ## Around a loop -/

/-- From the instruction numbered `k` of a block on, a path without a write leads to a loop
edge, and a forward path from the header that the edge returns to needs the value. -/
def CarriedBack (order : LinearOrder) (r : VReg) (b : BlockId) (k : Nat) : Prop :=
  ∃ path latch header, (b :: path).IsChain order.graph.HasEdge ∧
    (b :: path).getLast? = some latch ∧ order.isLoopEdge latch header = true ∧
    (∀ j ∈ (order.graph.instructions b).drop k ++ path.flatMap order.graph.instructions,
      j.writes r = false) ∧
    order.graph.NeededFrom order.Forward r header

/-- A block without a write in front of a way back is part of it. -/
theorem CarriedBack.cons {s : BlockId} (hedge : order.graph.HasEdge b s)
    (hnone : ∀ j ∈ (order.graph.instructions b).drop k, j.writes r = false)
    (hback : order.CarriedBack r s 0) : order.CarriedBack r b k := by
  obtain ⟨path, latch, header, hchain, hlast, hloop, hpasses, hneeded⟩ := hback
  refine ⟨s :: path, latch, header, List.isChain_cons_cons.2 ⟨hedge, hchain⟩, ?_, hloop, ?_,
    hneeded⟩
  · rw [List.getLast?_cons_cons]
    exact hlast
  · rw [List.drop_zero, ← List.flatMap_cons] at hpasses
    exact List.forall_mem_append.2 ⟨hnone, hpasses⟩

/-- An edge from which a way back starts, or at which a forward path starts, continues a path
that has not written the value. -/
theorem forward_or_carriedBack_cons {s : BlockId} (hedge : order.graph.HasEdge b s)
    (hnone : ∀ j ∈ (order.graph.instructions b).drop k, j.writes r = false)
    (hrest : order.graph.NeededFrom order.Forward r s ∨ order.CarriedBack r s 0) :
    order.graph.NeededAlong order.Forward r b k ∨ order.CarriedBack r b k := by
  rcases hrest with hneeded | hback
  · cases hloop : order.isLoopEdge b s with
    | false =>
      exact .inl (Graph.neededAlong_iff.2 (.inr ⟨hnone, s, ⟨hedge, hloop⟩, hneeded⟩))
    | true =>
      exact .inr ⟨[], b, s, List.isChain_singleton b, rfl, hloop, by simpa using hnone, hneeded⟩
  · exact .inr (hback.cons hedge hnone)

/-- A path that reads first from the start of a block on does so from its first instruction
on. -/
theorem neededAlong_zero {edge : BlockId → BlockId → Prop} :
    order.graph.NeededAlong edge r b 0 ↔ order.graph.NeededFrom edge r b := by
  rw [Graph.neededAlong_iff, Graph.neededFrom_iff, List.drop_zero]

/-- A block from which some path needs a value has a forward path that does, or a way back. -/
theorem forward_or_carriedBack_from (path : List BlockId) (hhead : path.head? = some b)
    (hchain : path.IsChain order.graph.HasEdge) (hread : order.graph.ReadFirst r path) :
    order.graph.NeededFrom order.Forward r b ∨ order.CarriedBack r b 0 := by
  induction path generalizing b with
  | nil => cases hhead
  | cons first rest ih =>
    cases hhead
    rcases Graph.readFirst_cons.1 hread with hhere | ⟨hnone, hread⟩
    · exact .inl (Graph.neededFrom_iff.2 (.inl hhere))
    cases rest with
    | nil => exact absurd hread Graph.readFirst_nil
    | cons s rest =>
      obtain ⟨hedge, hchain⟩ := List.isChain_cons_cons.1 hchain
      rw [← neededAlong_zero]
      exact forward_or_carriedBack_cons hedge hnone (ih rfl hchain hread)

/-- Whatever a path needs, a forward path needs, or there is a way back to a header that does. -/
theorem forward_or_carriedBack (hneeded : order.graph.NeededAlong order.graph.HasEdge r b k) :
    order.graph.NeededAlong order.Forward r b k ∨ order.CarriedBack r b k := by
  rcases Graph.neededAlong_iff.1 hneeded with hhere | ⟨hnone, s, hedge, path, hhead, hchain, hread⟩
  · exact .inl (Graph.neededAlong_iff.2 (.inl hhere))
  · exact forward_or_carriedBack_cons hedge hnone
      (forward_or_carriedBack_from path hhead hchain hread)

/-- A way back to a header that needs a value leads to a read. -/
theorem CarriedBack.neededAlong (h : order.Regular) (hback : order.CarriedBack r b k) :
    order.graph.NeededAlong order.graph.HasEdge r b k := by
  obtain ⟨path, latch, header, hchain, hlast, hloop, hpasses, further, hhead, hforward, hread⟩ :=
    hback
  have hedge : order.graph.HasEdge latch header :=
    h.loopEdge ⟨latch, header⟩ (by simpa [isLoopEdge] using hloop)
  refine ⟨path ++ further, ?_, ?_⟩
  · rw [← List.cons_append]
    refine List.isChain_append.2 ⟨hchain, hforward.imp fun _ _ hedge => hedge.1, ?_⟩
    intro u hu v hv
    cases hlast.symm.trans hu
    cases hhead.symm.trans hv
    exact hedge
  · rw [List.flatMap_append, ← List.append_assoc]
    exact codeReads_append.2 (.inr ⟨hpasses, hread⟩)

end LinearOrder

/-- The analysis of a linear order returns, and reports a read that is marked as a last use
exactly if the value is read again along edges that close no loop. If it succeeds, none is, and
a marked read is the last use of its value unless the value is carried back to the header of
a loop that needs it. -/
theorem kill_reports_exact {g : Graph} (hg : g.Built) {order : LinearOrder}
    {messages : Messages Issue} (h : g.linearize = .ok (.success order messages))
    (regClass : Option String) : ∃ outcome, order.analyze regClass = .ok outcome ∧
      (∀ issue : Issue, issue ∈ outcome.errors ∧ issue.isReadAfterKill = true ↔
        ∃ span k i use, order.Killing regClass span k i use ∧
          order.graph.ReadAgain order.Forward use.register span.block k i ∧
          issue = order.killReport span k i use) ∧
      (outcome.succeeded = true → ∀ span k i use, order.Killing regClass span k i use →
        ¬ order.graph.ReadAgain order.Forward use.register span.block k i ∧
        (order.graph.ReadAgain order.graph.HasEdge use.register span.block k i ↔
          i.writes use.register = false ∧ order.CarriedBack use.register span.block (k + 1))) := by
  have hregular := LinearOrder.regular_of_linearize hg.wellFormed h
  have hindexed := LinearOrder.indexed_of_linearize hg.indexed h
  obtain ⟨outcome, houtcome, herrors, hsucceeded⟩ :=
    LinearOrder.exists_analyze hregular hindexed regClass
  have hreported : ∀ issue : Issue, issue ∈ outcome.errors ∧ issue.isReadAfterKill = true ↔
      issue ∈ order.readsAfterKill (order.scans regClass) := fun issue => by
    rw [Outcome.errors, herrors]
    exact LinearOrder.isReadAfterKill_iff hregular
  refine ⟨outcome, houtcome, fun issue =>
    (hreported issue).trans (LinearOrder.mem_readsAfterKill hregular), fun hsuccess span k i use
      hkilling => ?_⟩
  -- a read along forward edges would have been reported
  have hforward : ¬ order.graph.ReadAgain order.Forward use.register span.block k i := by
    intro hagain
    have hmem := (LinearOrder.mem_readsAfterKill hregular).2
      ⟨span, k, i, use, hkilling, hagain, rfl⟩
    have herror := ((hreported _).2 hmem).1
    rw [Outcome.errors, hsucceeded hsuccess] at herror
    cases herror
  refine ⟨hforward, fun ⟨hwrites, hneeded⟩ => ⟨hwrites, ?_⟩, fun ⟨hwrites, hback⟩ =>
    ⟨hwrites, hback.neededAlong hregular⟩⟩
  exact (LinearOrder.forward_or_carriedBack hneeded).resolve_left fun hneeded =>
    hforward ⟨hwrites, hneeded⟩

/-- A loop that reads a value in its header and, as if for the last time, in its latch. -/
def secondTurn : Graph := Graph.run {} [
  .createRegister {}, .addBlock, .addBlock, .addBlock, .addBlock,
  .addInstruction (0 : Nat) { opcode := "d", defs := [{ register := (0 : Nat) }] },
  .addInstruction (1 : Nat) { opcode := "u", uses := [{ register := (0 : Nat) }] },
  .addInstruction (2 : Nat) { opcode := "k", uses := [{ register := (0 : Nat), kill := true }] },
  .addEdge (0 : Nat) (1 : Nat), .addEdge (1 : Nat) (2 : Nat), .addEdge (2 : Nat) (1 : Nat),
  .addEdge (2 : Nat) (3 : Nat)]

/-- The read in the latch of `secondTurn`. -/
def markedRead : Instruction :=
  { index := 0, block := 2, opcode := "k", uses := [{ register := 0, kill := true }], defs := [] }

theorem readAgain_secondTurn :
    secondTurn.freeze.ReadAgain secondTurn.freeze.HasEdge 0 2 0 markedRead :=
  ⟨rfl, [1], by decide, [], _, [], rfl, rfl, by simp⟩

/-- The analysis succeeds, and the loop reads the value again as it goes around. -/
theorem kill_unreported_secondTurn : secondTurn.Built ∧ ∃ order liveness,
    secondTurn.linearize = .ok (.success order {}) ∧
      order.analyze none = .ok (.success liveness {}) ∧ ∃ span k i use,
        order.Killing none span k i use ∧
          order.graph.ReadAgain order.graph.HasEdge use.register span.block k i :=
  ⟨⟨_, rfl⟩, _, _, rfl, rfl, ⟨2, 4, 4⟩, 0, markedRead, ⟨0, .register, true⟩,
    ⟨by decide, rfl, by decide, rfl, rfl⟩, readAgain_secondTurn⟩

theorem kill_reports_exact_secondTurn : secondTurn.Built ∧ ∃ order,
    secondTurn.linearize = .ok (.success order {}) ∧ ∃ span k i use,
      order.Killing none span k i use ∧
        ¬ order.graph.ReadAgain order.Forward use.register span.block k i ∧
        order.CarriedBack use.register span.block (k + 1) := by
  have hg : secondTurn.Built := ⟨_, rfl⟩
  have h : secondTurn.linearize = .ok (.success _ _) := rfl
  obtain ⟨outcome, houtcome, -, hsucceeds⟩ := kill_reports_exact hg h none
  cases houtcome
  obtain ⟨hforward, hagain⟩ := hsucceeds rfl ⟨2, 4, 4⟩ 0 markedRead ⟨0, .register, true⟩
    ⟨by decide, rfl, by decide, rfl, rfl⟩
  exact ⟨hg, _, h, ⟨2, 4, 4⟩, 0, markedRead, ⟨0, .register, true⟩,
    ⟨by decide, rfl, by decide, rfl, rfl⟩, hforward, (hagain.1 readAgain_secondTurn).2⟩

end RegAlloc
