import RegAlloc.Proofs.Allocation.Operands

/-!
# Homes for the operands of all classes

Class-wise allocation runs once for each class that was given a pool, and the runs do not know of
each other. An operand is found by the run of its own class and by no other, so it has a home
exactly if its class was given a pool. A class that was not is reported, unless its name is one of
those that every table of pools knows: registers of such a class are left without a home.

- `Pools.given?` — the pool of a class;
- `Pools.mem_ofPairs`, `Pools.knows_ofPairs` — what a table of pools contains and knows;
- `Graph.exists_allocateByClass`, `Graph.mem_of_allocateByClass` — the runs, one by one;
- `Graph.locates_iff` — which operands one run finds;
- `classes_house_operands` — success, the allocations, and where the operands are found.
-/

namespace RegAlloc

/-! ## Tables of pools -/

namespace Pools

/-- The pool that a class was given, the last one if there were several. -/
def given? (pairs : List (String × List String)) (c : String) : Option (List String) :=
  pairs.reverse.lookup c

/-- Sorting the classes with a number to the front loses none and adds none. -/
theorem ofPairs_perm (pairs : List (String × List String)) :
    (ofPairs pairs).entries.Perm (Table.ofPairs pairs) := by
  unfold ofPairs
  generalize Table.ofPairs pairs = entries
  -- numbered classes are taken out with their numbers, and come back without them
  have hnumbered : (entries.filterMap fun entry =>
      (classNumber? entry.1).map fun n => (n, entry)).map (·.2) =
        entries.filter fun entry => (classNumber? entry.1).isSome := by
    rw [List.map_filterMap, ← List.filterMap_eq_filter]
    refine List.filterMap_congr fun entry _ => ?_
    cases hnumber : classNumber? entry.1 with
    | none => simp [Option.guard, hnumber]
    | some n => simp [Option.guard, hnumber]
  have hsorted := ((sortBy_perm (fun a b => a.1 < b.1) (entries.filterMap fun entry =>
    (classNumber? entry.1).map fun n => (n, entry))).map (·.2)).append_right
      (entries.filter fun entry => (classNumber? entry.1).isNone)
  rw [hnumbered] at hsorted
  refine hsorted.trans ?_
  have hsplit := List.filter_append_perm (fun entry => (classNumber? entry.1).isSome) entries
  simpa only [Option.not_isSome] using hsplit

theorem mem_ofPairs {pairs : List (String × List String)} {c : String} {pool : List String} :
    (c, pool) ∈ (ofPairs pairs).entries ↔ given? pairs c = some pool := by
  rw [(ofPairs_perm pairs).mem_iff, Table.mem_iff_lookup (Table.nodup_ofPairs pairs),
    Table.lookup_ofPairs, given?]

/-- A class counts as having a pool if it was given one, or has a name that is always known. -/
theorem knows_ofPairs {pairs : List (String × List String)} {c : String} :
    (ofPairs pairs).knows c = true ↔ (given? pairs c).isSome = true ∨ c ∈ builtinNames := by
  rw [knows, Bool.or_eq_true, decide_eq_true_eq, List.any_eq_true, Option.isSome_iff_exists]
  refine or_congr_left ⟨?_, fun ⟨pool, hpool⟩ => ⟨(c, pool), mem_ofPairs.2 hpool, by simp⟩⟩
  rintro ⟨⟨c', pool⟩, hmem, hc⟩
  cases beq_iff_eq.1 hc
  exact ⟨pool, mem_ofPairs.1 hmem⟩

end Pools

/-! ## Runs -/

namespace Graph

variable {g : Graph} {pools : Pools} {verify : Bool} {found : List (String × Allocation)}
  {messages : Messages Issue}

theorem missingPools_eq_nil :
    g.missingPools pools = [] ↔ ∀ register ∈ g.registers, pools.knows register.regClass = true := by
  simp only [missingPools, classes, List.filter_eq_nil_iff, List.mem_eraseDups, List.mem_map,
    Bool.not_eq_true', Bool.not_eq_false, forall_exists_index, and_imp, forall_apply_eq_imp_iff₂]

/-- What class-wise allocation does when it succeeds. -/
theorem allocateByClass_eq_success :
    g.allocateByClass pools verify = .ok (.success found messages) ↔
      g.missingPools pools = [] ∧ ∃ outcomes,
        (pools.entries.mapM fun entry => do
          return (entry.1, ← g.allocate (classOptions verify entry))) = .ok outcomes ∧
        (∀ entry ∈ outcomes, entry.2.succeeded = true) ∧
        found = outcomes.filterMap
          (fun (c, outcome) => outcome.value?.map fun a => (c, a)) ∧
        messages = .merge (outcomes.map (·.2.messages)) := by
  rw [allocateByClass]
  dsimp only
  cases hmissing : g.missingPools pools with
  -- a class without a pool is reported before anything is allocated
  | cons c rest => simp [Outcome.fail, pure, Except.pure]
  | nil =>
    rw [if_neg (by simp), bind_eq_ok]
    constructor
    -- all runs have returned, and success is that each of them succeeded
    · rintro ⟨outcomes, hran, h⟩
      refine ⟨rfl, outcomes, hran, ?_⟩
      split at h
      · next hall =>
        cases h
        exact ⟨List.all_eq_true.1 hall, rfl, rfl⟩
      · cases h
    · rintro ⟨-, outcomes, hran, hall, hfound, hmessages⟩
      refine ⟨outcomes, hran, ?_⟩
      rw [if_pos (List.all_eq_true.2 hall), hfound, hmessages]
      rfl

/-- The allocations that are found are those of the runs. -/
theorem mem_of_allocateByClass (h : g.allocateByClass pools verify = .ok (.success found messages))
    {c : String} {a : Allocation} : (c, a) ∈ found ↔ ∃ pool, (c, pool) ∈ pools.entries ∧
      ∃ messages, g.allocate { registers := pool, regClass := some c, verify } =
        .ok (.success a messages) := by
  obtain ⟨-, outcomes, hran, -, rfl, -⟩ := allocateByClass_eq_success.1 h
  rw [List.mem_filterMap]
  constructor
  · rintro ⟨⟨c', outcome⟩, hmem, hvalue⟩
    obtain ⟨⟨_, pool⟩, hentry, hrun⟩ := (mem_of_mapM_eq_ok hran).1 hmem
    obtain ⟨_, hallocate, ⟨⟩⟩ := bind_eq_ok.1 hrun
    cases outcome with
    | failure messages => cases hvalue
    | success a' messages =>
      cases hvalue
      exact ⟨pool, hentry, messages, hallocate⟩
  · rintro ⟨pool, hentry, messages, hallocate⟩
    exact ⟨(c, .success a messages), (mem_of_mapM_eq_ok hran).2
      ⟨(c, pool), hentry, bind_eq_ok.2 ⟨_, hallocate, rfl⟩⟩, rfl⟩

/-- Class-wise allocation succeeds exactly if no pool is missing and every run succeeds. -/
theorem exists_allocateByClass :
    (∃ found messages, g.allocateByClass pools verify = .ok (.success found messages)) ↔
      g.missingPools pools = [] ∧ ∀ c pool, (c, pool) ∈ pools.entries → ∃ a messages,
        g.allocate { registers := pool, regClass := some c, verify } =
          .ok (.success a messages) := by
  constructor
  · rintro ⟨found, messages, h⟩
    obtain ⟨hmissing, outcomes, hran, hall, -, -⟩ := allocateByClass_eq_success.1 h
    refine ⟨hmissing, fun c pool hentry => ?_⟩
    obtain ⟨entry, hentry'⟩ := exists_mapM_eq_ok.1 ⟨outcomes, hran⟩ (c, pool) hentry
    have hsucceeded := hall entry ((mem_of_mapM_eq_ok hran).2 ⟨_, hentry, hentry'⟩)
    obtain ⟨outcome, hallocate, ⟨⟩⟩ := bind_eq_ok.1 hentry'
    cases outcome with
    | failure messages => cases hsucceeded
    | success a messages => exact ⟨a, messages, hallocate⟩
  · rintro ⟨hmissing, hall⟩
    -- every pool gives an allocation, so the whole list of runs returns
    have hruns : ∀ entry ∈ pools.entries, ∃ answer,
        (do return (entry.1, ← g.allocate (classOptions verify entry)) :
          Except Violation (String × Outcome Issue Allocation)) = .ok answer := by
      rintro ⟨c, pool⟩ hentry
      obtain ⟨a, messages, hallocate⟩ := hall c pool hentry
      exact ⟨_, bind_eq_ok.2 ⟨_, hallocate, rfl⟩⟩
    obtain ⟨outcomes, hran⟩ := exists_mapM_eq_ok.2 hruns
    refine ⟨_, _, allocateByClass_eq_success.2 ⟨hmissing, outcomes, hran, ?_, rfl, rfl⟩⟩
    intro answer hanswer
    obtain ⟨⟨c, pool⟩, hentry, hrun⟩ := (mem_of_mapM_eq_ok hran).1 hanswer
    obtain ⟨a, messages, hallocate⟩ := hall c pool hentry
    obtain ⟨_, hallocate', ⟨⟩⟩ := bind_eq_ok.1 hrun
    cases hallocate.symm.trans hallocate'
    rfl

/-- An allocation is about the linear order of its graph. -/
theorem order_of_allocate {options : Options} {a : Allocation} {order : LinearOrder}
    {ordered : Messages Issue} (h : g.allocate options = .ok (.success a messages))
    (hordered : g.linearize = .ok (.success order ordered)) : a.order = order := by
  obtain ⟨_, hordered'⟩ := linearize_of_allocate h
  cases hordered.symm.trans hordered'
  rfl

end Graph

/-! ## Operands -/

/-- An operand is found exactly if it is of the class that was allocated. -/
theorem Allocation.Arranged.exists_locate?_iff {a : Allocation} {regClass : Option String}
    (h : a.Arranged regClass) {p : Position} {i : Instruction} (hstands : a.order.Stands p i)
    {r : VReg} {u : UsePoint} (hused : Track.UsedBy r p i u) :
    (∃ l, a.locate? r u.position = some l) ↔ a.order.graph.inClass regClass r = true := by
  constructor
  · rintro ⟨l, hl⟩
    obtain ⟨life, hlife, hregister, -⟩ := h.locate?_eq_some.1 hl
    exact (LinearOrder.mem_occurring.1 ((h.occurs r).2 ⟨life, hlife, hregister⟩)).1
  · intro hclass
    obtain ⟨l, hl, -⟩ := h.locate?_of_used hstands hclass hused
    exact ⟨l, hl⟩

/-- The allocation of a class finds a register at a position. -/
def FoundAt (found : List (String × Allocation)) (r : VReg) (p : Position) (c : String) : Prop :=
  ∃ a, (c, a) ∈ found ∧ ∃ l, a.locate? r p = some l

/-- A register is found at a position by its own class alone, if this was given a pool. -/
structure Housed (g : Graph) (pairs : List (String × List String))
    (found : List (String × Allocation)) (r : VReg) (p : Position) : Prop where
  foundAt : ∀ c, FoundAt found r p c ↔
    g.inClass (some c) r = true ∧ (Pools.given? pairs c).isSome = true
  /-- The class lacks a pool only if its name is one that is always known. -/
  known : ∃ c, g.inClass (some c) r = true ∧
    ((Pools.given? pairs c).isSome = true ∨ c ∈ Pools.builtinNames)

/-- A declared register has the class that it was declared with. -/
theorem Graph.inClass_getElem (g : Graph) {k : Nat} (hk : k < g.registers.length) :
    g.inClass (some g.registers[k].regClass) k = true := by
  have hfound : g.register? ((k : VReg) : Ref) = some g.registers[k] :=
    List.getElem?_eq_getElem hk
  rw [Graph.inClass, hfound, Option.map_some, beq_self_eq_true]

/-- The run of a class finds an operand exactly if it is of that class. -/
theorem Graph.locates_iff {g : Graph} (hg : g.Built) {options : Options} {a : Allocation}
    {messages ordered : Messages Issue} (h : g.allocate options = .ok (.success a messages))
    {order : LinearOrder} (hordered : g.linearize = .ok (.success order ordered)) {p : Position}
    {i : Instruction} (hstands : order.Stands p i) {r : VReg} {u : UsePoint}
    (hused : Track.UsedBy r p i u) :
    (∃ l, a.locate? r u.position = some l) ↔ g.inClass options.regClass r = true := by
  have ha := order_of_allocate h hordered
  rw [(arranged_of_allocate hg h).exists_locate?_iff (ha ▸ hstands) hused, ha,
    LinearOrder.graph_of_linearize hordered]
  rfl

/-- An operand is a declared register. -/
theorem Graph.declared_of_used {g : Graph} (hg : g.Built) {order : LinearOrder}
    {ordered : Messages Issue} (hordered : g.linearize = .ok (.success order ordered))
    {p : Position} {i : Instruction} (hstands : order.Stands p i) {r : VReg} {u : UsePoint}
    (hused : Track.UsedBy r p i u) : ∃ k : Nat, r = k ∧ k < g.registers.length := by
  obtain ⟨span, -, k, hi, -⟩ := hstands
  rw [LinearOrder.graph_of_linearize hordered] at hi
  exact hg.wellFormed.declared span.block i (List.mem_of_getElem? hi) r hused.mentions

theorem housed_of_used {g : Graph} (hg : g.Built) {pairs : List (String × List String)}
    {verify : Bool} {found : List (String × Allocation)} {messages ordered : Messages Issue}
    (h : g.allocateByClass (.ofPairs pairs) verify = .ok (.success found messages))
    {order : LinearOrder} (hordered : g.linearize = .ok (.success order ordered)) {p : Position}
    {i : Instruction} (hstands : order.Stands p i) {r : VReg} {u : UsePoint}
    (hused : Track.UsedBy r p i u) : Housed g pairs found r u.position := by
  obtain ⟨hmissing, hall⟩ := Graph.exists_allocateByClass.1 ⟨found, messages, h⟩
  constructor
  · intro c
    constructor
    -- an allocation that was found is of the pool given for its class
    · rintro ⟨a, ha, hlocate⟩
      obtain ⟨pool, hpool, _, hallocate⟩ := (Graph.mem_of_allocateByClass h).1 ha
      exact ⟨(Graph.locates_iff hg hallocate hordered hstands hused).1 hlocate,
        Option.isSome_iff_exists.2 ⟨pool, Pools.mem_ofPairs.1 hpool⟩⟩
    · rintro ⟨hclass, hgiven⟩
      obtain ⟨pool, hpool⟩ := Option.isSome_iff_exists.1 hgiven
      rw [← Pools.mem_ofPairs] at hpool
      obtain ⟨a, _, hallocate⟩ := hall c pool hpool
      exact ⟨a, (Graph.mem_of_allocateByClass h).2 ⟨pool, hpool, _, hallocate⟩,
        (Graph.locates_iff hg hallocate hordered hstands hused).2 hclass⟩
  -- every class that occurs has a pool
  · obtain ⟨k, rfl, hk⟩ := Graph.declared_of_used hg hordered hstands hused
    have hknown := Graph.missingPools_eq_nil.1 hmissing _ (List.getElem_mem hk)
    exact ⟨_, g.inClass_getElem hk, Pools.knows_ofPairs.1 hknown⟩

/-- Class-wise allocation succeeds exactly if every class that was given a pool can be allocated
from it, and every class without one has a name that is always known. It then returns what each
class gets alone, and an operand has a home, in the allocation of its own class, exactly if that
class was given a pool. -/
theorem classes_house_operands {g : Graph} (hg : g.Built) (pairs : List (String × List String))
    (verify : Bool) :
    ((∃ found messages,
        g.allocateByClass (.ofPairs pairs) verify = .ok (.success found messages)) ↔
      (∀ register ∈ g.registers, (Pools.given? pairs register.regClass).isSome = true ∨
        register.regClass ∈ Pools.builtinNames) ∧
      ∀ c pool, Pools.given? pairs c = some pool → ∃ a messages,
        g.allocate { registers := pool, regClass := some c, verify } =
          .ok (.success a messages)) ∧
    ∀ found messages, g.allocateByClass (.ofPairs pairs) verify = .ok (.success found messages) →
      (∀ c a, (c, a) ∈ found ↔ ∃ pool, Pools.given? pairs c = some pool ∧ ∃ messages,
        g.allocate { registers := pool, regClass := some c, verify } =
          .ok (.success a messages)) ∧
      ∀ order ordered, g.linearize = .ok (.success order ordered) →
        ∀ p i, order.Stands p i →
          (∀ use ∈ i.uses, Housed g pairs found use.register p) ∧
          ∀ d ∈ i.defs, Housed g pairs found d.register (p + 1) := by
  refine ⟨?_, fun found messages h => ⟨fun c a => ?_, fun order ordered hordered p i hstands =>
    ⟨fun use huse => ?_, fun d hd => ?_⟩⟩⟩
  · rw [Graph.exists_allocateByClass, Graph.missingPools_eq_nil]
    simp only [Pools.knows_ofPairs, Pools.mem_ofPairs]
  · rw [Graph.mem_of_allocateByClass h]
    simp only [Pools.mem_ofPairs]
  · exact housed_of_used hg h hordered hstands (.inr ⟨use, huse, rfl, rfl⟩)
  · exact housed_of_used hg h hordered hstands (.inl ⟨d, hd, rfl, rfl⟩)

/-- A value of each of two classes, both used by one instruction. -/
def sideBySide : Graph := Graph.run {} [
  .createRegister {}, .createRegister { regClass := some "float" }, .addBlock,
  .addInstruction (0 : Nat)
    { opcode := "a", defs := [{ register := (0 : Nat) }, { register := (1 : Nat) }] },
  .addInstruction (0 : Nat)
    { opcode := "b", uses := [{ register := (1 : Nat) }, { register := (0 : Nat) }] }]

theorem classes_house_operands_sideBySide :
    ∃ pairs, Pools.given? pairs "general" = some ["r0"] ∧ ∃ found messages,
      sideBySide.allocateByClass (.ofPairs pairs) true = .ok (.success found messages) ∧
      FoundAt found 0 2 "general" ∧ ¬ FoundAt found 0 2 "float" ∧
      FoundAt found 1 2 "float" ∧ ¬ FoundAt found 1 2 "general" := by
  -- the pool that counts is the one given last
  let pairs := [("general", ["x0", "x1"]), ("float", ["f0"]), ("general", ["r0"])]
  have hgiven : ∀ c pool, Pools.given? pairs c = some pool →
      (c = "general" ∧ pool = ["r0"]) ∨ (c = "float" ∧ pool = ["f0"]) := by
    intro c pool hpool
    simp only [pairs, Pools.given?, List.reverse_cons, List.reverse_nil, List.nil_append,
      List.cons_append, List.lookup_cons, List.lookup_nil] at hpool
    grind
  obtain ⟨hsucceeds, hhoused⟩ := classes_house_operands (g := sideBySide) ⟨_, rfl⟩ pairs true
  -- both pools are enough for their classes
  obtain ⟨found, messages, h⟩ := hsucceeds.2 ⟨by decide, fun c pool hpool => by
    obtain ⟨rfl, rfl⟩ | ⟨rfl, rfl⟩ := hgiven c pool hpool <;> exact ⟨_, _, rfl⟩⟩
  have hordered : ∃ order ordered i, sideBySide.linearize = .ok (.success order ordered) ∧
      order.Stands 2 i ∧ i.uses = [{ register := 1 }, { register := 0 }] :=
    ⟨_, _, _, rfl, ⟨_, List.mem_cons_self, 1, rfl, rfl⟩, rfl⟩
  obtain ⟨order, ordered, i, hordered, hstands, huses⟩ := hordered
  obtain ⟨-, hoperands⟩ := hhoused found messages h
  obtain ⟨hreads, -⟩ := hoperands order ordered hordered 2 i hstands
  have hfloat := (hreads { register := 1 } (by simp [huses])).foundAt
  have hgeneral := (hreads { register := 0 } (by simp [huses])).foundAt
  refine ⟨pairs, rfl, found, messages, h, ?_, ?_, ?_, ?_⟩
  · exact (hgeneral "general").2 (by decide)
  · exact fun hfound => absurd ((hgeneral "float").1 hfound) (by decide)
  · exact (hfloat "float").2 (by decide)
  · exact fun hfound => absurd ((hfloat "general").1 hfound) (by decide)

/-- A value of a class that has no pool but a name that every table knows. -/
def unreported : Graph := Graph.run {} [
  .createRegister { regClass := some "toString" }, .addBlock,
  .addInstruction (0 : Nat) { opcode := "a", defs := [{ register := (0 : Nat) }] }]

/-- Class-wise allocation can succeed and leave an operand without a home. -/
theorem operand_homeless_unreported : unreported.Built ∧
    Pools.given? [("general", ["r0"])] "toString" = none ∧ ∃ found messages order ordered i,
      unreported.allocateByClass (.ofPairs [("general", ["r0"])]) true =
        .ok (.success found messages) ∧
      unreported.linearize = .ok (.success order ordered) ∧ order.Stands 0 i ∧
      ∃ d ∈ i.defs, ∀ c, ¬ FoundAt found d.register 1 c := by
  have hran : ∃ found messages order ordered i,
      unreported.allocateByClass (.ofPairs [("general", ["r0"])]) true =
        .ok (.success found messages) ∧
      unreported.linearize = .ok (.success order ordered) ∧ order.Stands 0 i ∧
      i.defs = [{ register := 0 }] ∧ found.map (fun entry => entry.2.locate? 0 1) = [none] :=
    ⟨_, _, _, _, _, rfl, rfl, ⟨_, List.mem_cons_self, 0, rfl, rfl⟩, rfl, rfl⟩
  obtain ⟨found, messages, order, ordered, i, h, hordered, hstands, hdefs, hnone⟩ := hran
  refine ⟨⟨_, rfl⟩, rfl, found, messages, order, ordered, i, h, hordered, hstands,
    { register := 0 }, by simp [hdefs], ?_⟩
  rintro c ⟨a, ha, l, hl⟩
  have hmem := List.mem_map_of_mem (f := fun entry => entry.2.locate? 0 1) ha
  rw [hnone, List.mem_singleton, hl] at hmem
  cases hmem

end RegAlloc
