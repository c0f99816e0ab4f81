import RegAlloc.Graph.Builder
import RegAlloc.Proofs.Action

/-!
# Graphs stay well formed

Whatever commands a graph is built by, successful or refused, its edges are recorded at
both ends and once each, they join existing blocks, and its instructions name declared
registers.

- `Graph.Built` — a graph that some commands build;
- `Graph.HasEdge` — control flow from one block to another;
- `Graph.WellFormed` — what holds of such a graph;
- `Change.createRegister_on` and its like — what each command asks first, and what it changes;
- `Graph.WellFormed.apply` — every command keeps it so;
- `Graph.Built.wellFormed` — every graph that is built is well formed;
- `Graph.Built.indexed` — its instructions are numbered by their places.
-/

namespace RegAlloc

namespace Graph

/-- A graph that is built by some sequence of commands. -/
def Built (g : Graph) : Prop := ∃ commands, g = Graph.run {} commands

/-- Control flow from one block to another. -/
def HasEdge (g : Graph) (u v : BlockId) : Prop := v ∈ g.successors u

instance (g : Graph) (u v : BlockId) : Decidable (g.HasEdge u v) :=
  inferInstanceAs (Decidable (v ∈ g.successors u))

/-- A graph whose parts fit together. -/
structure WellFormed (g : Graph) : Prop where
  mirrored : ∀ u v, v ∈ g.successors u ↔ u ∈ g.predecessors v
  distinct : ∀ u, (g.successors u).Nodup
  distinctSources : ∀ v, (g.predecessors v).Nodup
  target_lt : ∀ u v, v ∈ g.successors u → v < g.blocks.length
  declared : ∀ b, ∀ i ∈ g.instructions b, ∀ r, i.mentions r = true →
    ∃ k : Nat, r = k ∧ k < g.registers.length
  entry_lt : ∀ b, g.entry = some b → b < g.blocks.length

/-- Only an existing block has successors. -/
theorem source_lt {g : Graph} {u v : BlockId} (h : v ∈ g.successors u) : u < g.blocks.length := by
  rw [successors] at h
  exact Decidable.byContradiction fun hge => by
    simp [List.getElem?_eq_none (Nat.le_of_not_lt hge)] at h

/-- Only an existing block has instructions. -/
theorem lt_of_mem_instructions {g : Graph} {b : BlockId} {i : Instruction}
    (h : i ∈ g.instructions b) : b < g.blocks.length := by
  rw [instructions] at h
  exact Decidable.byContradiction fun hge => by
    simp [List.getElem?_eq_none (Nat.le_of_not_lt hge)] at h

/-- A register is mentioned exactly when an instruction of a block mentions it. -/
theorem mentions_iff {g : Graph} {r : VReg} :
    g.mentions r = true ↔ ∃ b, ∃ i ∈ g.instructions b, i.mentions r = true := by
  simp only [mentions, List.any_eq_true]
  constructor
  · rintro ⟨block, hblock, i, hi, hr⟩
    obtain ⟨b, hb, rfl⟩ := List.mem_iff_getElem.1 hblock
    exact ⟨b, i, by simpa [instructions, List.getElem?_eq_getElem hb] using hi, hr⟩
  · rintro ⟨b, i, hi, hr⟩
    have hb := lt_of_mem_instructions hi
    simp only [instructions, List.getElem?_eq_getElem hb, Option.map_some, Option.getD_some] at hi
    exact ⟨_, List.getElem_mem hb, i, hi, hr⟩

/-! ## What a change of one block does -/

/-- Reading a part of a block, after one block was changed. -/
theorem part_modify {α : Type} (part : Block → List α) (blocks : List Block) (u v : BlockId)
    (f : Block → Block) :
    (((blocks.modify u f)[v]?.map part).getD []) =
      if u = v then ((blocks[v]?.map fun b => part (f b)).getD []) else
        ((blocks[v]?.map part).getD []) := by
  rw [List.getElem?_modify]
  split <;> simp_all [Function.comp_def]

/-- Reading a part of a block, after an empty block was added. -/
theorem part_append {α : Type} (part : Block → List α) {blocks : List Block} {new : Block}
    (hnew : part new = []) (v : BlockId) :
    (((blocks ++ [new])[v]?.map part).getD []) = ((blocks[v]?.map part).getD []) := by
  by_cases hlt : v < blocks.length
  · rw [List.getElem?_append_left hlt]
  · have hold : blocks[v]? = none := List.getElem?_eq_none (Nat.le_of_not_lt hlt)
    rw [List.getElem?_append_right (Nat.le_of_not_lt hlt), hold]
    cases v - blocks.length <;> simp [hnew]

theorem mem_successors_link {g : Graph} {u v x y : BlockId} (hu : u < g.blocks.length) :
    y ∈ (g.link u v).successors x ↔ y ∈ g.successors x ∨ (x = u ∧ y = v) := by
  simp only [link, successors, part_modify, ite_self]
  by_cases hx : u = x
  · subst hx
    simp [List.getElem?_eq_getElem hu, eq_comm]
  · simp [hx, Ne.symm hx]

theorem mem_predecessors_link {g : Graph} {u v x y : BlockId} (hv : v < g.blocks.length) :
    x ∈ (g.link u v).predecessors y ↔ x ∈ g.predecessors y ∨ (x = u ∧ y = v) := by
  simp only [link, predecessors, part_modify, ite_self]
  by_cases hy : v = y
  · subst hy
    simp [List.getElem?_eq_getElem hv]
  · simp [hy, Ne.symm hy]

/-- The successors of the source of a new edge get one more. -/
theorem nodup_successors_link {g : Graph} {u v : BlockId} (hu : u < g.blocks.length)
    (hnew : v ∉ g.successors u) (hdistinct : ∀ x, (g.successors x).Nodup) (x : BlockId) :
    ((g.link u v).successors x).Nodup := by
  have hx := hdistinct x
  simp only [link, successors, part_modify, ite_self] at hx ⊢
  split
  · next heq =>
    subst heq
    rw [successors, List.getElem?_eq_getElem hu, Option.map_some, Option.getD_some] at hnew
    rw [List.getElem?_eq_getElem hu, Option.map_some, Option.getD_some] at hx ⊢
    refine List.nodup_append.2 ⟨hx, by simp, fun y hy z hz => ?_⟩
    cases List.mem_singleton.1 hz
    exact fun heq => hnew (heq ▸ hy)
  · exact hx

/-- The predecessors of the target of a new edge get one more. -/
theorem nodup_predecessors_link {g : Graph} {u v : BlockId} (hv : v < g.blocks.length)
    (hnew : u ∉ g.predecessors v) (hdistinct : ∀ x, (g.predecessors x).Nodup) (x : BlockId) :
    ((g.link u v).predecessors x).Nodup := by
  have hx := hdistinct x
  simp only [link, predecessors, part_modify, ite_self] at hx ⊢
  split
  · next heq =>
    subst heq
    rw [predecessors, List.getElem?_eq_getElem hv, Option.map_some, Option.getD_some] at hnew
    rw [List.getElem?_eq_getElem hv, Option.map_some, Option.getD_some] at hx ⊢
    refine List.nodup_append.2 ⟨hx, by simp, fun y hy z hz => ?_⟩
    cases List.mem_singleton.1 hz
    exact fun heq => hnew (heq ▸ hy)
  · exact hx

end Graph

/-! ## Commands -/

namespace Change

variable (g : Graph)

theorem createRegister_on (spec : RegisterSpec) : (createRegister spec).on g = (do
    g.checkOpen "createRegister"
    let id : Nat := g.registers.length
    let register : Register :=
      { id, name := spec.name.getD s!"v{id}", regClass := spec.regClass.getD Graph.defaultClass }
    return ({ g with registers := g.registers ++ [register] }, (id : VReg))) :=
  Action.on_ask _ _ g

theorem addBlock_on : addBlock.on g = (do
    g.checkOpen "addBlock"
    return ({ g with blocks := g.blocks ++ [{ id := g.blocks.length }] }, g.blocks.length)) :=
  Action.on_ask _ _ g

theorem addInstruction_on (block : Ref) (spec : InstructionSpec) :
    (addInstruction block spec).on g = (do
      g.checkOpen "addInstruction"
      let b ← g.resolveBlock block
      let index := (g.instructions b).length
      let uses ← spec.uses.mapM fun use => do
        let register ← g.resolveOperand b index use.register
        return { register, policy := use.policy, kill := use.kill : Use }
      let defs ← spec.defs.mapM fun target => do
        let register ← g.resolveOperand b index target.register
        return { register, policy := target.policy : Def }
      let instruction : Instruction := { index, block := b, opcode := spec.opcode, uses, defs }
      let append (owner : Block) : Block :=
        { owner with instructions := owner.instructions ++ [instruction] }
      return ({ g with blocks := g.blocks.modify b append }, instruction)) := by
  refine (Action.on_ask _ _ g).trans (bind_congr fun _ => ?_)
  refine (Action.on_ask _ _ g).trans (bind_congr fun b => ?_)
  refine (Action.on_ask _ _ g).trans ?_
  refine (Action.on_ask _ _ g).trans (bind_congr fun uses => ?_)
  exact Action.on_ask _ _ g

theorem addEdge_on (source target : Ref) : (addEdge source target).on g = (do
    g.checkOpen "addEdge"
    let u ← g.resolveBlock source
    let v ← g.resolveBlock target
    return (if v ∈ g.successors u then g else g.link u v, ())) := by
  refine (Action.on_ask _ _ g).trans (bind_congr fun _ => ?_)
  refine (Action.on_ask _ _ g).trans (bind_congr fun u => ?_)
  exact Action.on_ask _ _ g

theorem setEntry_on (block : Ref) : (setEntry block).on g = (do
    g.checkOpen "setEntry"
    let b ← g.resolveBlock block
    return ({ g with chosenEntry := some b }, ())) := by
  refine (Action.on_ask _ _ g).trans (bind_congr fun _ => ?_)
  exact Action.on_ask _ _ g

end Change

namespace Graph

/-- Resolving a block finds one that exists. -/
theorem resolveBlock_ensures (g : Graph) (block : Ref) :
    Ensures (g.resolveBlock block) (· < g.blocks.length) fun _ => True := by
  rw [resolveBlock]
  split
  · split
    · assumption
    · trivial
  · trivial

/-- An operand that is resolved is a declared register. -/
theorem resolveOperand_ensures (g : Graph) (b : BlockId) (index : Nat) (register : Ref) :
    Ensures (g.resolveOperand b index register)
      (fun r => ∃ k : Nat, r = k ∧ k < g.registers.length) fun _ => True := by
  rw [resolveOperand]
  split
  · split
    · exact ⟨_, rfl, by assumption⟩
    · trivial
  · trivial

theorem checkOpen_ensures (g : Graph) (command : String) :
    Ensures (g.checkOpen command) (fun _ => True) fun _ => True := by
  rw [checkOpen]
  split <;> trivial

namespace WellFormed

variable {g : Graph}

theorem empty : WellFormed {} where
  mirrored u v := by simp [successors, predecessors]
  distinct u := by simp [successors]
  distinctSources v := by simp [predecessors]
  target_lt u v h := by simp [successors] at h
  declared b i hi := by simp [instructions] at hi
  entry_lt b h := by simp [entry] at h

theorem createRegister (h : g.WellFormed) (spec : RegisterSpec) :
    Ensures ((Change.createRegister spec).on g) (fun answer => answer.1.WellFormed)
      fun _ => True := by
  rw [Change.createRegister_on]
  refine (checkOpen_ensures g _).bind fun _ _ => ?_
  refine ⟨h.mirrored, h.distinct, h.distinctSources, h.target_lt, fun b i hi r hr => ?_, h.entry_lt⟩
  obtain ⟨k, hk, hlt⟩ := h.declared b i hi r hr
  exact ⟨k, hk, by simp; omega⟩

theorem addBlock (h : g.WellFormed) :
    Ensures (Change.addBlock.on g) (fun answer => answer.1.WellFormed) fun _ => True := by
  rw [Change.addBlock_on]
  refine (checkOpen_ensures g _).bind fun _ _ => ?_
  -- the new block has no edges and no code, so every list is as before
  refine ⟨fun u v => ?_, fun u => ?_, fun v => ?_, fun u v huv => ?_, fun b i hi => ?_,
    fun b hb => ?_⟩
  · simp only [successors, predecessors]
    rw [part_append _ rfl, part_append _ rfl]
    exact h.mirrored u v
  · rw [successors, part_append _ rfl]
    exact h.distinct u
  · rw [predecessors, part_append _ rfl]
    exact h.distinctSources v
  · rw [successors, part_append _ rfl] at huv
    have := h.target_lt u v huv
    rw [List.length_append]
    lia
  · rw [instructions, part_append _ rfl] at hi
    exact h.declared b i hi
  · have := h.entry_lt b
    simp only [entry] at hb this
    simp only [List.length_append, List.length_singleton]
    grind

theorem addInstruction (h : g.WellFormed) (block : Ref) (spec : InstructionSpec) :
    Ensures ((Change.addInstruction block spec).on g) (fun answer => answer.1.WellFormed)
      fun _ => True := by
  rw [Change.addInstruction_on]
  refine (checkOpen_ensures g _).bind fun _ _ => ?_
  refine (resolveBlock_ensures g block).bind fun b hb => ?_
  -- every operand that is resolved is a declared register
  refine Ensures.bind (Ensures.mapM (P := fun use : Use =>
    ∃ k : Nat, use.register = k ∧ k < g.registers.length) fun use _ => ?_) fun uses huses => ?_
  · exact (resolveOperand_ensures ..).bind fun _ hr => hr
  refine Ensures.bind (Ensures.mapM (P := fun target : Def =>
    ∃ k : Nat, target.register = k ∧ k < g.registers.length) fun target _ => ?_)
    fun defs hdefs => ?_
  · exact (resolveOperand_ensures ..).bind fun _ hr => hr
  refine ⟨fun u v => ?_, fun u => ?_, fun v => ?_, fun u v huv => ?_, fun c i hi r hr => ?_,
    fun c hc => ?_⟩
  · simp only [successors, predecessors, part_modify, ite_self]
    exact h.mirrored u v
  · simp only [successors, part_modify, ite_self]
    exact h.distinct u
  · simp only [predecessors, part_modify, ite_self]
    exact h.distinctSources v
  · simp only [successors, part_modify, ite_self] at huv
    simpa using h.target_lt u v huv
  · simp only [instructions, part_modify] at hi
    -- only the block that is named gets the instruction
    by_cases hbc : b = c
    · subst hbc
      simp only [if_true, List.getElem?_eq_getElem hb, Option.map_some, Option.getD_some,
        List.mem_append, List.mem_singleton] at hi
      rcases hi with hi | rfl
      · exact h.declared b i (by simpa [instructions, List.getElem?_eq_getElem hb] using hi) r hr
      · simp only [Instruction.mentions, Instruction.reads, Instruction.writes, Bool.or_eq_true,
          List.any_eq_true, beq_iff_eq] at hr
        rcases hr with ⟨use, huse, rfl⟩ | ⟨target, htarget, rfl⟩
        · exact huses use huse
        · exact hdefs target htarget
    · rw [if_neg hbc] at hi
      exact h.declared c i hi r hr
  · have := h.entry_lt c
    simp only [entry, List.isEmpty_iff, List.length_modify] at hc this ⊢
    grind

theorem link (h : g.WellFormed) {u v : BlockId} (hu : u < g.blocks.length)
    (hv : v < g.blocks.length) (hnew : v ∉ g.successors u) : (g.link u v).WellFormed := by
  -- the edge is new on both sides
  have hnew' : u ∉ g.predecessors v := fun hu => hnew ((h.mirrored u v).2 hu)
  refine ⟨fun x y => ?_, nodup_successors_link hu hnew h.distinct,
    nodup_predecessors_link hv hnew' h.distinctSources, fun x y hxy => ?_, fun b i hi => ?_,
    fun b hb => ?_⟩
  · rw [mem_successors_link hu, mem_predecessors_link hv, h.mirrored]
  · have : (g.link u v).blocks.length = g.blocks.length := by simp [Graph.link]
    rw [this]
    rcases (mem_successors_link hu).1 hxy with hxy | ⟨-, rfl⟩
    · exact h.target_lt x y hxy
    · exact hv
  · simp only [instructions, Graph.link, part_modify, ite_self] at hi
    exact h.declared b i hi
  · have := h.entry_lt b
    simp only [entry, Graph.link, List.isEmpty_iff, List.length_modify] at hb this ⊢
    grind

theorem addEdge (h : g.WellFormed) (source target : Ref) :
    Ensures ((Change.addEdge source target).on g) (fun answer => answer.1.WellFormed)
      fun _ => True := by
  rw [Change.addEdge_on]
  refine (checkOpen_ensures g _).bind fun _ _ => ?_
  refine (resolveBlock_ensures g source).bind fun u hu => ?_
  refine (resolveBlock_ensures g target).bind fun v hv => ?_
  change WellFormed (if _ then g else g.link u v)
  split
  · exact h
  · next hnew => exact h.link hu hv hnew

theorem setEntry (h : g.WellFormed) (block : Ref) :
    Ensures ((Change.setEntry block).on g) (fun answer => answer.1.WellFormed)
      fun _ => True := by
  rw [Change.setEntry_on]
  refine (checkOpen_ensures g _).bind fun _ _ => ?_
  refine (resolveBlock_ensures g block).bind fun b hb => ?_
  refine ⟨h.mirrored, h.distinct, h.distinctSources, h.target_lt, h.declared, fun c hc => ?_⟩
  cases hc
  exact hb

theorem freeze (h : g.WellFormed) : g.freeze.WellFormed :=
  ⟨h.mirrored, h.distinct, h.distinctSources, h.target_lt, h.declared, h.entry_lt⟩

/-- Every command keeps a graph well formed. -/
theorem apply (h : g.WellFormed) (command : Command) :
    Ensures (g.apply command) (fun answer => answer.1.WellFormed) fun _ => True := by
  cases command with
  | createRegister spec => exact Action.ensures_map (h.createRegister spec) Reply.id
  | addBlock => exact Action.ensures_map h.addBlock fun b : BlockId => Reply.id b
  | addInstruction block spec =>
    exact Action.ensures_map (h.addInstruction block spec) Reply.instruction
  | addEdge source target => exact Action.ensures_map (h.addEdge source target) fun _ => Reply.done
  | setEntry block => exact Action.ensures_map (h.setEntry block) fun _ => Reply.done
  | freeze => exact h.freeze

end WellFormed

/-! ## Graphs that are built -/

/-- A command looks up everything that it names before it changes anything. -/
theorem Command.careful_perform (command : Command) : Action.Careful command.perform := by
  -- the changes themselves are never refused
  have hchange : ∀ {α : Type} (f : Graph → Graph) (a : α),
      Action.Careful (do modify f; return a : Change α) := by
    rintro α f a g e left ⟨⟩
  cases command with
  | createRegister spec =>
    refine Action.Careful.map (Action.Careful.ask fun _ => ?_) Reply.id
    rintro g e left ⟨⟩
  | addBlock =>
    refine Action.Careful.map (Action.Careful.ask fun _ => ?_)
      fun b : BlockId => Reply.id b
    rintro g e left ⟨⟩
  | addInstruction block spec =>
    refine Action.Careful.map ?_ Reply.instruction
    refine Action.Careful.ask fun _ => ?_
    refine Action.Careful.ask fun b => ?_
    refine Action.Careful.ask fun index => ?_
    refine Action.Careful.ask fun uses => ?_
    exact Action.Careful.ask fun defs => hchange _ _
  | addEdge source target =>
    refine Action.Careful.map ?_ fun _ => Reply.done
    refine Action.Careful.ask fun _ => ?_
    refine Action.Careful.ask fun u => ?_
    refine Action.Careful.ask fun v => ?_
    rintro g e left ⟨⟩
  | setEntry block =>
    refine Action.Careful.map ?_ fun _ => Reply.done
    refine Action.Careful.ask fun _ => ?_
    refine Action.Careful.ask fun b => ?_
    rintro g e left ⟨⟩
  | freeze => exact hchange _ _

theorem after_of_error {g : Graph} {command : Command} {e : GraphError}
    (h : g.apply command = .error e) : g.after command = g :=
  command.careful_perform.leaves_eq h

theorem after_of_ok {g next : Graph} {command : Command} {reply : Reply}
    (h : g.apply command = .ok (next, reply)) : g.after command = next :=
  Action.leaves_of_on h

/-- What holds of the empty graph and is kept by every command, holds of every graph that is
built. -/
theorem Built.induction {P : Graph → Prop} (hempty : P {})
    (happly : ∀ g command, P g → Ensures (g.apply command) (fun answer => P answer.1) fun _ => True)
    {g : Graph} (h : g.Built) : P g := by
  obtain ⟨commands, rfl⟩ := h
  refine List.foldlRecOn (motive := P) commands Graph.after hempty fun g hg command _ => ?_
  have hkept := happly g command hg
  cases happlied : g.apply command with
  | ok answer =>
    rw [after_of_ok happlied]
    exact hkept.of_eq_ok happlied
  | error e =>
    rw [after_of_error happlied]
    exact hg

/-- Every graph that is built is well formed. -/
theorem Built.wellFormed {g : Graph} (h : g.Built) : g.WellFormed :=
  h.induction WellFormed.empty fun _ command hg => hg.apply command

/-- Every instruction is numbered by its place in its block. -/
def Indexed (g : Graph) : Prop :=
  ∀ (b : BlockId) (k : Nat) (i : Instruction),
    (g.instructions b)[k]? = some i → i.index = k ∧ i.block = b

/-- Every command numbers what it adds. -/
theorem Indexed.apply {g : Graph} (h : g.Indexed) (command : Command) :
    Ensures (g.apply command) (fun answer => answer.1.Indexed) fun _ => True := by
  cases command with
  | createRegister spec =>
    -- registers have no part in it
    refine Action.ensures_map ?_ Reply.id
    rw [Change.createRegister_on]
    exact (checkOpen_ensures g _).bind fun _ _ => h
  | addBlock =>
    refine Action.ensures_map ?_ fun b : BlockId => Reply.id b
    rw [Change.addBlock_on]
    refine (checkOpen_ensures g _).bind fun _ _ => ?_
    intro b k i hi
    rw [instructions, part_append _ rfl] at hi
    exact h b k i hi
  | addInstruction block spec =>
    refine Action.ensures_map ?_ Reply.instruction
    rw [Change.addInstruction_on]
    refine (checkOpen_ensures g _).bind fun _ _ => ?_
    refine (resolveBlock_ensures g block).bind fun b hb => ?_
    refine Ensures.bind (Ensures.mapM (P := fun _ : Use => True) fun use _ => ?_) fun uses _ => ?_
    · exact (resolveOperand_ensures ..).bind fun _ _ => trivial
    refine Ensures.bind (Ensures.mapM (P := fun _ : Def => True) fun d _ => ?_) fun defs _ => ?_
    · exact (resolveOperand_ensures ..).bind fun _ _ => trivial
    intro c k i hi
    simp only [instructions, part_modify] at hi
    -- only the block that is named gets the instruction
    by_cases hbc : b = c
    · subst hbc
      simp only [if_true, List.getElem?_eq_getElem hb, Option.map_some, Option.getD_some] at hi
      have hcode : g.instructions b = (g.blocks[b]).instructions := by
        simp [instructions, List.getElem?_eq_getElem hb]
      rw [← hcode, List.getElem?_append] at hi
      split at hi
      · exact h b k i hi
      · -- the new instruction stands behind the others
        next hge =>
        rw [List.getElem?_singleton] at hi
        split at hi
        · cases hi
          refine ⟨?_, rfl⟩
          show (g.instructions b).length = k
          omega
        · cases hi
    · rw [if_neg hbc] at hi
      exact h c k i hi
  | addEdge source target =>
    refine Action.ensures_map ?_ fun _ => Reply.done
    rw [Change.addEdge_on]
    refine (checkOpen_ensures g _).bind fun _ _ => ?_
    refine (resolveBlock_ensures g source).bind fun u _ => ?_
    refine (resolveBlock_ensures g target).bind fun v _ => ?_
    -- an edge, old or new, changes no instruction
    show Indexed (if _ then g else g.link u v)
    split
    · exact h
    · intro b k i hi
      simp only [instructions, link, part_modify, ite_self] at hi
      exact h b k i hi
  | setEntry block =>
    refine Action.ensures_map ?_ fun _ => Reply.done
    rw [Change.setEntry_on]
    refine (checkOpen_ensures g _).bind fun _ _ => ?_
    exact (resolveBlock_ensures g block).bind fun _ _ => h
  | freeze => exact h

/-- The instructions of a graph that is built are numbered by their places. -/
theorem Built.indexed {g : Graph} (h : g.Built) : g.Indexed :=
  h.induction (fun b k i hi => by simp [instructions] at hi) fun _ command hg => hg.apply command

end Graph

end RegAlloc
