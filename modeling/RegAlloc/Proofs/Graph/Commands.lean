import RegAlloc.Proofs.Graph

/-!
# What commands do to a graph

A command other than freezing is refused exactly if the graph is frozen or if it names a
block or a register that is not there. A refused command changes nothing; any other changes
one thing, which `Graph.Effect` says command by command. Whatever holds of the empty graph
and is kept by these few changes holds after every sequence of commands.

- `Graph.HasBlock`, `Graph.HasRegister`, `Command.Unknown` — what a command may name;
- `Graph.Effect` — the change that a command makes;
- `Graph.apply_iff` — a command that is not refused makes that change and no other;
- `Graph.apply_refused_iff` — the commands that are refused;
- `Graph.Consistent` — ids, edges, operands and the entry fit together;
- `commands_keep_consistent` — all of it, after any commands.
-/

namespace RegAlloc

/-! ## Instructions as they are asked for -/

def Use.spec (u : Use) : UseSpec := { register := u.register, policy := u.policy, kill := u.kill }

def Def.spec (d : Def) : DefSpec := { register := d.register, policy := d.policy }

/-- What was asked for when an instruction was added. -/
def Instruction.spec (i : Instruction) : InstructionSpec :=
  { opcode := i.opcode, uses := i.uses.map Use.spec, defs := i.defs.map Def.spec }

namespace Graph

/-- A number that is the id of a block. -/
def HasBlock (g : Graph) (ref : Ref) : Prop := ∃ b : Nat, ref = (b : Ref) ∧ b < g.blocks.length

/-- A number that is the id of a declared register. -/
def HasRegister (g : Graph) (ref : Ref) : Prop :=
  ∃ k : Nat, ref = (k : Ref) ∧ k < g.registers.length

namespace Command

/-- The numbers by which a command names blocks. -/
def blocks : Command → List Ref
  | .addInstruction block _ => [block]
  | .addEdge source target => [source, target]
  | .setEntry block => [block]
  | _ => []

/-- The numbers by which a command names registers. -/
def registers : Command → List Ref
  | .addInstruction _ spec => spec.uses.map (·.register) ++ spec.defs.map (·.register)
  | _ => []

/-- A command names a block or a register that is not there. -/
def Unknown (command : Command) (g : Graph) : Prop :=
  (∃ ref ∈ command.blocks, ¬ g.HasBlock ref) ∨ ∃ ref ∈ command.registers, ¬ g.HasRegister ref

end Command

/-! ## One command -/

/-- The graph with one more instruction at the end of a block. -/
def extend (g : Graph) (b : BlockId) (i : Instruction) : Graph :=
  { g with
    blocks := g.blocks.modify b fun owner =>
      { owner with instructions := owner.instructions ++ [i] } }

/-- The change that a command makes to a graph in which everything it names is there. -/
inductive Effect (g : Graph) : Command → Graph → Prop where
  | createRegister (spec : RegisterSpec) :
    Effect g (.createRegister spec)
      { g with
        registers := g.registers ++ [
          { id := g.registers.length
            name := spec.name.getD s!"v{g.registers.length}"
            regClass := spec.regClass.getD defaultClass }] }
  | addBlock : Effect g .addBlock { g with blocks := g.blocks ++ [{ id := g.blocks.length }] }
  | addInstruction (i : Instruction) (hblock : i.block < g.blocks.length)
    (hindex : i.index = (g.instructions i.block).length)
    (huses : ∀ u ∈ i.uses, g.HasRegister u.register)
    (hdefs : ∀ d ∈ i.defs, g.HasRegister d.register) :
    Effect g (.addInstruction (i.block : Ref) i.spec) (g.extend i.block i)
  /-- An edge that is there already is not recorded again. -/
  | keepEdge (u v : BlockId) (hu : u < g.blocks.length) (hv : v < g.blocks.length)
    (hold : v ∈ g.successors u) : Effect g (.addEdge (u : Ref) (v : Ref)) g
  | addEdge (u v : BlockId) (hu : u < g.blocks.length) (hv : v < g.blocks.length)
    (hnew : v ∉ g.successors u) : Effect g (.addEdge (u : Ref) (v : Ref)) (g.link u v)
  | setEntry (b : BlockId) (hb : b < g.blocks.length) :
    Effect g (.setEntry (b : Ref)) { g with chosenEntry := some b }
  | freeze : Effect g .freeze g.freeze

variable {g next : Graph} {command : Command}

theorem checkOpen_bind_eq_ok {α : Type} {name : String} {f : Unit → Except GraphError α} {a : α} :
    (g.checkOpen name >>= f) = .ok a ↔ g.frozen = false ∧ f () = .ok a := by
  unfold checkOpen
  cases g.frozen with
  | true => simp [bind, Except.bind]
  | false => simp [bind, Except.bind]

theorem resolveBlock_eq_ok {ref : Ref} {b : BlockId} :
    g.resolveBlock ref = .ok b ↔ ref = (b : Ref) ∧ b < g.blocks.length := by
  rw [← Ref.index?_eq_some_iff]
  unfold resolveBlock
  cases ref.index? with
  | none => simp
  | some c =>
    by_cases hc : c < g.blocks.length
    · simp only [hc, if_true, Except.ok.injEq, Option.some.injEq]
      exact ⟨fun h => ⟨h, h ▸ hc⟩, And.left⟩
    · simp only [hc, if_false, Option.some.injEq, reduceCtorEq, false_iff, not_and]
      exact fun h => h ▸ hc

theorem resolveOperand_eq_ok {b : BlockId} {index : Nat} {ref : Ref} {r : VReg} :
    g.resolveOperand b index ref = .ok r ↔ ref = (r : Ref) ∧ g.HasRegister r := by
  unfold resolveOperand
  constructor
  · intro h
    -- a reference is accepted if it is an index of a declared register
    split at h
    · next k hk =>
      split at h
      · next hlt =>
        cases h
        exact ⟨Ref.index?_eq_some_iff.1 hk, k, rfl, hlt⟩
      · cases h
    · cases h
  · rintro ⟨rfl, k, hk, hlt⟩
    rw [hk, Ref.index?_natCast]
    simp only [hlt, if_true]
    cases hk
    rfl

theorem resolveUse_eq_ok {b : BlockId} {index : Nat} (use : UseSpec) (u : Use) :
    (do
      let register ← g.resolveOperand b index use.register
      return { register, policy := use.policy, kill := use.kill : Use }) = .ok u ↔
      use = u.spec ∧ g.HasRegister u.register := by
  simp only [bind_eq_ok, resolveOperand_eq_ok]
  obtain ⟨register, policy, kill⟩ := use
  constructor
  · rintro ⟨r, ⟨rfl, hr⟩, ⟨⟩⟩
    exact ⟨rfl, hr⟩
  · rintro ⟨⟨⟩, hr⟩
    exact ⟨u.register, ⟨rfl, hr⟩, rfl⟩

theorem resolveDef_eq_ok {b : BlockId} {index : Nat} (target : DefSpec) (d : Def) :
    (do
      let register ← g.resolveOperand b index target.register
      return { register, policy := target.policy : Def }) = .ok d ↔
      target = d.spec ∧ g.HasRegister d.register := by
  simp only [bind_eq_ok, resolveOperand_eq_ok]
  obtain ⟨register, policy⟩ := target
  constructor
  · rintro ⟨r, ⟨rfl, hr⟩, ⟨⟩⟩
    exact ⟨rfl, hr⟩
  · rintro ⟨⟨⟩, hr⟩
    exact ⟨d.register, ⟨rfl, hr⟩, rfl⟩

theorem createRegister_iff {spec : RegisterSpec} :
    (∃ r, (Change.createRegister spec).on g = .ok (next, r)) ↔
      g.frozen = false ∧ g.Effect (.createRegister spec) next := by
  simp only [Change.createRegister_on, checkOpen_bind_eq_ok]
  constructor
  · rintro ⟨_, hopen, ⟨⟩⟩
    exact ⟨hopen, .createRegister spec⟩
  · rintro ⟨hopen, ⟨⟩⟩
    exact ⟨_, hopen, rfl⟩

theorem addBlock_iff :
    (∃ b, Change.addBlock.on g = .ok (next, b)) ↔ g.frozen = false ∧ g.Effect .addBlock next := by
  simp only [Change.addBlock_on, checkOpen_bind_eq_ok]
  constructor
  · rintro ⟨_, hopen, ⟨⟩⟩
    exact ⟨hopen, .addBlock⟩
  · rintro ⟨hopen, ⟨⟩⟩
    exact ⟨_, hopen, rfl⟩

theorem addInstruction_iff {block : Ref} {spec : InstructionSpec} :
    (∃ i, (Change.addInstruction block spec).on g = .ok (next, i)) ↔
      g.frozen = false ∧ g.Effect (.addInstruction block spec) next := by
  simp only [Change.addInstruction_on, checkOpen_bind_eq_ok, bind_eq_ok (α := BlockId),
    resolveBlock_eq_ok, bind_eq_ok (α := List Use), bind_eq_ok (α := List Def),
    mapM_eq_ok_iff resolveUse_eq_ok, mapM_eq_ok_iff resolveDef_eq_ok]
  constructor
  -- the command is accepted, and each lookup tells what it has found
  · rintro ⟨_, hopen, b, ⟨rfl, hb⟩, uses, huses, defs, hdefs, ⟨⟩⟩
    obtain ⟨opcode, _, _⟩ := spec
    obtain ⟨rfl, huses⟩ := huses
    obtain ⟨rfl, hdefs⟩ := hdefs
    exact ⟨hopen, .addInstruction ⟨_, b, opcode, uses, defs⟩ hb rfl huses hdefs⟩
  -- the effect names what each lookup will find
  · rintro ⟨hopen, heffect⟩
    cases heffect with
    | addInstruction i hb hindex huses hdefs =>
    refine ⟨i, hopen, i.block, ⟨rfl, hb⟩, i.uses, ⟨rfl, huses⟩, i.defs, ⟨rfl, hdefs⟩, ?_⟩
    rw [← hindex]
    rfl

theorem addEdge_iff {source target : Ref} :
    (Change.addEdge source target).on g = .ok (next, ()) ↔
      g.frozen = false ∧ g.Effect (.addEdge source target) next := by
  rw [Change.addEdge_on, checkOpen_bind_eq_ok]
  simp only [bind_eq_ok, resolveBlock_eq_ok]
  constructor
  · rintro ⟨hopen, u, ⟨rfl, hu⟩, v, ⟨rfl, hv⟩, ⟨⟩⟩
    refine ⟨hopen, ?_⟩
    split
    · next hold => exact .keepEdge u v hu hv hold
    · next hnew => exact .addEdge u v hu hv hnew
  · rintro ⟨hopen, heffect⟩
    cases heffect with
    | keepEdge u v hu hv hold =>
      exact ⟨hopen, u, ⟨rfl, hu⟩, v, ⟨rfl, hv⟩, by rw [if_pos hold]; rfl⟩
    | addEdge u v hu hv hnew =>
      exact ⟨hopen, u, ⟨rfl, hu⟩, v, ⟨rfl, hv⟩, by rw [if_neg hnew]; rfl⟩

theorem setEntry_iff {block : Ref} :
    (Change.setEntry block).on g = .ok (next, ()) ↔
      g.frozen = false ∧ g.Effect (.setEntry block) next := by
  rw [Change.setEntry_on, checkOpen_bind_eq_ok]
  simp only [bind_eq_ok, resolveBlock_eq_ok]
  constructor
  · rintro ⟨hopen, b, ⟨rfl, hb⟩, ⟨⟩⟩
    exact ⟨hopen, .setEntry b hb⟩
  · rintro ⟨hopen, heffect⟩
    cases heffect with
    | setEntry b hb => exact ⟨hopen, b, ⟨rfl, hb⟩, rfl⟩

theorem exists_reply_iff {α : Type} {x : Change α} (wrap : α → Reply) :
    (∃ reply, (x >>= fun a => pure (wrap a)).on g = Except.ok (next, reply)) ↔
      ∃ a, x.on g = .ok (next, a) := by
  simp only [Action.on_map, bind_eq_ok]
  constructor
  · rintro ⟨_, ⟨_, a⟩, h, ⟨⟩⟩
    exact ⟨a, h⟩
  · rintro ⟨a, h⟩
    exact ⟨_, (next, a), h, rfl⟩

/-- A command that is not refused has its effect, and a command that can have one is refused
only if the graph is frozen. -/
theorem apply_iff : (∃ reply, g.apply command = .ok (next, reply)) ↔
    (command = .freeze ∨ g.frozen = false) ∧ g.Effect command next := by
  cases command with
  | createRegister spec =>
    simp only [reduceCtorEq, false_or]
    exact (exists_reply_iff Reply.id).trans createRegister_iff
  | addBlock =>
    simp only [reduceCtorEq, false_or]
    exact (exists_reply_iff fun b : BlockId => Reply.id b).trans addBlock_iff
  | addInstruction block spec =>
    simp only [reduceCtorEq, false_or]
    exact (exists_reply_iff Reply.instruction).trans addInstruction_iff
  | addEdge source target =>
    simp only [reduceCtorEq, false_or]
    exact (exists_reply_iff fun _ => Reply.done).trans
      ⟨fun ⟨_, happlied⟩ => addEdge_iff.1 happlied, fun heffect => ⟨(), addEdge_iff.2 heffect⟩⟩
  | setEntry block =>
    simp only [reduceCtorEq, false_or]
    exact (exists_reply_iff fun _ => Reply.done).trans
      ⟨fun ⟨_, happlied⟩ => setEntry_iff.1 happlied, fun heffect => ⟨(), setEntry_iff.2 heffect⟩⟩
  | freeze =>
    -- freezing is never refused
    constructor
    · rintro ⟨_, ⟨⟩⟩
      exact ⟨.inl rfl, .freeze⟩
    · rintro ⟨-, ⟨⟩⟩
      exact ⟨_, rfl⟩

/-! ## Refusals -/

/-- A list of images is the image of a list. -/
theorem exists_map_eq {α β : Type} {f : β → α} {P : β → Prop} : ∀ {l : List α},
    (∀ a ∈ l, ∃ b, a = f b ∧ P b) → ∃ bs : List β, l = bs.map f ∧ ∀ b ∈ bs, P b
  | [], _ => ⟨[], rfl, by simp⟩
  | a :: l, h => by
    obtain ⟨b, rfl, hb⟩ := h a (by simp)
    obtain ⟨bs, rfl, hbs⟩ := exists_map_eq fun c hc => h c (List.mem_cons_of_mem _ hc)
    exact ⟨b :: bs, rfl, List.forall_mem_cons.2 ⟨hb, hbs⟩⟩

/-- An instruction can be asked for if its operands are declared. -/
theorem exists_instruction (b : BlockId) {spec : InstructionSpec}
    (huses : ∀ use ∈ spec.uses, g.HasRegister use.register)
    (hdefs : ∀ target ∈ spec.defs, g.HasRegister target.register) :
    ∃ i : Instruction, i.block = b ∧ i.index = (g.instructions b).length ∧ i.spec = spec ∧
      (∀ u ∈ i.uses, g.HasRegister u.register) ∧ ∀ d ∈ i.defs, g.HasRegister d.register := by
  obtain ⟨opcode, useSpecs, defSpecs⟩ := spec
  have hreads : ∀ use ∈ useSpecs, ∃ u : Use, use = u.spec ∧ g.HasRegister u.register := by
    intro use huse
    obtain ⟨k, hk, hlt⟩ := huses use huse
    exact ⟨⟨k, use.policy, use.kill⟩, by rw [Use.spec, ← hk], k, rfl, hlt⟩
  have hwrites : ∀ target ∈ defSpecs, ∃ d : Def, target = d.spec ∧ g.HasRegister d.register := by
    intro target htarget
    obtain ⟨k, hk, hlt⟩ := hdefs target htarget
    exact ⟨⟨k, target.policy⟩, by rw [Def.spec, ← hk], k, rfl, hlt⟩
  obtain ⟨uses, rfl, hread⟩ := exists_map_eq hreads
  obtain ⟨defs, rfl, hwritten⟩ := exists_map_eq hwrites
  exact ⟨⟨_, b, opcode, uses, defs⟩, rfl, rfl, rfl, hread, hwritten⟩

theorem not_unknown_iff : ¬ command.Unknown g ↔
    (∀ ref ∈ command.blocks, g.HasBlock ref) ∧ ∀ ref ∈ command.registers, g.HasRegister ref := by
  simp [Command.Unknown]

/-- A command that has an effect names what is there. -/
theorem Effect.known (h : g.Effect command next) : ¬ command.Unknown g := by
  rw [not_unknown_iff]
  cases h with
  | createRegister spec => simp [Command.blocks, Command.registers]
  | addBlock => simp [Command.blocks, Command.registers]
  | addInstruction i hb hindex huses hdefs =>
    simp only [Command.blocks, Command.registers, Instruction.spec, List.map_map,
      List.forall_mem_append, List.forall_mem_map, List.forall_mem_singleton]
    exact ⟨⟨_, rfl, hb⟩, huses, hdefs⟩
  | keepEdge u v hu hv hold =>
    simp only [Command.blocks, List.forall_mem_cons]
    exact ⟨⟨⟨u, rfl, hu⟩, ⟨v, rfl, hv⟩, by simp⟩, by simp [Command.registers]⟩
  | addEdge u v hu hv hnew =>
    simp only [Command.blocks, List.forall_mem_cons]
    exact ⟨⟨⟨u, rfl, hu⟩, ⟨v, rfl, hv⟩, by simp⟩, by simp [Command.registers]⟩
  | setEntry b hb =>
    simp only [Command.blocks, List.forall_mem_singleton]
    exact ⟨⟨b, rfl, hb⟩, by simp [Command.registers]⟩
  | freeze => simp [Command.blocks, Command.registers]

/-- A command that names only what is there can have its effect. -/
theorem exists_effect (h : ¬ command.Unknown g) : ∃ next, g.Effect command next := by
  obtain ⟨hblocks, hregisters⟩ := not_unknown_iff.1 h
  cases command with
  | createRegister spec => exact ⟨_, .createRegister spec⟩
  | addBlock => exact ⟨_, .addBlock⟩
  | addInstruction block spec =>
    -- everything that the command mentions is there, so there is something to refer to
    obtain ⟨b, rfl, hb⟩ := hblocks block (by simp [Command.blocks])
    simp only [Command.registers, List.forall_mem_append, List.forall_mem_map] at hregisters
    obtain ⟨i, rfl, hindex, rfl, huses, hdefs⟩ := exists_instruction b hregisters.1 hregisters.2
    exact ⟨_, .addInstruction i hb hindex huses hdefs⟩
  | addEdge source target =>
    obtain ⟨u, rfl, hu⟩ := hblocks source (by simp [Command.blocks])
    obtain ⟨v, rfl, hv⟩ := hblocks target (by simp [Command.blocks])
    -- an edge that is there is kept, not added again
    by_cases hold : v ∈ g.successors u
    · exact ⟨_, .keepEdge u v hu hv hold⟩
    · exact ⟨_, .addEdge u v hu hv hold⟩
  | setEntry block =>
    obtain ⟨b, rfl, hb⟩ := hblocks block (by simp [Command.blocks])
    exact ⟨_, .setEntry b hb⟩
  | freeze => exact ⟨_, .freeze⟩

/-- The commands that are refused. -/
theorem apply_refused_iff : (∃ e, g.apply command = .error e) ↔
    command ≠ .freeze ∧ (g.frozen = true ∨ command.Unknown g) := by
  have happlied : (∃ next reply, g.apply command = .ok (next, reply)) ↔
      (command = .freeze ∨ g.frozen = false) ∧ ¬ command.Unknown g := by
    simp only [apply_iff, exists_and_left]
    exact and_congr_right fun _ => ⟨fun ⟨_, h⟩ => h.known, exists_effect⟩
  have hrefused : (∃ e, g.apply command = .error e) ↔
      ¬ ∃ next reply, g.apply command = .ok (next, reply) := by
    cases g.apply command with
    | ok answer => simpa using ⟨answer.1, answer.2, rfl⟩
    | error e => simp
  have hfreeze : command = .freeze → ¬ command.Unknown g := by
    rintro rfl
    exact (Effect.freeze (g := g)).known
  rw [hrefused, happlied]
  grind

/-- A frozen graph stays as it is. -/
theorem run_freeze (g : Graph) (later : List Command) : g.freeze.run later = g.freeze := by
  induction later with
  | nil => rfl
  | cons command later ih =>
    have hkept : g.freeze.after command = g.freeze := by
      by_cases hfreeze : command = .freeze
      · subst hfreeze
        rfl
      · obtain ⟨e, he⟩ := apply_refused_iff.2 ⟨hfreeze, .inl (rfl : g.freeze.frozen = true)⟩
        exact after_of_error he
    rw [run, List.foldl_cons, hkept]
    exact ih

/-! ## Graphs that are built -/

/-- A graph whose ids, edges, operands and entry fit together. -/
structure Consistent (g : Graph) : Prop extends WellFormed g where
  blockIds : g.blocks.map (·.id) = List.range g.blocks.length
  registerIds : g.registers.map (·.id) = (List.range g.registers.length).map Int.ofNat
  source_lt : ∀ u v, u ∈ g.predecessors v → u < g.blocks.length
  indexed : g.Indexed
  entry_eq_none : g.entry = none ↔ g.blocks = []

/-- A change of a block that keeps its id keeps the list of ids. -/
theorem map_id_modify {blocks : List Block} {u : BlockId} {f : Block → Block}
    (hf : ∀ b, (f b).id = b.id) : (blocks.modify u f).map (·.id) = blocks.map (·.id) := by
  refine List.ext_getElem? fun k => ?_
  rw [List.getElem?_map, List.getElem?_map, List.getElem?_modify]
  cases blocks[k]? with
  | none => rfl
  | some b => split <;> simp [hf]

/-- The source of a new edge has one more successor. -/
theorem successors_link {u v : BlockId} (hu : u < g.blocks.length) (x : BlockId) :
    (g.link u v).successors x = if u = x then g.successors x ++ [v] else g.successors x := by
  simp only [link, successors, part_modify, ite_self]
  split
  · next heq =>
    subst heq
    rw [List.getElem?_eq_getElem hu]
    rfl
  · rfl

@[simp] theorem instructions_link (u v x : BlockId) :
    (g.link u v).instructions x = g.instructions x := by
  simp only [link, instructions, part_modify, ite_self]

theorem instructions_extend {b : BlockId} (hb : b < g.blocks.length) (i : Instruction)
    (x : BlockId) : (g.extend b i).instructions x =
      if b = x then g.instructions x ++ [i] else g.instructions x := by
  simp only [extend, instructions, part_modify]
  split
  · next heq =>
    subst heq
    rw [List.getElem?_eq_getElem hb]
    rfl
  · rfl

@[simp] theorem successors_extend (b x : BlockId) (i : Instruction) :
    (g.extend b i).successors x = g.successors x := by
  simp only [extend, successors, part_modify, ite_self]

namespace Effect

/-- A change numbers the blocks it adds and keeps the ids of the others. -/
theorem blockIds (h : g.Effect command next)
    (hids : g.blocks.map (·.id) = List.range g.blocks.length) :
    next.blocks.map (·.id) = List.range next.blocks.length := by
  cases h with
  | createRegister spec => exact hids
  | addBlock => simp [hids, List.range_succ]
  | addInstruction i hb hindex huses hdefs => simpa [extend, map_id_modify] using hids
  | keepEdge u v hu hv hold => exact hids
  | addEdge u v hu hv hnew => simpa [Graph.link, map_id_modify] using hids
  | setEntry b hb => exact hids
  | freeze => exact hids

theorem registerIds (h : g.Effect command next)
    (hids : g.registers.map (·.id) = (List.range g.registers.length).map Int.ofNat) :
    next.registers.map (·.id) = (List.range next.registers.length).map Int.ofNat := by
  cases h with
  | createRegister spec => simp [hids, List.range_succ]
  | _ => exact hids

end Effect

/-- A change of a graph that is built is one more command. -/
theorem Built.effect (h : g.Built) (hopen : g.frozen = false) (heffect : g.Effect command next) :
    next.Built := by
  obtain ⟨commands, rfl⟩ := h
  obtain ⟨reply, happlied⟩ := apply_iff.2 ⟨.inr hopen, heffect⟩
  refine ⟨commands ++ [command], ?_⟩
  rw [run, List.foldl_append]
  exact (after_of_ok happlied).symm

/-- What holds of the empty graph and is kept by every change holds of every graph that is
built. -/
theorem Built.effect_induction {P : Graph → Prop} (hempty : P {})
    (hstep : ∀ {g command next}, g.WellFormed → g.Effect command next → P g → P next)
    (h : g.Built) : P g := by
  refine (h.induction (P := fun g => g.WellFormed ∧ P g) ⟨WellFormed.empty, hempty⟩ ?_).2
  intro g command ⟨hg, hP⟩
  cases happlied : g.apply command with
  | error e => trivial
  | ok answer =>
    have heffect := (apply_iff.1 ⟨answer.2, happlied⟩).2
    exact ⟨(hg.apply command).of_eq_ok happlied, hstep hg heffect hP⟩

/-- Every graph that is built is consistent. -/
theorem Built.consistent (h : g.Built) : g.Consistent where
  toWellFormed := h.wellFormed
  blockIds := h.effect_induction (by rfl) fun _ heffect => heffect.blockIds
  registerIds := h.effect_induction (by rfl) fun _ heffect => heffect.registerIds
  source_lt u v huv := source_lt ((h.wellFormed.mirrored u v).2 huv)
  indexed := h.indexed
  entry_eq_none := by
    constructor
    · intro hnone
      rw [entry] at hnone
      split at hnone
      · cases hnone
      · split at hnone
        · next hempty => exact List.isEmpty_iff.1 hempty
        · cases hnone
    · intro hblocks
      rw [Option.eq_none_iff_forall_ne_some]
      intro b hb
      have hlt := h.wellFormed.entry_lt b hb
      simp [hblocks] at hlt

end Graph

/-- Whatever commands a graph was built by, it is consistent; a command other than freezing is
refused exactly if the graph is frozen or the command names a block or register that is not
there; a refused command leaves the graph as it was, and so do all commands on a frozen graph;
a command that is not refused makes the one change it stands for. -/
theorem commands_keep_consistent {g : Graph} (hg : g.Built) :
    g.Consistent ∧
    (∀ command, (∃ e, g.apply command = .error e) ↔
      command ≠ .freeze ∧ (g.frozen = true ∨ command.Unknown g)) ∧
    (∀ command e, g.apply command = .error e → g.after command = g) ∧
    (∀ later, g.freeze.run later = g.freeze) ∧
    ∀ command next reply, g.apply command = .ok (next, reply) →
      g.after command = next ∧ g.Effect command next := by
  refine ⟨hg.consistent, fun _ => Graph.apply_refused_iff, fun _ _ => Graph.after_of_error,
    Graph.run_freeze g, fun command next reply happlied => ?_⟩
  exact ⟨Graph.after_of_ok happlied, (Graph.apply_iff.1 ⟨reply, happlied⟩).2⟩

/-- A graph of two blocks, four commands for which were refused. -/
def patchwork : Graph := Graph.run {} [
  .setEntry (0 : Nat), .addBlock, .addBlock, .createRegister {},
  .createRegister { name := some "x", regClass := some "float" },
  .addEdge (0 : Nat) (1 : Nat), .addEdge (0 : Nat) (1 : Nat), .addEdge (1 : Nat) (.whole (-1)),
  .addEdge (1 : Nat) (1 : Nat), .setEntry (.decimal 5 1),
  .addInstruction (0 : Nat)
    { opcode := "a", uses := [{ register := (1 : Nat) }], defs := [{ register := (2 : Nat) }] },
  .addInstruction (0 : Nat)
    { opcode := "b", uses := [{ register := (1 : Nat) }], defs := [{ register := (0 : Nat) }] },
  .setEntry (1 : Nat)]

theorem commands_keep_consistent_patchwork : patchwork.Built ∧ patchwork.Consistent ∧
    patchwork.predecessors 1 = [0, 1] ∧ patchwork.entry = some 1 ∧
    patchwork.apply (.addEdge (0 : Nat) (2 : Nat)) = .error (.noBlock (2 : Nat)) ∧
    patchwork.after (.addEdge (0 : Nat) (2 : Nat)) = patchwork := by
  have hg : patchwork.Built := ⟨_, rfl⟩
  have hrefused : patchwork.apply (.addEdge (0 : Nat) (2 : Nat)) = .error (.noBlock (2 : Nat)) :=
    rfl
  obtain ⟨hconsistent, -, hkept, -⟩ := commands_keep_consistent hg
  exact ⟨hg, hconsistent, rfl, rfl, hrefused, hkept _ _ hrefused⟩

end RegAlloc
