import Mathlib.Data.List.Forall2
import Mathlib.Data.List.Induction
import RegAlloc.Example.Build
import RegAlloc.Proofs.Graph.Commands

/-!
# The graph of an example mirrors its listing

The graph of an example can be built exactly if every name in it is listed. Registers and
blocks are then numbered as they are listed. A name that is listed again means the last one
listed, for operands and targets, but also for the listed blocks themselves: their code and
their targets go to the block that their name means, so that of several blocks of one name
the last holds what is listed under all of them, and the others are empty.

- `Example.Means` — the place of a name in a listing;
- `Example.Missing` — names that are not listed, and how they are reported;
- `Example.Holds` — a block with the code and the targets of some listed blocks;
- `Example.Built.Reflects` — what holds of the graph while it is built;
- `build_mirrors_listing` — when building succeeds, and what is built.
-/

namespace RegAlloc

namespace Example

/-! ## What names mean -/

/-- A name means the last place at which it is listed. -/
def Means (names : List String) (name : String) (i : Nat) : Prop :=
  names[i]? = some name ∧ name ∉ names.drop (i + 1)

instance (names : List String) (name : String) (i : Nat) : Decidable (Means names name i) :=
  inferInstanceAs (Decidable (_ ∧ _))

section

variable {names : List String} {name new : String} {i j : Nat}

theorem Means.lt (h : Means names name i) : i < names.length :=
  (List.getElem?_eq_some_iff.1 h.1).1

/-- A name that is listed once more means the new place, and no other name changes. -/
theorem means_concat : Means (names ++ [new]) name i ↔
    if name = new then i = names.length else Means names name i := by
  unfold Means
  rcases Nat.lt_trichotomy i names.length with hlt | rfl | hgt
  · rw [List.getElem?_append_left hlt, List.drop_append_of_le_length hlt]
    by_cases hname : name = new
    · simp [hname, Nat.ne_of_lt hlt]
    · simp [hname]
  · by_cases hname : name = new
    · simp [hname]
    · simp [hname, Ne.symm hname]
  · rw [List.getElem?_eq_none (by simp; omega), List.getElem?_eq_none (by omega)]
    simp [Nat.ne_of_gt hgt]

theorem Means.unique (hi : Means names name i) (hj : Means names name j) : i = j := by
  induction names using List.reverseRecOn with
  | nil => simp [Means] at hi
  | append_singleton names new ih =>
    rw [means_concat] at hi hj
    split at hi
    · next hname =>
      rw [if_pos hname] at hj
      rw [hi, hj]
    · next hname =>
      rw [if_neg hname] at hj
      exact ih hi hj

/-- The names that mean something are those that are listed. -/
theorem exists_means : (∃ i, Means names name i) ↔ name ∈ names := by
  induction names using List.reverseRecOn with
  | nil => simp [Means]
  | append_singleton names new ih =>
    simp only [means_concat, List.mem_append, List.mem_singleton, ← ih]
    by_cases hname : name = new
    · simp [hname]
    · simp [hname]

end

/-- A table in which names are looked up by what they mean. -/
def Numbered {α : Type} (number : Nat → α) (names : List String) (table : List (String × α)) :
    Prop :=
  ∀ name a, table.lookup name = some a ↔ ∃ k, a = number k ∧ Means names name k

namespace Numbered

variable {α : Type} {number : Nat → α} {names : List String} {table : List (String × α)}

theorem empty : Numbered number [] [] := by
  intro name a
  simp [Means]

theorem put (h : Numbered number names table) (new : String) :
    Numbered number (names ++ [new]) (Table.put table new (number names.length)) := by
  intro name a
  simp only [means_concat, Table.lookup_put, beq_iff_eq]
  by_cases hname : name = new
  · simp [hname, eq_comm]
  · simp [hname, h name a]

/-- A name that is not found is not listed. -/
theorem not_mem (h : Numbered number names table) {name : String}
    (hnone : table.lookup name = none) : name ∉ names := by
  intro hmem
  obtain ⟨k, hk⟩ := exists_means.2 hmem
  rw [(h name (number k)).2 ⟨k, rfl, hk⟩] at hnone
  cases hnone

end Numbered

/-! ## What a listing says -/

def valueNames (e : Example) : List String := e.values.map (·.name)

def blockNames (e : Example) : List String := e.blocks.map (·.name)

/-- A name in an example that is not listed, as it is reported. -/
inductive Missing (e : Example) : Error → Prop where
  | operand {s : Section} {c : Operation} {o : Operand} (hs : s ∈ e.blocks) (hc : c ∈ s.code)
    (ho : o ∈ c.uses ++ c.defs) (hname : o.value ∉ e.valueNames) :
    Missing e (.unknownValue o.value)
  | target {s : Section} {name : String} (hs : s ∈ e.blocks) (htarget : name ∈ s.targets)
    (hname : name ∉ e.blockNames) : Missing e (.unknownBlock name)
  | entry {name : String} (hentry : e.entry = some name) (hname : name ∉ e.blockNames) :
    Missing e (.unknownBlock name)

/-- The registers of listed values. -/
def registersOf (values : List Value) : List Register :=
  values.mapIdx fun i v =>
    { id := i, name := v.name, regClass := v.regClass.getD Graph.defaultClass }

/-- The operand of an instruction that a named operand stands for, if it is read. -/
structure Operand.IsUse (values : List String) (o : Operand) (u : Use) : Prop where
  register : ∃ k : Nat, u.register = k ∧ Means values o.value k
  policy : u.policy = o.policy.getD .register
  kill : u.kill = o.kill.getD false

/-- The operand of an instruction that a named operand stands for, if it is written. -/
structure Operand.IsDef (values : List String) (o : Operand) (d : Def) : Prop where
  register : ∃ k : Nat, d.register = k ∧ Means values o.value k
  policy : d.policy = o.policy.getD .register

/-- The instruction that named code stands for. -/
structure Operation.IsInstruction (values : List String) (c : Operation) (i : Instruction) :
    Prop where
  opcode : i.opcode = c.op
  uses : List.Forall₂ (Operand.IsUse values) c.uses i.uses
  defs : List.Forall₂ (Operand.IsDef values) c.defs i.defs

/-- A block holds the code of some listed blocks, one after the other, and is followed by
their targets, in the order in which these are first mentioned. -/
structure Holds (values blocks : List String) (g : Graph) (b : BlockId)
    (sections : List Section) : Prop where
  code : List.Forall₂ (Operation.IsInstruction values) (sections.flatMap (·.code))
    (g.instructions b)
  targets : ∃ targets, List.Forall₂ (Means blocks) (sections.flatMap (·.targets)) targets ∧
    g.successors b = targets.eraseDups

/-- The listed blocks whose name means a block. -/
def gathered (blocks : List String) (sections : List Section) (b : BlockId) : List Section :=
  sections.filter fun s => Means blocks s.name b

/-- A graph that has what is listed. -/
structure Mirrors (values : List Value) (blocks : List String) (sections : List Section)
    (g : Graph) : Prop where
  registers : g.registers = registersOf values
  length : g.blocks.length = blocks.length
  holds : ∀ b, Holds (values.map (·.name)) blocks g b (gathered blocks sections b)

/-! ## Related lists -/

section

variable {α β γ ε : Type} {R : α → β → Prop}

theorem exists_rel_of_mem {l : List α} {bs : List β} (h : List.Forall₂ R l bs) {a : α}
    (ha : a ∈ l) : ∃ b ∈ bs, R a b := by
  induction h with
  | nil => cases ha
  | cons hab _ ih =>
    rcases List.mem_cons.1 ha with rfl | ha
    · exact ⟨_, List.mem_cons_self, hab⟩
    · obtain ⟨b, hb, hR⟩ := ih ha
      exact ⟨b, List.mem_cons_of_mem _ hb, hR⟩

theorem forall₂_concat {l : List α} {bs : List β} {a : α} {b : β} (h : List.Forall₂ R l bs)
    (hab : R a b) : List.Forall₂ R (l ++ [a]) (bs ++ [b]) :=
  List.rel_append h (.cons hab .nil)

/-- Computations that return images of what their arguments are related to. -/
theorem ensures_mapM (image : β → γ) {f : α → Except ε γ} {E : ε → Prop} {l : List α}
    (h : ∀ a ∈ l, Ensures (f a) (fun c => ∃ b, c = image b ∧ R a b) E) :
    Ensures (l.mapM f) (fun cs => ∃ bs, cs = bs.map image ∧ List.Forall₂ R l bs) E := by
  induction l with
  | nil => exact ⟨[], rfl, .nil⟩
  | cons a l ih =>
    obtain ⟨ha, hl⟩ := List.forall_mem_cons.1 h
    rw [List.mapM_cons]
    refine ha.bind fun c ⟨b, hc, hab⟩ => (ih hl).bind fun cs ⟨bs, hcs, hbs⟩ => ?_
    exact ⟨b :: bs, by rw [hc, hcs]; rfl, .cons hab hbs⟩

/-- An element behind a list is kept if it is not there yet. -/
theorem eraseDups_concat (l : List Nat) (a : Nat) :
    (l ++ [a]).eraseDups = if a ∈ l then l.eraseDups else l.eraseDups ++ [a] := by
  rw [List.eraseDups_append]
  by_cases ha : a ∈ l
  · simp [List.removeAll, ha]
  · simp [List.removeAll, ha, List.eraseDups_cons]

end

/-! ## Blocks that are filled -/

section

variable {values blocks : List String} {g next : Graph} {b c : BlockId} {s : Section}
  {sections before : List Section}

/-- The code of a listed block goes to the block that its name means, and to no other. -/
theorem gathered_concat (hs : Means blocks s.name b) (c : BlockId) :
    gathered blocks (sections ++ [s]) c =
      if b = c then gathered blocks sections c ++ [s] else gathered blocks sections c := by
  rw [gathered, List.filter_append, List.filter_singleton]
  by_cases hc : b = c
  · subst hc
    simp [hs, gathered]
  · have hother : ¬ Means blocks s.name c := fun h => hc (hs.unique h)
    simp [hother, hc, gathered]

namespace Holds

theorem congr (hcode : next.instructions b = g.instructions b)
    (htargets : next.successors b = g.successors b) (h : Holds values blocks g b sections) :
    Holds values blocks next b sections := by
  obtain ⟨targets, hmeans, heq⟩ := h.targets
  exact ⟨hcode ▸ h.code, targets, hmeans, htargets.trans heq⟩

/-- A listed block of which nothing is filled in yet adds nothing. -/
theorem bare (h : Holds values blocks g b before) (name : String) :
    Holds values blocks g b (before ++ [{ name := name }]) := by
  obtain ⟨hcode, htargets⟩ := h
  exact ⟨by simpa using hcode, by simpa using htargets⟩

theorem addCode {op : Operation} {i : Instruction} (h : Holds values blocks g b (before ++ [s]))
    (hop : op.IsInstruction values i) (hcode : next.instructions b = g.instructions b ++ [i])
    (htargets : next.successors b = g.successors b) :
    Holds values blocks next b (before ++ [{ s with code := s.code ++ [op] }]) := by
  obtain ⟨targets, hmeans, heq⟩ := h.targets
  refine ⟨?_, targets, by simpa using hmeans, htargets.trans heq⟩
  have hgrown := forall₂_concat h.code hop
  rw [hcode]
  simpa using hgrown

theorem addTarget {name : String} {v : BlockId} (h : Holds values blocks g b (before ++ [s]))
    (hname : Means blocks name v) (hcode : next.instructions b = g.instructions b)
    (htargets : next.successors b =
      if v ∈ g.successors b then g.successors b else g.successors b ++ [v]) :
    Holds values blocks next b (before ++ [{ s with targets := s.targets ++ [name] }]) := by
  obtain ⟨targets, hmeans, heq⟩ := h.targets
  refine ⟨by simpa [hcode] using h.code, targets ++ [v], ?_, ?_⟩
  · have hgrown := forall₂_concat hmeans hname
    simpa using hgrown
  · rw [htargets, heq, eraseDups_concat]
    simp only [List.mem_eraseDups]

/-- Filling in more of the listed block that is filled in last. -/
theorem last {after : Section} (hs : Means blocks s.name b) (hname : after.name = s.name)
    (h : ∀ c, Holds values blocks g c (gathered blocks (sections ++ [s]) c))
    (hown : ∀ {before}, Holds values blocks g b (before ++ [s]) →
      Holds values blocks next b (before ++ [after]))
    (hother : ∀ c, b ≠ c → next.instructions c = g.instructions c ∧
      next.successors c = g.successors c) (c : BlockId) :
    Holds values blocks next c (gathered blocks (sections ++ [after]) c) := by
  have hold := h c
  have hafter : Means blocks after.name b := hname ▸ hs
  rw [gathered_concat hs] at hold
  rw [gathered_concat hafter]
  by_cases hc : b = c
  · subst hc
    rw [if_pos rfl] at hold ⊢
    exact hown hold
  · rw [if_neg hc] at hold ⊢
    exact hold.congr (hother c hc).1 (hother c hc).2

end Holds

end

/-! ## Building -/

/-- Nothing is in a block for which nothing is listed. -/
theorem holds_nil {values blocks : List String} {g : Graph} {b : BlockId} :
    Holds values blocks g b [] ↔ g.instructions b = [] ∧ g.successors b = [] := by
  constructor
  · rintro ⟨hcode, targets, hmeans, heq⟩
    cases List.forall₂_nil_left_iff.1 hmeans
    exact ⟨List.forall₂_nil_left_iff.1 hcode, heq⟩
  · rintro ⟨hcode, htargets⟩
    exact ⟨hcode ▸ .nil, [], .nil, htargets⟩

theorem length_registersOf (values : List Value) :
    (registersOf values).length = values.length := by
  rw [registersOf, List.length_mapIdx]

theorem registersOf_concat (values : List Value) (v : Value) :
    registersOf (values ++ [v]) = registersOf values ++
      [{ id := values.length, name := v.name, regClass := v.regClass.getD Graph.defaultClass }] :=
  List.mapIdx_concat

/-- Why an example is refused: a name in it is not listed. -/
def Refused (e : Example) (err : BuildError) : Prop :=
  ∃ error, err = .document error ∧ e.Missing error

namespace Built

/-- While a graph is built, it has what is listed of the part that has been read, and every
listed name is found. -/
structure Reflects (values : List Value) (blocks : List String) (sections : List Section)
    (built : Built) : Prop extends Mirrors values blocks sections built.graph where
  commands : built.graph.Built
  unfrozen : built.graph.frozen = false
  unchosen : built.graph.chosenEntry = none
  findsValues : Numbered (fun k : Nat => (k : VReg)) (values.map (·.name)) built.registers
  findsBlocks : Numbered id blocks built.blocks

namespace Reflects

theorem empty : Reflects [] [] [] {} where
  registers := rfl
  length := rfl
  holds _ := holds_nil.2 ⟨rfl, rfl⟩
  commands := ⟨[], rfl⟩
  unfrozen := rfl
  unchosen := rfl
  findsValues := .empty
  findsBlocks := .empty

variable {values : List Value} {blocks : List String} {sections : List Section} {built : Built}

theorem addValue (h : Reflects values [] [] built) (v : Value) :
    Ensures (built.addValue v) (Reflects (values ++ [v]) [] []) fun _ => False := by
  let spec : RegisterSpec := { name := some v.name, regClass := v.regClass }
  -- registers are numbered in the order of the values
  have hnumber : built.graph.registers.length = values.length := by
    rw [h.registers, length_registersOf]
  have hcreated : (Change.createRegister spec).on built.graph = .ok
      ({ built.graph with registers := registersOf (values ++ [v]) }, (values.length : VReg)) := by
    rw [Change.createRegister_on]
    refine Graph.checkOpen_bind_eq_ok.2 ⟨h.unfrozen, ?_⟩
    rw [registersOf_concat, ← h.registers, ← hnumber]
    rfl
  rw [Built.addValue, hcreated]
  refine ⟨⟨rfl, h.length, fun b => ?_⟩, ?_, h.unfrozen, h.unchosen, ?_, h.findsBlocks⟩
  · have hempty := holds_nil.1 (h.holds b)
    exact holds_nil.2 hempty
  -- what was done is the effect of a command
  · exact h.commands.effect h.unfrozen (Graph.createRegister_iff.1 ⟨_, hcreated⟩).2
  · have hput := h.findsValues.put v.name
    rw [List.length_map] at hput
    rwa [List.map_append]

theorem addBlock (h : Reflects values blocks [] built) (s : Section) :
    Ensures (built.addBlock s) (Reflects values (blocks ++ [s.name]) []) fun _ => False := by
  have hadded : Change.addBlock.on built.graph = .ok
      ({ built.graph with blocks := built.graph.blocks ++ [{ id := blocks.length }] },
        blocks.length) := by
    rw [Change.addBlock_on]
    refine Graph.checkOpen_bind_eq_ok.2 ⟨h.unfrozen, ?_⟩
    rw [h.length]
    rfl
  rw [Built.addBlock, hadded]
  refine ⟨⟨h.registers, by simp [h.length], fun b => holds_nil.2 ?_⟩, ?_, h.unfrozen,
    h.unchosen, h.findsValues, h.findsBlocks.put s.name⟩
  · obtain ⟨hcode, htargets⟩ := holds_nil.1 (h.holds b)
    rw [Graph.instructions, Graph.successors, Graph.part_append _ rfl, Graph.part_append _ rfl]
    exact ⟨hcode, htargets⟩
  · exact h.commands.effect h.unfrozen (Graph.addBlock_iff.1 ⟨_, hadded⟩).2

theorem findValue (h : Reflects values blocks sections built) (name : String) :
    Ensures (built.findValue name) (fun r => ∃ k : Nat, r = k ∧ Means (values.map (·.name)) name k)
      fun err => err = .document (.unknownValue name) ∧ name ∉ values.map (·.name) := by
  rw [Built.findValue]
  split
  · next r hr => exact (h.findsValues name r).1 hr
  · next hnone => exact ⟨rfl, h.findsValues.not_mem hnone⟩

theorem findBlock (h : Reflects values blocks sections built) (name : String) :
    Ensures (built.findBlock name) (Means blocks name)
      fun err => err = .document (.unknownBlock name) ∧ name ∉ blocks := by
  rw [Built.findBlock]
  split
  · next b hb =>
    obtain ⟨k, rfl, hk⟩ := (h.findsBlocks name b).1 hb
    exact hk
  · next hnone => exact ⟨rfl, h.findsBlocks.not_mem hnone⟩

/-- A name that means a block is found. -/
theorem findBlock_eq_ok (h : Reflects values blocks sections built) {name : String} {b : BlockId}
    (hb : Means blocks name b) : built.findBlock name = .ok b := by
  rw [Built.findBlock, (h.findsBlocks name b).2 ⟨b, rfl, hb⟩]

/-- A change of the graph that fills blocks. -/
theorem change (h : Reflects values blocks sections built) {command : Graph.Command}
    {next : Graph} (heffect : built.graph.Effect command next) (hopen : next.frozen = false)
    (hentry : next.chosenEntry = none) {later : List Section}
    (hmirrors : Mirrors values blocks later next) :
    Reflects values blocks later { built with graph := next } :=
  ⟨hmirrors, h.commands.effect h.unfrozen heffect, hopen, hentry, h.findsValues, h.findsBlocks⟩

theorem bare (h : Reflects values blocks sections built) {name : String} {b : BlockId}
    (hb : Means blocks name b) :
    Reflects values blocks (sections ++ [{ name := name }]) built := by
  refine ⟨⟨h.registers, h.length, fun c => ?_⟩, h.commands, h.unfrozen, h.unchosen,
    h.findsValues, h.findsBlocks⟩
  rw [gathered_concat hb]
  split
  · exact (h.holds c).bare name
  · exact h.holds c

end Reflects

section

variable {e : Example} {s : Section} {sections : List Section} {built : Built} {b : BlockId}

/-- An instruction is asked for, unless it has an operand that is not listed. -/
theorem instruction_ensures (h : Reflects e.values e.blockNames sections built)
    (hs : s ∈ e.blocks) {op : Operation} (hop : op ∈ s.code) (b : BlockId) (index : Nat) :
    Ensures (built.instruction op) (fun spec => ∃ i : Instruction,
      i.block = b ∧ i.index = index ∧ i.spec = spec ∧ op.IsInstruction e.valueNames i)
      e.Refused := by
  -- an operand is found, or its name is what is missing
  have hfound : ∀ o ∈ op.uses ++ op.defs, Ensures (built.findValue o.value)
      (fun r => ∃ k : Nat, r = k ∧ Means e.valueNames o.value k) e.Refused := by
    intro o ho
    refine (h.findValue o.value).mono_error fun err ⟨herr, hname⟩ => ?_
    exact ⟨_, herr, .operand hs hop ho hname⟩
  rw [Built.instruction]
  refine Ensures.bind (ensures_mapM Use.spec (R := Operand.IsUse e.valueNames)
    fun o ho => ?_) fun uses huses => ?_
  -- the uses are found one after the other, and then the results
  · refine (hfound o (List.mem_append_left _ ho)).bind fun r hr => ?_
    exact ⟨⟨r, _, _⟩, rfl, hr, rfl, rfl⟩
  refine Ensures.bind (ensures_mapM Def.spec (R := Operand.IsDef e.valueNames)
    fun o ho => ?_) fun defs hdefs => ?_
  · refine (hfound o (List.mem_append_right _ ho)).bind fun r hr => ?_
    exact ⟨⟨r, _⟩, rfl, hr, rfl⟩
  obtain ⟨uses, rfl, huses⟩ := huses
  obtain ⟨defs, rfl, hdefs⟩ := hdefs
  exact ⟨⟨index, b, op.op, uses, defs⟩, rfl, rfl, rfl, rfl, huses, hdefs⟩

theorem addCode_ensures {before : Section} {op : Operation}
    (h : Reflects e.values e.blockNames (sections ++ [before]) built)
    (hb : Means e.blockNames before.name b) (hs : s ∈ e.blocks) (hop : op ∈ s.code) :
    Ensures (built.addCode b op) (Reflects e.values e.blockNames
      (sections ++ [{ before with code := before.code ++ [op] }])) e.Refused := by
  rw [Built.addCode]
  refine (instruction_ensures h hs hop b (built.graph.instructions b).length).bind ?_
  rintro _ ⟨i, rfl, hindex, rfl, hi⟩
  have hlt : i.block < built.graph.blocks.length := by
    rw [h.length]
    exact hb.lt
  -- the graph refuses no operand that a listed value stands for
  have hdeclared : ∀ {name : String} {r : VReg},
      (∃ k : Nat, r = k ∧ Means e.valueNames name k) → built.graph.HasRegister r := by
    rintro name _ ⟨k, rfl, hk⟩
    have hk := hk.lt
    rw [valueNames, List.length_map, ← length_registersOf, ← h.registers] at hk
    exact ⟨k, rfl, hk⟩
  have heffect := Graph.Effect.addInstruction i hlt hindex
    (fun u hu => by
      obtain ⟨o, -, ho⟩ := exists_rel_of_mem hi.uses.flip hu
      exact hdeclared ho.register)
    (fun d hd => by
      obtain ⟨o, -, ho⟩ := exists_rel_of_mem hi.defs.flip hd
      exact hdeclared ho.register)
  obtain ⟨added, hadded⟩ := Graph.addInstruction_iff.2 ⟨h.unfrozen, heffect⟩
  rw [hadded]
  -- the code of the block grows by one, and other blocks are unchanged
  refine h.change heffect h.unfrozen h.unchosen ⟨h.registers, ?_, ?_⟩
  · rw [Graph.extend, List.length_modify, h.length]
  · refine Holds.last hb rfl h.holds (fun hold => ?_) fun c hc => ?_
    · refine hold.addCode hi ?_ (Graph.successors_extend ..)
      rw [Graph.instructions_extend hlt, if_pos rfl]
    · exact ⟨by rw [Graph.instructions_extend hlt, if_neg hc], Graph.successors_extend ..⟩

theorem addTarget_ensures {before : Section} {name : String}
    (h : Reflects e.values e.blockNames (sections ++ [before]) built)
    (hb : Means e.blockNames before.name b) (hs : s ∈ e.blocks) (hname : name ∈ s.targets) :
    Ensures (built.addTarget b name) (Reflects e.values e.blockNames
      (sections ++ [{ before with targets := before.targets ++ [name] }])) e.Refused := by
  -- a target is found, or its name is what is missing
  have hfound : Ensures (built.findBlock name) (Means e.blockNames name) e.Refused := by
    refine (h.findBlock name).mono_error fun err ⟨herr, hmissing⟩ => ?_
    exact ⟨_, herr, .target hs hname hmissing⟩
  have hlt : ∀ {name : String} {c : BlockId}, Means e.blockNames name c →
      c < built.graph.blocks.length := by
    intro name c hc
    rw [h.length]
    exact hc.lt
  rw [Built.addTarget]
  refine hfound.bind fun v hv => ?_
  -- a target that was mentioned before is not recorded again
  by_cases hmem : v ∈ built.graph.successors b
  · have heffect := Graph.Effect.keepEdge b v (hlt hb) (hlt hv) hmem
    rw [Graph.addEdge_iff.2 ⟨h.unfrozen, heffect⟩]
    refine h.change heffect h.unfrozen h.unchosen ⟨h.registers, h.length, ?_⟩
    refine Holds.last hb rfl h.holds (fun hold => ?_) fun c _ => ⟨rfl, rfl⟩
    exact hold.addTarget hv rfl (if_pos hmem).symm
  -- a new target becomes the last successor
  · have heffect := Graph.Effect.addEdge b v (hlt hb) (hlt hv) hmem
    rw [Graph.addEdge_iff.2 ⟨h.unfrozen, heffect⟩]
    refine h.change heffect h.unfrozen h.unchosen ⟨h.registers, ?_, ?_⟩
    · simp [Graph.link, h.length]
    · refine Holds.last hb rfl h.holds (fun hold => ?_) fun c hc => ?_
      · refine hold.addTarget hv (Graph.instructions_link ..) ?_
        rw [Graph.successors_link (hlt hb), if_pos rfl, if_neg hmem]
      · exact ⟨Graph.instructions_link .., by rw [Graph.successors_link (hlt hb), if_neg hc]⟩

/-- The code and the targets of a listed block go to the block that its name means. -/
theorem fillBlock_ensures (h : Reflects e.values e.blockNames sections built)
    (hs : s ∈ e.blocks) :
    Ensures (built.fillBlock s) (Reflects e.values e.blockNames (sections ++ [s])) e.Refused := by
  obtain ⟨b, hb⟩ := exists_means.2 (List.mem_map_of_mem hs : s.name ∈ e.blockNames)
  rw [Built.fillBlock, h.findBlock_eq_ok hb]
  -- what has been filled in of a listed block is a listed block of the same name
  refine Ensures.bind (P := Reflects e.values e.blockNames (sections ++ [{ s with targets := [] }]))
    ?_ fun built hbuilt => ?_
  · refine Ensures.foldlM_taken (fun code => Reflects e.values e.blockNames
      (sections ++ [{ name := s.name, code := code }])) (fun code op hop built hbuilt => ?_)
      (h.bare hb)
    exact addCode_ensures hbuilt hb hs hop
  · refine Ensures.foldlM_taken (fun targets => Reflects e.values e.blockNames
      (sections ++ [{ s with targets := targets }])) (fun targets name hname built hbuilt => ?_)
      hbuilt
    exact addTarget_ensures hbuilt hb hs hname

end

end Built

/-- A graph that was built for an example. -/
structure Mirrored (e : Example) (g : Graph) : Prop
    extends Mirrors e.values e.blockNames e.blocks g where
  commands : g.Built
  entry : Option.Rel (Means e.blockNames) e.entry g.chosenEntry

theorem setEntry_ensures {e : Example} {built : Built} {name : String}
    (h : built.Reflects e.values e.blockNames e.blocks) (hentry : e.entry = some name) :
    Ensures (built.setEntry name) (fun built => e.Mirrored built.graph) e.Refused := by
  have hfound : Ensures (built.findBlock name) (Means e.blockNames name) e.Refused := by
    refine (h.findBlock name).mono_error fun err ⟨herr, hmissing⟩ => ?_
    exact ⟨_, herr, .entry hentry hmissing⟩
  rw [Built.setEntry]
  refine hfound.bind fun b hb => ?_
  have heffect := Graph.Effect.setEntry (g := built.graph) b (by rw [h.length]; exact hb.lt)
  rw [Graph.setEntry_iff.2 ⟨h.unfrozen, heffect⟩]
  refine ⟨⟨h.registers, h.length, fun c => .congr (g := built.graph) rfl rfl (h.holds c)⟩,
    h.commands.effect h.unfrozen heffect, ?_⟩
  rw [hentry]
  exact .some hb

/-- Building an example gives a graph with what is listed, or reports a name that is not
listed. -/
theorem build_ensures (e : Example) :
    Ensures e.build (fun built => e.Mirrored built.graph) e.Refused := by
  rw [build]
  -- the four stages: values, blocks, their contents and the entry
  refine Ensures.bind (P := Built.Reflects e.values [] []) ?_ fun built hvalues => ?_
  · refine Ensures.foldlM_taken (fun values => Built.Reflects values [] [])
      (fun values v _ built hbuilt => ?_) .empty
    exact (hbuilt.addValue v).mono_error fun _ => False.elim
  refine Ensures.bind (P := Built.Reflects e.values e.blockNames []) ?_ fun built hblocks => ?_
  · refine Ensures.foldlM_taken
      (fun taken : List Section => Built.Reflects e.values (taken.map (·.name)) [])
      (fun taken s _ built hbuilt => ?_) hvalues
    rw [List.map_append]
    exact (hbuilt.addBlock s).mono_error fun _ => False.elim
  refine Ensures.bind (P := Built.Reflects e.values e.blockNames e.blocks) ?_
    fun built hfilled => ?_
  · exact Ensures.foldlM_taken (Built.Reflects e.values e.blockNames)
      (fun taken s hs built hbuilt => Built.fillBlock_ensures hbuilt hs) hblocks
  split
  · next hentry =>
    refine ⟨hfilled.toMirrors, hfilled.commands, ?_⟩
    rw [hentry, hfilled.unchosen]
    exact .none
  · next name hentry => exact setEntry_ensures hfilled hentry

/-- Where a graph has what is listed, no name is missing. -/
theorem Mirrored.not_missing {e : Example} {g : Graph} (h : e.Mirrored g) (error : Error) :
    ¬ e.Missing error := by
  -- every listed block was filled into some block of the graph
  have hheld : ∀ s ∈ e.blocks, ∃ b, s ∈ gathered e.blockNames e.blocks b := by
    intro s hs
    obtain ⟨b, hb⟩ := exists_means.2 (List.mem_map_of_mem hs : s.name ∈ e.blockNames)
    exact ⟨b, List.mem_filter.2 ⟨hs, decide_eq_true hb⟩⟩
  rintro (⟨hs, hc, ho, hname⟩ | ⟨hs, htarget, hname⟩ | ⟨hentry, hname⟩)
  -- an operand that was read stands for a value
  · obtain ⟨b, hb⟩ := hheld _ hs
    obtain ⟨i, -, hi⟩ := exists_rel_of_mem (h.holds b).code (List.mem_flatMap.2 ⟨_, hb, hc⟩)
    rcases List.mem_append.1 ho with ho | ho
    · obtain ⟨u, -, hu⟩ := exists_rel_of_mem hi.uses ho
      obtain ⟨k, -, hk⟩ := hu.register
      exact hname (exists_means.1 ⟨k, hk⟩)
    · obtain ⟨d, -, hd⟩ := exists_rel_of_mem hi.defs ho
      obtain ⟨k, -, hk⟩ := hd.register
      exact hname (exists_means.1 ⟨k, hk⟩)
  -- a target that was recorded stands for a block
  · obtain ⟨b, hb⟩ := hheld _ hs
    obtain ⟨targets, hmeans, -⟩ := (h.holds b).targets
    obtain ⟨v, -, hv⟩ := exists_rel_of_mem hmeans (List.mem_flatMap.2 ⟨_, hb, htarget⟩)
    exact hname (exists_means.1 ⟨v, hv⟩)
  · have hchosen := h.entry
    rw [hentry] at hchosen
    generalize g.chosenEntry = chosen at hchosen
    cases hchosen with
    | some hb => exact hname (exists_means.1 ⟨_, hb⟩)

/-- The one element that is kept. -/
theorem filter_eq_singleton {α : Type} {p : α → Bool} {a : α} : ∀ {l : List α} {i : Nat},
    l[i]? = some a → p a = true → (∀ j b, l[j]? = some b → p b = true → j = i) → l.filter p = [a]
  | x :: l, 0, hi, ha, honly => by
    cases hi
    have hnone : l.filter p = [] := by
      rw [List.filter_eq_nil_iff]
      intro b hb hp
      obtain ⟨j, hj⟩ := List.mem_iff_getElem?.1 hb
      cases honly (j + 1) b hj hp
    rw [List.filter_cons_of_pos ha, hnone]
  | x :: l, i + 1, hi, ha, honly => by
    have hx : ¬ p x = true := fun hp => by cases honly 0 x rfl hp
    rw [List.filter_cons_of_neg hx]
    exact filter_eq_singleton hi ha fun j b hj hp => Nat.succ.inj (honly (j + 1) b hj hp)

/-- A block whose name is listed once gathers what is listed under it and nothing else. -/
theorem gathered_eq_singleton {e : Example} {b : BlockId} {s : Section}
    (hs : e.blocks[b]? = some s)
    (honce : ∀ c t, e.blocks[c]? = some t → t.name = s.name → c = b) :
    gathered e.blockNames e.blocks b = [s] := by
  have hnamed : e.blockNames[b]? = some s.name := by simp [blockNames, hs]
  obtain ⟨c, hc⟩ := exists_means.2 (List.mem_of_getElem? hnamed)
  -- the last place of the name is a place of the name, and there is no other
  have hcb : c = b := by
    obtain ⟨t, ht, hname⟩ : ∃ t, e.blocks[c]? = some t ∧ t.name = s.name := by
      simpa [blockNames] using hc.1
    exact honce c t ht hname
  subst hcb
  refine filter_eq_singleton hs (decide_eq_true hc) fun d t ht hmeans => ?_
  have hsame := (of_decide_eq_true hmeans).1
  rw [hnamed, Option.some.injEq] at hsame
  exact honce d t ht hsame.symm

/-! ## What is built -/

/-- The graph of an example can be built exactly if every name in it is listed; if not, a name
that is not listed is reported, and no command on the graph is ever refused. Register `i` is the
`i`-th listed value, with its name and class, and there are as many blocks as are listed. A block
holds the code and the targets of the listed blocks whose name means it: if its name is listed
once, those of the one listed at its place. -/
theorem build_mirrors_listing (e : Example) :
    ((∃ error, e.build = .error (.document error)) ↔ ∃ error, e.Missing error) ∧
    (∀ error, e.build = .error (.document error) → e.Missing error) ∧
    (∀ error, e.build ≠ .error (.graph error)) ∧
    ∀ built, e.build = .ok built →
      built.graph.Consistent ∧
      built.graph.registers = e.values.mapIdx (fun i v =>
        { id := i, name := v.name, regClass := v.regClass.getD Graph.defaultClass }) ∧
      built.graph.blocks.length = e.blocks.length ∧
      (∀ b, Holds e.valueNames e.blockNames built.graph b (gathered e.blockNames e.blocks b)) ∧
      (∀ b s, e.blocks[b]? = some s →
        (∀ c t, e.blocks[c]? = some t → t.name = s.name → c = b) →
        Holds e.valueNames e.blockNames built.graph b [s]) ∧
      Option.Rel (Means e.blockNames) e.entry built.graph.chosenEntry := by
  have hbuild := e.build_ensures
  have hmissing : ∀ error, e.build = .error (.document error) → e.Missing error := by
    intro error herror
    obtain ⟨_, ⟨⟩, hmissing⟩ := hbuild.of_eq_error herror
    exact hmissing
  refine ⟨⟨fun ⟨error, herror⟩ => ⟨error, hmissing error herror⟩, ?_⟩, hmissing, ?_, ?_⟩
  -- a name that is missing cannot have been found, so building has failed
  · rintro ⟨error, hnamed⟩
    cases hresult : e.build with
    | ok built => exact absurd hnamed ((hbuild.of_eq_ok hresult).not_missing error)
    | error err =>
      obtain ⟨reported, rfl, -⟩ := hbuild.of_eq_error hresult
      exact ⟨reported, rfl⟩
  · intro error herror
    obtain ⟨_, ⟨⟩, -⟩ := hbuild.of_eq_error herror
  · intro built hbuilt
    have h := hbuild.of_eq_ok hbuilt
    refine ⟨h.commands.consistent, h.registers, ?_, h.holds, fun b s hs honce => ?_, h.entry⟩
    · rw [h.length, blockNames, List.length_map]
    · rw [← gathered_eq_singleton hs honce]
      exact h.holds b

/-- An example with a value and a block that are listed twice, targets that are mentioned twice,
a block that follows itself, and one that is named before it is listed. -/
def relisted : Example where
  values := [{ name := "v" }, { name := "w", regClass := some "float" }, { name := "v" }]
  entry := some "b"
  blocks := [
    { name := "a", targets := ["b", "a", "b"],
      code := [{ op := "x", defs := [{ value := "v" }] }] },
    { name := "b", targets := ["a"], code := [{ op := "y", uses := [{ value := "w" }] }] },
    { name := "a", targets := ["b"], code := [{ op := "z", uses := [{ value := "v" }] }] }]

theorem build_mirrors_listing_relisted :
    ∃ built, relisted.build = .ok built ∧ (∀ error, ¬ relisted.Missing error) ∧
      built.graph.successors 2 = [1, 2] ∧ built.graph.chosenEntry = some 1 ∧
      built.graph.registers.map (·.regClass) = ["general", "float", "general"] ∧
      ∃ a b a', relisted.blocks = [a, b, a'] ∧
        Holds relisted.valueNames relisted.blockNames built.graph 0 [] ∧
        Holds relisted.valueNames relisted.blockNames built.graph 1 [b] ∧
        Holds relisted.valueNames relisted.blockNames built.graph 2 [a, a'] := by
  obtain ⟨built, hbuilt, htargets, hentry⟩ : ∃ built, relisted.build = .ok built ∧
      built.graph.successors 2 = [1, 2] ∧ built.graph.chosenEntry = some 1 := ⟨_, rfl, rfl, rfl⟩
  obtain ⟨hrefused, -, -, hmirrored⟩ := build_mirrors_listing relisted
  obtain ⟨-, hregisters, -, hgathered, honce, -⟩ := hmirrored built hbuilt
  refine ⟨built, hbuilt, fun error hmissing => ?_, htargets, hentry, by rw [hregisters]; rfl,
    _, _, _, rfl, hgathered 0, honce 1 _ rfl fun c t ht hname => ?_, hgathered 2⟩
  · obtain ⟨_, hstopped⟩ := hrefused.2 ⟨error, hmissing⟩
    cases hbuilt.symm.trans hstopped
  -- no other block of the list has the name
  · rcases c with _ | _ | _ | c
    · cases ht
      revert hname
      decide
    · rfl
    · cases ht
      revert hname
      decide
    · cases ht

/-- An example of two blocks of one name. -/
def namesakes : Example where
  values := [{ name := "v" }]
  blocks := [
    { name := "a", code := [{ op := "x", defs := [{ value := "v" }] }] },
    { name := "a" }]

/-- A block does not always hold what is listed at its place. -/
theorem code_displaced_namesakes :
    ¬ ∀ (e : Example) (built : Built), e.build = .ok built → ∀ b s, e.blocks[b]? = some s →
      Holds e.valueNames e.blockNames built.graph b [s] := by
  intro h
  have hfirst := (h namesakes _ rfl 0 _ rfl).code
  have hempty := List.forall₂_nil_right_iff.1 hfirst
  cases hempty

end Example

end RegAlloc
