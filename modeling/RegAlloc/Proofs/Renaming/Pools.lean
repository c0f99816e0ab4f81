import Mathlib.Algebra.Order.BigOperators.Group.List
import Mathlib.Algebra.Order.Group.Nat
import Mathlib.Logic.Equiv.Basic
import RegAlloc.Proofs.Allocation.Checked
import RegAlloc.Proofs.Renaming.Pipeline
import RegAlloc.Proofs.Sweep.Registers

/-!
# Allocating from one pool or another

Two pools of the same length differ in nothing but their names, and so do the allocations
from them. What an allocation goes along with is a permutation of all names; that it is
enough to replace the names of the pool is because no others occur in the result. This needs
no look at how the result comes about: an exchange of a foreign name with a fresh one leaves
the pool as it is, and hence the result, so the foreign name was not there.

- `Allocation.names`, `Violation.names` — the names that occur in a result;
- `Options.nodup_registers` — the names of an accepted pool are distinct;
- `exists_perm` — a permutation that takes one pool to the other;
- `Graph.names_allocate` — the names in a result are those of the pool;
- `substitute`, `pool_names_immaterial` — the names of one pool for those of another.
-/

namespace RegAlloc

variable {f g : String → String}

/-! ## The names in a result -/

def Location.names : Location → List String
  | .register name => [name]
  | .slot _ => []

def Interval.names (i : Interval) : List String := (i.location.map Location.names).getD []

def Lifetime.names (life : Lifetime) : List String :=
  life.root.names ++ life.children.flatMap Interval.names

def Move.names (m : Move) : List String := m.source.names ++ m.target.names

def Resolution.names (resolution : Resolution) : List String :=
  resolution.edges.flatMap (·.moves.flatMap Move.names) ++
    resolution.gaps.flatMap (·.moves.flatMap Move.names)

/-- The names that occur in an allocation. -/
def Allocation.names (a : Allocation) : List String :=
  a.liveness.lives.flatMap Lifetime.names ++ a.intervals.flatMap Interval.names ++
    a.registers ++ a.resolution.names

/-- The names that occur in a cause of failure, and the texts of places. -/
def Violation.names : Violation → List String
  | .registerTaken _ _ name => [name]
  | .unknownRegister _ name => [name]
  | .needsRegister _ _ l => l.names
  | .overlap _ _ place _ => [place]
  | .staleMove _ l _ => l.names
  | .lostOnEdge _ l _ => l.names
  | .lostInGap _ l _ => l.names
  | _ => []

/-- The names that occur in the result of an allocation. -/
def resultNames : Except Violation (Outcome Issue Allocation) → List String
  | .ok (.success a _) => a.names
  | .ok (.failure _) => []
  | .error v => v.names

theorem Location.rename_eq_iff (l : Location) :
    l.rename f = l.rename g ↔ ∀ name ∈ l.names, f name = g name := by
  cases l <;> simp [rename, names]

/-- What is known of the elements of a list holds of the list. -/
theorem map_eq_map_iff {α β : Type} {names : α → List String} {h k : α → β}
    (heq : ∀ x, h x = k x ↔ ∀ name ∈ names x, f name = g name) (l : List α) :
    l.map h = l.map k ↔ ∀ name ∈ l.flatMap names, f name = g name := by
  simp only [List.map_inj_left, heq, List.mem_flatMap]
  exact ⟨fun h name ⟨x, hx, hname⟩ => h x hx name hname, fun h x hx name hname =>
    h name ⟨x, hx, hname⟩⟩

theorem Interval.rename_eq_iff (i : Interval) :
    i.rename f = i.rename g ↔ ∀ name ∈ i.names, f name = g name := by
  obtain ⟨id, register, origin, ranges, uses, location⟩ := i
  cases location with
  | none => simp [rename, names]
  | some l => simp [rename, names, l.rename_eq_iff]

theorem Lifetime.rename_eq_iff (life : Lifetime) :
    life.rename f = life.rename g ↔ ∀ name ∈ life.names, f name = g name := by
  rw [names, List.forall_mem_append, ← map_eq_map_iff Interval.rename_eq_iff,
    ← life.root.rename_eq_iff]
  simp [rename]

theorem Move.rename_eq_iff (m : Move) :
    m.rename f = m.rename g ↔ ∀ name ∈ m.names, f name = g name := by
  rw [names, List.forall_mem_append, ← m.source.rename_eq_iff, ← m.target.rename_eq_iff]
  simp [rename]

theorem EdgeMoves.rename_eq_iff (group : EdgeMoves) : group.rename f = group.rename g ↔
    ∀ name ∈ group.moves.flatMap Move.names, f name = g name := by
  rw [← map_eq_map_iff Move.rename_eq_iff]
  simp [rename]

theorem GapMoves.rename_eq_iff (group : GapMoves) : group.rename f = group.rename g ↔
    ∀ name ∈ group.moves.flatMap Move.names, f name = g name := by
  rw [← map_eq_map_iff Move.rename_eq_iff]
  simp [rename]

theorem Resolution.rename_eq_iff (resolution : Resolution) :
    resolution.rename f = resolution.rename g ↔
      ∀ name ∈ resolution.names, f name = g name := by
  rw [names, List.forall_mem_append, ← map_eq_map_iff EdgeMoves.rename_eq_iff,
    ← map_eq_map_iff GapMoves.rename_eq_iff]
  simp [rename]

theorem Allocation.rename_eq_iff (a : Allocation) :
    a.rename f = a.rename g ↔ ∀ name ∈ a.names, f name = g name := by
  rw [names, List.forall_mem_append, List.forall_mem_append, List.forall_mem_append,
    ← map_eq_map_iff Lifetime.rename_eq_iff, ← map_eq_map_iff Interval.rename_eq_iff,
    ← List.map_inj_left, ← a.resolution.rename_eq_iff]
  simp [rename, Liveness.rename, and_assoc]

theorem Violation.rename_eq_iff (v : Violation) :
    v.rename f = v.rename g ↔ ∀ name ∈ v.names, f name = g name := by
  cases v <;> simp [rename, names, Location.rename_eq_iff]

/-- Two changes of names have the same effect on a result exactly if they agree on the names
that occur in it. -/
theorem renamedOutcome_eq_iff (result : Except Violation (Outcome Issue Allocation)) :
    renamedOutcome f result = renamedOutcome g result ↔
      ∀ name ∈ resultNames result, f name = g name := by
  match result with
  | .ok (.success a messages) => simp [resultNames, Outcome.map, a.rename_eq_iff]
  | .ok (.failure messages) => simp [resultNames, Outcome.map]
  | .error v => simp [resultNames, v.rename_eq_iff]

/-! ## Pools -/

/-- The names of an accepted pool are distinct. -/
theorem Options.nodup_registers {options : Options} (h : options.isAcceptable = true) :
    options.registers.Nodup := by
  rw [isAcceptable, List.isEmpty_iff, issues, poolIssues, List.append_eq_nil_iff,
    List.filterMap_eq_nil_iff] at h
  rw [List.Nodup, List.pairwise_iff_getElem]
  intro i j hi hj hij heq
  have hnone := h.2 (options.registers[j], j) (List.mem_zipIdx_iff_getElem?.2 (by simp [hj]))
  have hmem : options.registers[j] ∈ options.registers.take j :=
    List.mem_take_iff_getElem.2 ⟨i, by omega, heq⟩
  simp only [nameIssue?, if_pos hmem] at hnone
  split at hnone <;> cases hnone

/-- Two pools of the same length are the same up to a permutation of names, which can leave all
other names alone. -/
theorem exists_perm {p q : List String} (hp : p.Nodup) (hq : q.Nodup)
    (hlength : p.length = q.length) :
    ∃ f : Equiv.Perm String, p.map f = q ∧ ∀ name, name ∉ p → name ∉ q → f name = name := by
  induction p generalizing q with
  | nil =>
    cases q with
    | nil => exact ⟨Equiv.refl _, rfl, fun _ _ _ => rfl⟩
    | cons => cases hlength
  | cons a p ih =>
    cases q with
    | nil => cases hlength
    | cons b q =>
      rw [List.nodup_cons] at hp hq
      obtain ⟨f, hmap, hfix⟩ := ih hp.2 hq.2 (Nat.succ.inj hlength)
      -- what the rest of the pool is taken to stays, and the first name goes where it should
      refine ⟨f.trans (Equiv.swap (f a) b), ?_, fun name hnotp hnotq => ?_⟩
      · rw [List.map_cons, ← hmap]
        refine congrArg₂ List.cons (Equiv.swap_apply_left _ _) (List.map_congr_left fun x hx => ?_)
        refine Equiv.swap_apply_of_ne_of_ne ?_ ?_
        · exact fun h => hp.1 (f.injective h ▸ hx)
        · exact fun h => hq.1 (hmap ▸ h ▸ List.mem_map_of_mem hx)
      · rw [List.mem_cons, not_or] at hnotp hnotq
        have hname := hfix name hnotp.2 hnotq.2
        refine (congrArg _ hname).trans (Equiv.swap_apply_of_ne_of_ne ?_ hnotq.1)
        exact fun h => hnotp.1 (f.injective (hname.trans h))

/-- There is a name that is new to a list and not the text of a slot. -/
theorem exists_fresh (l : List String) : ∃ name, name ∉ l ∧ ∀ n, name ≠ (Location.slot n).text := by
  -- longer than all names of the list together, and without a bracket in front
  let length := (l.map String.length).sum + 1
  let name := String.ofList (List.replicate length 'r')
  have hnamed : Location.Named [name] :=
    Location.named_of_head (by simp [name, length, List.replicate_succ])
  refine ⟨name, fun hmem => ?_, hnamed name (List.mem_singleton_self name)⟩
  have hle : name.length ≤ (l.map String.length).sum :=
    List.le_sum_of_mem (List.mem_map_of_mem hmem)
  have hlength : name.length = length := by simp [name]
  omega

/-- Only names of the pool occur in the result of an allocation, besides texts of slots in
what a check has to say. -/
theorem Graph.names_allocate (graph : Graph) {options : Options}
    (haccepted : options.isAcceptable = true) {name : String}
    (hname : name ∈ resultNames (graph.allocate options)) :
    name ∈ options.registers ∨
      options.verify = true ∧ ∃ n, name = (Location.slot n).text := by
  by_contra hforeign
  rw [not_or, not_and, not_exists] at hforeign
  obtain ⟨hpool, hslot⟩ := hforeign
  obtain ⟨fresh, hfresh, hfreshSlot⟩ := exists_fresh (name :: options.registers)
  rw [List.mem_cons, not_or] at hfresh
  -- exchanging a name that is not in the pool changes nothing in the pool
  have hsame : options.registers.map (Equiv.swap name fresh) = options.registers := by
    refine (List.map_congr_left fun x hx => ?_).trans (List.map_id _)
    exact Equiv.swap_apply_of_ne_of_ne (ne_of_mem_of_not_mem hx hpool)
      (ne_of_mem_of_not_mem hx hfresh.2)
  have hexchanged := graph.allocate_rename (Equiv.swap name fresh).injective hsame haccepted
    haccepted fun hverify n => Equiv.swap_apply_of_ne_of_ne
      (fun h => hslot hverify n h.symm) (hfreshSlot n).symm
  have hkept := graph.allocate_rename Function.injective_id (List.map_id _) haccepted haccepted
    fun _ _ => rfl
  -- so the run is its own image, and the name cannot occur in it
  have hagree := (renamedOutcome_eq_iff _).1 (hexchanged.symm.trans hkept) name hname
  rw [Equiv.swap_apply_left] at hagree
  exact hfresh.1 hagree

/-- The names of the pool `q` for those of the pool `p`, each for the one in its place. -/
def substitute (p q : List String) (name : String) : String := ((p.zip q).lookup name).getD name

theorem substitute_eq {p q : List String} (hp : p.Nodup) (hmap : p.map f = q) {name : String}
    (hname : name ∈ p) : substitute p q name = f name := by
  subst hmap
  have hkeys : (p.map fun x => x).Nodup := by rwa [List.map_id']
  have hlookup : (p.zip (p.map f)).lookup name = some (f name) := by
    rw [← List.map_prod_left_eq_zip]
    exact Table.lookup_map hkeys name hname
  rw [substitute, hlookup, Option.getD_some]

theorem substitute_of_notMem {p q : List String} {name : String} (hname : name ∉ p) :
    substitute p q name = name := by
  have hlookup : (p.zip q).lookup name = none := by
    rw [List.lookup_eq_none_iff]
    rintro ⟨a, b⟩ hab
    have hmem : a ∈ p := (List.of_mem_zip hab).1
    have hne : name ≠ a := fun heq => hname (heq ▸ hmem)
    simpa using hne
  rw [substitute, hlookup, Option.getD_none]

/-! ## One pool for another -/

/-- A check can only refuse a result; it does not change one. -/
theorem LinearOrder.allocate_unchecked {order : LinearOrder} {options : Options}
    {outcome : Outcome Issue Allocation} (haccepted : options.isAcceptable = true)
    (h : order.allocate options = .ok outcome) :
    order.allocate { options with verify := false } = .ok outcome := by
  have haccepted' : ({ options with verify := false } : Options).isAcceptable = true := haccepted
  unfold allocate at h ⊢
  rw [Options.resolve_eq haccepted] at h
  rw [Options.resolve_eq haccepted']
  obtain ⟨analysed, hanalysed, h⟩ := bind_eq_ok.1 h
  refine bind_eq_ok.2 ⟨analysed, hanalysed, ?_⟩
  cases analysed with
  | failure messages => exact h
  | success liveness messages =>
    obtain ⟨swept, hswept, h⟩ := bind_eq_ok.1 h
    obtain ⟨a, hresolved, h⟩ := bind_eq_ok.1 h
    refine bind_eq_ok.2 ⟨swept, hswept, bind_eq_ok.2 ⟨a, hresolved, ?_⟩⟩
    -- the check returns nothing, so a result that passes it is the result
    by_cases hverify : options.verify = true
    · rw [if_pos hverify] at h
      obtain ⟨_, -, h⟩ := bind_eq_ok.1 h
      exact h
    · rw [if_neg hverify] at h
      exact h

theorem Graph.allocate_unchecked {graph : Graph} {options : Options}
    {outcome : Outcome Issue Allocation} (haccepted : options.isAcceptable = true)
    (h : graph.allocate options = .ok outcome) :
    graph.allocate { options with verify := false } = .ok outcome := by
  have haccepted' : ({ options with verify := false } : Options).isAcceptable = true := haccepted
  unfold allocate at h ⊢
  rw [Options.resolve_eq haccepted] at h
  rw [Options.resolve_eq haccepted']
  obtain ⟨ordered, hordered, h⟩ := bind_eq_ok.1 h
  refine bind_eq_ok.2 ⟨ordered, hordered, ?_⟩
  cases ordered with
  | failure messages => exact h
  | success order messages =>
    obtain ⟨found, hfound, h⟩ := bind_eq_ok.1 h
    exact bind_eq_ok.2 ⟨found, LinearOrder.allocate_unchecked haccepted hfound, h⟩

/-- Pools of the same length give the same outcome up to the names, if nothing is checked or no
name can be taken for a slot. -/
theorem Graph.allocate_substitute (graph : Graph) (options : Options) {q : List String}
    (hp : options.isAcceptable = true)
    (hq : ({ options with registers := q } : Options).isAcceptable = true)
    (hlength : options.registers.length = q.length)
    (hnamed : options.verify = true → Location.Named options.registers ∧ Location.Named q) :
    graph.allocate { options with registers := q } =
      renamedOutcome (substitute options.registers q) (graph.allocate options) := by
  have hnodup := Options.nodup_registers hp
  obtain ⟨f, hmap, hfix⟩ := exists_perm hnodup (Options.nodup_registers hq) hlength
  have hslot : options.verify = true → ∀ n, (Location.slot n).text ∉ options.registers ∧
      (Location.slot n).text ∉ q := fun hverify n =>
    ⟨fun h => (hnamed hverify).1 _ h n rfl, fun h => (hnamed hverify).2 _ h n rfl⟩
  rw [graph.allocate_rename f.injective hmap hp hq fun hverify n =>
    hfix _ (hslot hverify n).1 (hslot hverify n).2, renamedOutcome_eq_iff]
  intro name hname
  obtain hpool | ⟨hverify, n, rfl⟩ := graph.names_allocate hp hname
  · exact (substitute_eq hnodup hmap hpool).symm
  · obtain ⟨hnotp, hnotq⟩ := hslot hverify n
    rw [hfix _ hnotp hnotq, substitute_of_notMem hnotp]

/-- The names of registers mean nothing to an allocation: from two accepted pools of the same
length it has the same outcome, with the names of one for those of the other. The one exception
is a check that takes a register for a slot, because the register is called what the slot is
printed as, and refuses the result for that. -/
theorem pool_names_immaterial (graph : Graph) (regClass : Option String) (verify : Bool)
    {p q : List String} (hp : ({ registers := p, regClass, verify } : Options).isAcceptable = true)
    (hq : ({ registers := q, regClass, verify } : Options).isAcceptable = true)
    (hlength : p.length = q.length) :
    graph.allocate { registers := q, regClass, verify } =
        renamedOutcome (substitute p q) (graph.allocate { registers := p, regClass, verify }) ∨
      verify = true ∧ ¬(Location.Named p ∧ Location.Named q) ∧
        ∃ pool ∈ [p, q], ∃ v,
          graph.allocate { registers := pool, regClass, verify } = .error v := by
  by_cases hnamed : verify = true → Location.Named p ∧ Location.Named q
  · exact .inl (graph.allocate_substitute _ hp hq hlength hnamed)
  rw [Classical.not_imp] at hnamed
  -- two results that pass the check are those without it
  cases hleft : graph.allocate { registers := p, regClass, verify } with
  | error v => exact .inr ⟨hnamed.1, hnamed.2, p, by simp, v, hleft⟩
  | ok outcome =>
    cases hright : graph.allocate { registers := q, regClass, verify } with
    | error v => exact .inr ⟨hnamed.1, hnamed.2, q, by simp, v, hright⟩
    | ok other =>
      have hunchecked := graph.allocate_substitute { registers := p, regClass, verify := false }
        hp hq hlength (by simp)
      refine .inl ?_
      rw [← Graph.allocate_unchecked hp hleft, ← Graph.allocate_unchecked hq hright]
      exact hunchecked

/-- Two names that change places. -/
theorem pool_names_immaterial_twoValues :
    twoValues.allocate { registers := ["b", "a"] } =
        renamedOutcome (substitute ["a", "b"] ["b", "a"])
          (twoValues.allocate { registers := ["a", "b"] }) ∧
      ∃ a messages, twoValues.allocate { registers := ["a", "b"] } = .ok (.success a messages) := by
  refine ⟨?_, _, _, rfl⟩
  refine (pool_names_immaterial twoValues none true (by decide) (by decide) rfl).resolve_right ?_
  rintro ⟨-, hnamed, -⟩
  exact hnamed ⟨Location.named_of_head (by decide), Location.named_of_head (by decide)⟩

/-- A register that is called what a slot is printed as is taken for the slot. -/
theorem pool_names_collide_twoValues :
    ({ registers := ["[slot 0]"] } : Options).isAcceptable = true ∧
    (∃ a messages, twoValues.allocate { registers := ["r0"] } = .ok (.success a messages)) ∧
    twoValues.allocate { registers := ["[slot 0]"] } = .error (.overlap 1 2 "[slot 0]" 3) := by
  refine ⟨by decide, ⟨_, _, rfl⟩, ?_⟩
  decide

end RegAlloc
