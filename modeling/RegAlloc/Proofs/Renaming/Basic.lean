import Mathlib.Logic.Function.Basic
import RegAlloc.Check
import RegAlloc.Runs

/-!
# New names for registers

The names of physical registers mean nothing to the allocator: it only asks whether two of
them are the same. A function on names acts on everything that mentions a register, and if
it maps different names to different names, then all that is computed from renamed data is
the renamed result. This module has the action and what every later proof of that kind
needs of it.

- `Location.rename`, `Interval.rename`, `Lifetime.rename`, `Violation.rename` — the action;
- `renamed` — its effect on a result, which is a value or the cause of a failure;
- `renamed_bind`, `renamed_foldlM`, `renamed_mapM`, `renamed_forM` — computations in parts;
- `lookup_mapKeys`, `put_mapKeys` — tables whose keys are names;
- `insertBefore_map`, `sortBy_map`, `meetingOrder_map` — sorting does not look at names.
-/

namespace RegAlloc

variable {f : String → String}

/-! ## The action -/

/-- A location, with registers under new names. -/
def Location.rename (f : String → String) : Location → Location
  | .register name => .register (f name)
  | .slot index => .slot index

/-- An interval in the renamed location. -/
def Interval.rename (f : String → String) (i : Interval) : Interval :=
  { i with location := i.location.map (Location.rename f) }

/-- A lifetime with all its pieces in renamed locations. -/
def Lifetime.rename (f : String → String) (life : Lifetime) : Lifetime :=
  { root := life.root.rename f, children := life.children.map (Interval.rename f) }

/-- The same cause, with registers under new names. -/
def Violation.rename (f : String → String) : Violation → Violation
  | .registerTaken i p name => .registerTaken i p (f name)
  | .unknownRegister i name => .unknownRegister i (f name)
  | .needsRegister r p l => .needsRegister r p (l.rename f)
  | .overlap i j place p => .overlap i j (f place) p
  | .staleMove r l held => .staleMove r (l.rename f) held
  | .lostOnEdge r l edge => .lostOnEdge r (l.rename f) edge
  | .lostInGap r l gap => .lostInGap r (l.rename f) gap
  | v => v

/-! ## Results -/

section

variable {α α' β β' : Type}

/-- A result under new names: the value changed by `g`, or the renamed cause of failure. -/
def renamed (f : String → String) (g : α → β) : Except Violation α → Except Violation β
  | .ok a => .ok (g a)
  | .error v => .error (v.rename f)

/-- The same for a check, which has no value. -/
abbrev renamedCheck (f : String → String) : Except Violation Unit → Except Violation Unit :=
  renamed f id

@[simp] theorem renamed_ok (g : α → β) (a : α) : renamed f g (.ok a) = .ok (g a) := rfl

@[simp] theorem renamed_error (g : α → β) (v : Violation) :
    renamed f g (.error v) = .error (v.rename f) := rfl

@[simp] theorem renamed_pure (g : α → β) (a : α) : renamed f g (pure a) = pure (g a) := rfl

@[simp] theorem renamed_throw (g : α → β) (v : Violation) :
    renamed f g (throw v) = throw (v.rename f) := rfl

/-- A choice that does not depend on names. -/
theorem renamed_ite {g : α → β} {c c' : Prop} [Decidable c] [Decidable c']
    {x y : Except Violation α} {x' y' : Except Violation β} (hc : c' ↔ c)
    (hx : x' = renamed f g x) (hy : y' = renamed f g y) :
    (if c' then x' else y') = renamed f g (if c then x else y) := by
  by_cases h : c
  · rw [if_pos h, if_pos (hc.2 h), hx]
  · rw [if_neg h, if_neg (fun h' => h (hc.1 h')), hy]

/-- Two computations in sequence. -/
theorem renamed_bind {x : Except Violation α} {x' : Except Violation α'}
    {k : α → Except Violation β} {k' : α' → Except Violation β'} {g : α → α'} {h : β → β'}
    (hx : x' = renamed f g x) (hk : ∀ a, k' (g a) = renamed f h (k a)) :
    (x' >>= k') = renamed f h (x >>= k) := by
  subst hx
  cases x with
  | ok a => exact hk a
  | error v => rfl

/-- The elements with a property that a change of the list keeps. -/
theorem filter_map_hom (g : α → β) {p : α → Bool} {p' : β → Bool} (h : ∀ x, p' (g x) = p x)
    (l : List α) : (l.map g).filter p' = (l.filter p).map g := by
  rw [List.filter_map, funext h (f := p' ∘ g)]

/-- The first element with a property that a change of the list keeps. -/
theorem find?_map_hom (g : α → β) {p : α → Bool} {p' : β → Bool} (h : ∀ x, p' (g x) = p x)
    (l : List α) : (l.map g).find? p' = (l.find? p).map g := by
  rw [List.find?_map, funext h (f := p' ∘ g)]

/-- A fold over a list, if each of its steps goes along with a change of the list. -/
theorem foldl_map_hom {step : α → β → α} {step' : α' → β' → α'} {g : α → α'} {h : β → β'}
    (hstep : ∀ a b, step' (g a) (h b) = g (step a b)) (l : List β) (a : α) :
    (l.map h).foldl step' (g a) = g (l.foldl step a) := by
  rw [List.foldl_map]
  exact List.foldl_hom g hstep

/-- A loop over a list. -/
theorem renamed_foldlM {step : α → β → Except Violation α} {step' : α' → β' → Except Violation α'}
    {g : α → α'} {h : β → β'} (hstep : ∀ a b, step' (g a) (h b) = renamed f g (step a b))
    (l : List β) (a : α) : (l.map h).foldlM step' (g a) = renamed f g (l.foldlM step a) := by
  induction l generalizing a with
  | nil => rfl
  | cons b rest ih =>
    rw [List.map_cons, List.foldlM_cons, List.foldlM_cons]
    exact renamed_bind (hstep a b) ih

/-- A loop over a list that has no names. -/
theorem renamed_foldlM_self {step : α → β → Except Violation α}
    {step' : α' → β → Except Violation α'} {g : α → α'}
    (hstep : ∀ a b, step' (g a) b = renamed f g (step a b)) (l : List β) (a : α) :
    l.foldlM step' (g a) = renamed f g (l.foldlM step a) := by
  have hmap := renamed_foldlM (h := id) hstep l a
  rwa [List.map_id] at hmap

/-- A loop over a list that has no names, from its end. -/
theorem renamed_foldrM_self {step : β → α → Except Violation α}
    {step' : β → α' → Except Violation α'} {g : α → α'}
    (hstep : ∀ b a, step' b (g a) = renamed f g (step b a)) (l : List β) (a : α) :
    l.foldrM step' (g a) = renamed f g (l.foldrM step a) := by
  rw [← List.foldlM_reverse, ← List.foldlM_reverse]
  exact renamed_foldlM_self (fun a b => hstep b a) l.reverse a

/-- The results for all elements of a list. -/
theorem renamed_mapM {k : α → Except Violation β} {k' : α' → Except Violation β'} {g : α → α'}
    {h : β → β'} (hk : ∀ a, k' (g a) = renamed f h (k a)) (l : List α) :
    (l.map g).mapM k' = renamed f (List.map h) (l.mapM k) := by
  induction l with
  | nil => rfl
  | cons a rest ih =>
    rw [List.map_cons, List.mapM_cons, List.mapM_cons]
    exact renamed_bind (hk a) fun b => renamed_bind ih fun bs => rfl

/-- The results for all elements of a list that has no names. -/
theorem renamed_mapM_self {k : α → Except Violation β} {k' : α → Except Violation β'} {h : β → β'}
    (hk : ∀ a, k' a = renamed f h (k a)) (l : List α) :
    l.mapM k' = renamed f (List.map h) (l.mapM k) := by
  have hmap := renamed_mapM (g := id) hk l
  rwa [List.map_id] at hmap

/-- A check of all elements of a list. -/
theorem renamed_forM {k : α → Except Violation Unit} {k' : α' → Except Violation Unit}
    {g : α → α'} (hk : ∀ a, k' (g a) = renamedCheck f (k a)) (l : List α) :
    (l.map g).forM k' = renamedCheck f (l.forM k) := by
  induction l with
  | nil => rfl
  | cons a rest ih =>
    rw [List.map_cons, List.forM, List.forM]
    exact renamed_bind (hk a) fun _ => ih

/-- A check of all elements of a list that has no names. -/
theorem renamed_forM_self {k k' : α → Except Violation Unit}
    (hk : ∀ a, k' a = renamedCheck f (k a)) (l : List α) :
    l.forM k' = renamedCheck f (l.forM k) := by
  have hmap := renamed_forM (g := id) hk l
  rwa [List.map_id] at hmap

/-! ## Tables -/

section

variable {κ κ' ν ν' : Type} [BEq κ] [LawfulBEq κ] [BEq κ'] [LawfulBEq κ'] {k : κ → κ'}

theorem beq_map (hk : Function.Injective k) (a b : κ) : (k a == k b) = (a == b) := by
  rw [Bool.eq_iff_iff, beq_iff_eq, beq_iff_eq, hk.eq_iff]

theorem lookup_mapKeys (hk : Function.Injective k) (v : ν → ν') (table : List (κ × ν)) (a : κ) :
    (table.map (Prod.map k v)).lookup (k a) = (table.lookup a).map v := by
  induction table with
  | nil => rfl
  | cons entry rest ih =>
    rw [List.map_cons, List.lookup_cons, List.lookup_cons, Prod.map_fst, beq_map hk, ih]
    cases a == entry.1 <;> rfl

theorem put_mapKeys (hk : Function.Injective k) (v : ν → ν') (table : List (κ × ν)) (a : κ)
    (value : ν) : Table.put (table.map (Prod.map k v)) (k a) (v value) =
      (Table.put table a value).map (Prod.map k v) := by
  induction table with
  | nil => rfl
  | cons entry rest ih =>
    obtain ⟨b, old⟩ := entry
    rw [List.map_cons, Prod.map_apply, Table.put, Table.put, beq_map hk, ih]
    cases a == b <;> rfl

end

/-! ## Sorting -/

theorem insertBefore_map {g : α → β} {later : α → Bool} {later' : β → Bool} (x : α)
    (hlater : ∀ y, later' (g y) = later y) (l : List α) :
    insertBefore later' (g x) (l.map g) = (insertBefore later x l).map g := by
  induction l with
  | nil => rfl
  | cons y ys ih =>
    rw [List.map_cons, insertBefore, insertBefore, hlater]
    split
    · rfl
    · rw [ih, List.map_cons]

theorem sortBy_map {g : α → β} {before : α → α → Bool} {before' : β → β → Bool}
    (hbefore : ∀ x y, before' (g x) (g y) = before x y) (l : List α) :
    sortBy before' (l.map g) = (sortBy before l).map g := by
  exact foldl_map_hom (g := List.map g) (h := g)
    (fun sorted x => insertBefore_map x (hbefore x) sorted) l []

theorem extent_map {g : α → β} {before : α → α → Bool} {before' : β → β → Bool}
    (hbefore : ∀ x y, before' (g x) (g y) = before x y) (descending : Bool) (last : α)
    (l : List α) :
    Runs.extent before' descending (g last) (l.map g) = Runs.extent before descending last l := by
  induction l generalizing last with
  | nil => rfl
  | cons x rest ih => rw [List.map_cons, Runs.extent, Runs.extent, hbefore, ih]

theorem meetingsFrom_map {g : α → β} {before : α → α → Bool} {before' : β → β → Bool}
    (hbefore : ∀ x y, before' (g x) (g y) = before x y) (least fuel : Nat) (met : Bool)
    (l : List α) : Runs.meetingsFrom before' least fuel met (l.map g) =
      (Runs.meetingsFrom before least fuel met l).map g := by
  induction fuel generalizing met l with
  | zero => rfl
  | succ fuel ih =>
    match l with
    | [] => rfl
    | [x] => rfl
    | x :: y :: rest =>
      rw [List.map_cons, List.map_cons, Runs.meetingsFrom, Runs.meetingsFrom]
      simp only [hbefore, extent_map hbefore, List.map_append, ← List.map_take, ← List.map_drop, ih]
      cases met <;> rfl

/-- The order in which a sort looks at elements. -/
theorem meetingOrder_map {g : α → β} {before : α → α → Bool} {before' : β → β → Bool}
    (hbefore : ∀ x y, before' (g x) (g y) = before x y) (l : List α) :
    Runs.meetingOrder before' (l.map g) = (Runs.meetingOrder before l).map g := by
  rw [Runs.meetingOrder, Runs.meetingOrder, List.length_map, meetingsFrom_map hbefore]

end

/-! ## Locations and intervals -/

theorem Location.rename_inj (hf : Function.Injective f) {l m : Location} :
    l.rename f = m.rename f ↔ l = m := by
  cases l <;> cases m <;> simp [rename, hf.eq_iff]

theorem Location.rename_beq (hf : Function.Injective f) (l m : Location) :
    (l.rename f == m.rename f) = (l == m) := by
  exact beq_map (fun _ _ => (rename_inj hf).1) l m

theorem Location.register?_rename (l : Location) : (l.rename f).register? = l.register?.map f := by
  cases l <;> rfl

namespace Interval

@[simp] theorem rename_id (i : Interval) : (i.rename f).id = i.id := rfl

@[simp] theorem rename_register (i : Interval) : (i.rename f).register = i.register := rfl

@[simp] theorem rename_origin (i : Interval) : (i.rename f).origin = i.origin := rfl

@[simp] theorem rename_ranges (i : Interval) : (i.rename f).ranges = i.ranges := rfl

@[simp] theorem rename_uses (i : Interval) : (i.rename f).uses = i.uses := rfl

@[simp] theorem rename_location (i : Interval) :
    (i.rename f).location = i.location.map (Location.rename f) := rfl

@[simp] theorem rename_start (i : Interval) : (i.rename f).start = i.start := rfl

@[simp] theorem rename_stop (i : Interval) : (i.rename f).stop = i.stop := rfl

@[simp] theorem rename_covers (i : Interval) (p : Position) :
    (i.rename f).covers p = i.covers p := rfl

@[simp] theorem rename_meets (i j : Interval) : (i.rename f).meets (j.rename f) = i.meets j := rfl

@[simp] theorem rename_touches (i j : Interval) :
    (i.rename f).touches (j.rename f) = i.touches j := rfl

theorem register?_rename (i : Interval) : (i.rename f).register? = i.register?.map f := by
  simp only [register?, rename_location]
  cases i.location with
  | none => rfl
  | some l => exact l.register?_rename

theorem isIn_rename (hf : Function.Injective f) (i : Interval) (name : String) :
    (i.rename f).isIn (f name) = i.isIn name := by
  simp only [isIn, rename_location]
  cases i.location with
  | none => rfl
  | some l => cases l <;> simp [Location.rename, hf.eq_iff]

theorem locate_rename (i : Interval) :
    (i.rename f).locate = renamed f (Location.rename f) i.locate := by
  simp only [locate, rename_location]
  cases i.location <;> rfl

theorem addRange_rename (i : Interval) (start stop : Position) :
    (i.rename f).addRange start stop = renamed f (Interval.rename f) (i.addRange start stop) := by
  exact renamed_ite Iff.rfl rfl rfl

theorem checkNonempty_rename (i : Interval) :
    (i.rename f).checkNonempty = renamedCheck f i.checkNonempty := by
  exact renamed_ite Iff.rfl rfl rfl

theorem split_rename (i : Interval) (p : Position) (id : IntervalId) :
    (i.rename f).split p id =
      renamed f (Prod.map (Interval.rename f) (Interval.rename f)) (i.split p id) := by
  exact renamed_bind i.checkNonempty_rename fun _ => renamed_ite Iff.rfl rfl rfl

end Interval

/-- The lifetimes as they were before anything was split. -/
theorem roots_rename (lives : List Lifetime) : (lives.map (Lifetime.rename f)).map (·.root) =
    (lives.map (·.root)).map (Interval.rename f) := by
  rw [List.map_map, List.map_map]
  rfl

end RegAlloc
