/-!
# What a computation that may fail ensures

A stage either returns a value or stops with a cause. A statement about a stage says
both what holds of the value it returns and which causes it may stop with.

- `Ensures x P E` — a value of `x` satisfies `P`, and a cause of failure satisfies `E`;
- `Ensures.bind`, `Ensures.foldlM`, `Ensures.foldlM_taken` — the statement for computations in
  sequence;
- `bind_eq_ok`, `forM_eq_ok`, `mem_of_mapM_eq_ok` — what a successful sequence went through;
- `mapM_eq_ok_map`, `mapM_eq_ok_filterMap`, `foldlM_eq_ok_foldl` — sequences in which no step fails.
-/

namespace RegAlloc

universe u v w x

variable {ε : Type u} {α : Type v} {β : Type w}

/-- A returned value satisfies `P`, and a cause of failure satisfies `E`. -/
def Ensures (x : Except ε α) (P : α → Prop) (E : ε → Prop) : Prop :=
  match x with
  | .ok a => P a
  | .error e => E e

namespace Ensures

@[simp] theorem ok {a : α} {P : α → Prop} {E : ε → Prop} :
    Ensures (.ok a) P E ↔ P a := Iff.rfl

@[simp] theorem error {e : ε} {P : α → Prop} {E : ε → Prop} :
    Ensures (.error e) P E ↔ E e := Iff.rfl

theorem trivially (x : Except ε α) : Ensures x (fun _ => True) fun _ => True := by
  cases x <;> trivial

theorem mono {x : Except ε α} {P Q : α → Prop} {E : ε → Prop} (h : Ensures x P E)
    (hPQ : ∀ a, P a → Q a) : Ensures x Q E := by
  cases x with
  | ok a => exact hPQ a h
  | error e => exact h

theorem mono_error {x : Except ε α} {P : α → Prop} {E F : ε → Prop} (h : Ensures x P E)
    (hEF : ∀ e, E e → F e) : Ensures x P F := by
  cases x with
  | ok a => exact h
  | error e => exact hEF e h

/-- What one computation ensures is what the next may rely on. -/
theorem bind {α β : Type v} {x : Except ε α} {f : α → Except ε β} {P : α → Prop} {Q : β → Prop}
    {E : ε → Prop} (hx : Ensures x P E) (hf : ∀ a, P a → Ensures (f a) Q E) :
    Ensures (x >>= f) Q E := by
  cases x with
  | ok a => exact hf a hx
  | error e => exact hx

/-- An invariant of a loop, which may speak of the elements still to come. -/
theorem foldlM {f : α → β → Except ε α} {E : ε → Prop} (I : List β → α → Prop)
    (hstep : ∀ b rest a, I (b :: rest) a → Ensures (f a b) (I rest) E) :
    ∀ {l : List β} {a : α}, I l a → Ensures (l.foldlM f a) (I []) E
  | [], _, h => h
  | b :: rest, a, h => by
    rw [List.foldlM_cons]
    exact bind (hstep b rest a h) fun _ ha => foldlM I hstep ha

/-- An invariant of a loop that speaks of the elements taken so far. -/
theorem foldlM_taken {f : α → β → Except ε α} {E : ε → Prop} {l : List β} (I : List β → α → Prop)
    (hstep : ∀ taken, ∀ b ∈ l, ∀ a, I taken a → Ensures (f a b) (I (taken ++ [b])) E) {a : α}
    (h : I [] a) : Ensures (l.foldlM f a) (I l) E := by
  refine (foldlM (fun rest a => ∃ taken, l = taken ++ rest ∧ I taken a) ?_ ⟨[], rfl, h⟩).mono ?_
  · rintro b rest a ⟨taken, rfl, ha⟩
    refine (hstep taken b (by simp) a ha).mono fun next hnext => ?_
    exact ⟨taken ++ [b], by simp, hnext⟩
  · rintro a ⟨taken, rfl, ha⟩
    rwa [List.append_nil]

/-- What is ensured of each element holds of all the results. -/
theorem mapM {α β : Type v} {f : α → Except ε β} {P : β → Prop} {E : ε → Prop} :
    ∀ {l : List α}, (∀ a ∈ l, Ensures (f a) P E) → Ensures (l.mapM f) (∀ b ∈ ·, P b) E
  | [], _ => by simp [pure, Except.pure]
  | a :: l, h => by
    rw [List.mapM_cons]
    refine bind (h a (by simp)) fun b hb =>
      bind (mapM fun c hc => h c (by simp [hc])) fun bs hbs => ?_
    exact List.forall_mem_cons.2 ⟨hb, hbs⟩

/-- Checks one after the other stop for the causes for which one of them does. -/
theorem forM {f : α → Except ε PUnit} {E : ε → Prop} {l : List α}
    (h : ∀ a ∈ l, Ensures (f a) (fun _ => True) E) : Ensures (l.forM f) (fun _ => True) E := by
  induction l with
  | nil => trivial
  | cons a l ih =>
    obtain ⟨ha, hl⟩ := List.forall_mem_cons.1 h
    exact bind ha fun _ _ => ih hl

/-- A value that is returned has what is ensured of it. -/
theorem of_eq_ok {x : Except ε α} {a : α} {P : α → Prop} {E : ε → Prop} (h : Ensures x P E)
    (hx : x = .ok a) : P a := by
  subst hx
  exact h

/-- A cause of failure is one of those expected. -/
theorem of_eq_error {x : Except ε α} {e : ε} {P : α → Prop} {E : ε → Prop} (h : Ensures x P E)
    (hx : x = .error e) : E e := by
  subst hx
  exact h

/-- A computation that has no cause of failure returns a value. -/
theorem exists_ok {x : Except ε α} {P : α → Prop} (h : Ensures x P fun _ => False) :
    ∃ a, x = .ok a ∧ P a := by
  cases x with
  | ok a => exact ⟨a, rfl, h⟩
  | error e => exact h.elim

end Ensures

/-- A sequence returns a value exactly when each of its parts does. -/
theorem bind_eq_ok {α β : Type v} {x : Except ε α} {f : α → Except ε β} {b : β} :
    (x >>= f) = .ok b ↔ ∃ a, x = .ok a ∧ f a = .ok b := by
  cases x with
  | ok a => simp [Bind.bind, Except.bind]
  | error e => simp [Bind.bind, Except.bind]

/-- A check of every element succeeds exactly when each of them does. -/
theorem forM_eq_ok {f : α → Except ε PUnit} {l : List α} :
    l.forM f = .ok ⟨⟩ ↔ ∀ a ∈ l, f a = .ok ⟨⟩ := by
  induction l with
  | nil => exact ⟨fun _ _ ha => by simp at ha, fun _ => rfl⟩
  | cons a l ih =>
    rw [List.forM, bind_eq_ok, List.forall_mem_cons, ← ih]
    exact ⟨fun ⟨_, ha, hl⟩ => ⟨ha, hl⟩, fun ⟨ha, hl⟩ => ⟨⟨⟩, ha, hl⟩⟩

/-- Computations that all return values return the list of them. -/
theorem mapM_eq_ok_map {α β : Type v} {f : α → Except ε β} {g : α → β} :
    ∀ {l : List α}, (∀ a ∈ l, f a = .ok (g a)) → l.mapM f = .ok (l.map g)
  | [], _ => rfl
  | a :: l, h => by
    rw [List.mapM_cons, h a (by simp), mapM_eq_ok_map fun b hb => h b (by simp [hb])]
    rfl

/-- Computations that return what is looked for return the list of what is found. -/
theorem mapM_eq_ok_filterMap {α β : Type v} {f : α → Except ε β} {g : α → Option β} :
    ∀ {l : List α}, (∀ a ∈ l, ∃ b, f a = .ok b ∧ g a = some b) → l.mapM f = .ok (l.filterMap g)
  | [], _ => rfl
  | a :: l, h => by
    obtain ⟨b, hf, hg⟩ := h a (by simp)
    rw [List.mapM_cons, hf, mapM_eq_ok_filterMap fun c hc => h c (by simp [hc]),
      List.filterMap_cons_some hg]
    rfl

/-- A loop whose steps all return returns, and follows a loop without failures whose state it
views. -/
theorem foldlM_eq_ok_foldl {α : Type v} {β : Type w} {γ : Type x} (view : γ → α)
    {f : α → β → Except ε α} {g : γ → β → γ} :
    ∀ {l : List β}, (∀ c, ∀ b ∈ l, f (view c) b = .ok (view (g c b))) →
      ∀ c, l.foldlM f (view c) = .ok (view (l.foldl g c))
  | [], _, _ => rfl
  | b :: l, h, c => by
    rw [List.foldlM_cons, h c b (by simp), List.foldl_cons]
    exact foldlM_eq_ok_foldl view (fun c b hb => h c b (by simp [hb])) (g c b)

/-- Computations return a list exactly when all of them return values. -/
theorem exists_mapM_eq_ok {α β : Type v} {f : α → Except ε β} :
    ∀ {l : List α}, (∃ bs, l.mapM f = .ok bs) ↔ ∀ a ∈ l, ∃ b, f a = .ok b
  | [] => ⟨fun _ _ ha => by simp at ha, fun _ => ⟨[], rfl⟩⟩
  | a :: l => by
    rw [List.mapM_cons, List.forall_mem_cons, ← exists_mapM_eq_ok]
    constructor
    · rintro ⟨_, h⟩
      obtain ⟨b, hb, h⟩ := bind_eq_ok.1 h
      obtain ⟨bs, hbs, -⟩ := bind_eq_ok.1 h
      exact ⟨⟨b, hb⟩, bs, hbs⟩
    · rintro ⟨⟨b, hb⟩, bs, hbs⟩
      exact ⟨b :: bs, bind_eq_ok.2 ⟨b, hb, bind_eq_ok.2 ⟨bs, hbs, rfl⟩⟩⟩

/-- The values that computations return one after the other. -/
theorem mem_of_mapM_eq_ok {α β : Type v} {f : α → Except ε β} {b : β} :
    ∀ {l : List α} {bs : List β}, l.mapM f = .ok bs → (b ∈ bs ↔ ∃ a ∈ l, f a = .ok b)
  | [], bs, h => by
    cases h
    simp
  | a :: l, bs, h => by
    rw [List.mapM_cons, bind_eq_ok] at h
    obtain ⟨c, hc, h⟩ := h
    rw [bind_eq_ok] at h
    obtain ⟨cs, hcs, ⟨⟩⟩ := h
    simp [mem_of_mapM_eq_ok hcs, hc, eq_comm]

/-- A relation between elements that computations carry over holds among the values that they
return. -/
theorem pairwise_of_mapM_eq_ok {α β : Type v} {f : α → Except ε β} {R : α → α → Prop}
    {S : β → β → Prop} (hf : ∀ a a' b b', R a a' → f a = .ok b → f a' = .ok b' → S b b') :
    ∀ {l : List α} {bs : List β}, l.mapM f = .ok bs → l.Pairwise R → bs.Pairwise S
  | [], bs, h, _ => by
    cases h
    exact .nil
  | a :: l, bs, h, hl => by
    rw [List.mapM_cons, bind_eq_ok] at h
    obtain ⟨b, hb, h⟩ := h
    rw [bind_eq_ok] at h
    obtain ⟨cs, hcs, ⟨⟩⟩ := h
    obtain ⟨hfirst, hrest⟩ := List.pairwise_cons.1 hl
    refine List.pairwise_cons.2 ⟨fun c hc => ?_, pairwise_of_mapM_eq_ok hf hcs hrest⟩
    obtain ⟨a', ha', hc⟩ := (mem_of_mapM_eq_ok hcs).1 hc
    exact hf a a' b c (hfirst a' ha') hb hc

/-- Computations that undo a function `g` return a list exactly if it is the one that `g` takes
to theirs, within the limits that they set. -/
theorem mapM_eq_ok_iff {α β : Type v} {f : α → Except ε β} {g : β → α} {P : β → Prop}
    (hf : ∀ a b, f a = .ok b ↔ a = g b ∧ P b) :
    ∀ {l : List α} {bs : List β}, l.mapM f = .ok bs ↔ l = bs.map g ∧ ∀ b ∈ bs, P b
  | [], bs => by
    cases bs with
    | nil => simp [pure, Except.pure]
    | cons b bs => simp [pure, Except.pure]
  | a :: l, bs => by
    rw [List.mapM_cons, bind_eq_ok]
    simp only [bind_eq_ok, hf, mapM_eq_ok_iff hf]
    constructor
    · rintro ⟨b, ⟨rfl, hb⟩, bs', ⟨rfl, hbs⟩, ⟨⟩⟩
      exact ⟨rfl, List.forall_mem_cons.2 ⟨hb, hbs⟩⟩
    · rintro ⟨hmap, hall⟩
      cases bs with
      | nil => cases hmap
      | cons b bs =>
        cases hmap
        obtain ⟨hb, hbs⟩ := List.forall_mem_cons.1 hall
        exact ⟨b, ⟨rfl, hb⟩, bs, ⟨rfl, hbs⟩, rfl⟩

/-- All results of a search that succeeds for every element. -/
theorem mapM_eq_some {α β : Type v} {γ : Type w} {f : α → Option β} {x : β → γ} {y : α → γ} :
    ∀ {l : List α}, (∀ e ∈ l, ∃ b, f e = some b ∧ x b = y e) →
      ∃ bs, l.mapM f = some bs ∧ bs.map x = l.map y
  | [], _ => ⟨[], rfl, rfl⟩
  | e :: l, hl => by
    obtain ⟨b, hb, hxy⟩ := hl e (by simp)
    obtain ⟨bs, hbs, hmap⟩ := mapM_eq_some fun e he => hl e (List.mem_cons_of_mem _ he)
    exact ⟨b :: bs, by simp [hb, hbs], by simp [hxy, hmap]⟩

end RegAlloc
