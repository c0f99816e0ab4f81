/-!
# Small tables

A table is a list of keys with their values, in the order in which the keys were
first given. A key that is given again keeps its place and takes the new value.
-/

namespace RegAlloc

universe u v

variable {κ : Type u} {ν : Type v} [BEq κ]

namespace Table

/-- Give a key a value. -/
def put (table : List (κ × ν)) (key : κ) (value : ν) : List (κ × ν) :=
  match table with
  | [] => [(key, value)]
  | (k, old) :: rest => if key == k then (k, value) :: rest else (k, old) :: put rest key value

/-- The table of a list of keys and values. -/
def ofPairs (pairs : List (κ × ν)) : List (κ × ν) :=
  pairs.foldl (fun table (key, value) => put table key value) []

/-- Looking up a key finds the value it was last given, and no other key changes. -/
theorem lookup_put [LawfulBEq κ] (table : List (κ × ν)) (key a : κ) (value : ν) :
    (put table key value).lookup a = if a == key then some value else table.lookup a := by
  induction table with
  | nil => simp only [put, List.lookup_cons, List.lookup_nil]; split <;> simp_all
  | cons entry rest ih =>
    obtain ⟨k, old⟩ := entry
    rw [put]
    by_cases h : (key == k) = true
    · rw [if_pos h]
      rw [beq_iff_eq] at h
      subst h
      simp only [List.lookup_cons]
      by_cases ha : (a == key) = true <;> simp [ha]
    · rw [if_neg h]
      simp only [List.lookup_cons, ih]
      by_cases ha : (a == k) = true
      · have : (a == key) = false := by
          rw [beq_iff_eq] at ha h
          exact beq_false_of_ne fun e => h (e ▸ ha)
        simp [ha, this]
      · simp [ha]

/-- What a table contains after a key was given a value. -/
theorem mem_put [LawfulBEq κ] {entry : κ × ν} : ∀ {table : List (κ × ν)} {key : κ} {value : ν},
    entry ∈ put table key value → entry ∈ table ∨ entry = (key, value)
  | [], _, _, h => .inr (List.mem_singleton.1 h)
  | (k, old) :: rest, key, value, h => by
    rw [put] at h
    split at h
    · next hkey =>
      cases beq_iff_eq.1 hkey
      exact (List.mem_cons.1 h).symm.imp_left fun hrest => List.mem_cons_of_mem _ hrest
    · rcases List.mem_cons.1 h with rfl | h
      · exact .inl List.mem_cons_self
      · exact (mem_put h).imp_left fun hrest => List.mem_cons_of_mem _ hrest

/-- A key that is given its value last keeps its place, and a new key takes the last place. -/
theorem put_eq_append [LawfulBEq κ] {front last : List (κ × ν)} {key : κ} (value : ν)
    (hfront : key ∉ front.map (·.1)) (hlast : last = [] ∨ ∃ old, last = [(key, old)]) :
    put (front ++ last) key value = front ++ [(key, value)] := by
  induction front with
  | nil =>
    rcases hlast with rfl | ⟨old, rfl⟩
    · rfl
    · simp [put]
  | cons entry front ih =>
    rw [List.map_cons, List.mem_cons, not_or] at hfront
    have hne : ¬ (key == entry.1) = true := by simpa using hfront.1
    rw [List.cons_append, put, if_neg hne, ih hfront.2]
    rfl

/-- A key is given one place. -/
theorem nodup_put [LawfulBEq κ] : ∀ {table : List (κ × ν)} {key : κ} {value : ν},
    (table.map (·.1)).Nodup → ((put table key value).map (·.1)).Nodup
  | [], _, _, _ => by simp [put]
  | (k, old) :: rest, key, value, h => by
    rw [put]
    split
    · exact h
    · next hkey =>
      rw [List.map_cons, List.nodup_cons] at h ⊢
      refine ⟨fun hmem => ?_, nodup_put h.2⟩
      obtain ⟨entry, hentry, hk⟩ := List.mem_map.1 hmem
      rcases mem_put hentry with hentry | rfl
      · exact h.1 (List.mem_map.2 ⟨entry, hentry, hk⟩)
      · exact hkey (beq_iff_eq.2 hk)

/-- Looking up the key of an element, where different elements have different keys. -/
theorem lookup_map [LawfulBEq κ] {α : Type _} {key : α → κ} {value : α → ν} :
    ∀ {l : List α}, (l.map key).Nodup → ∀ a ∈ l,
      (l.map fun x => (key x, value x)).lookup (key a) = some (value a)
  | b :: rest, hnodup, a, ha => by
    rw [List.map_cons, List.nodup_cons] at hnodup
    rw [List.map_cons, List.lookup_cons]
    rcases List.mem_cons.1 ha with rfl | ha
    · simp
    · have hne : (key a == key b) = false :=
        beq_false_of_ne fun heq => hnodup.1 (heq ▸ List.mem_map_of_mem ha)
      simp only [hne]
      exact lookup_map hnodup.2 a ha

/-- Looking up a key in a table of which some keys are kept. -/
theorem lookup_filter [LawfulBEq κ] (own : κ → Bool) (table : List (κ × ν)) (key : κ) :
    (table.filter fun entry => own entry.1).lookup key =
      if own key then table.lookup key else none := by
  induction table with
  | nil => simp
  | cons entry table ih =>
    obtain ⟨k, value⟩ := entry
    rw [List.filter_cons, List.lookup_cons]
    by_cases hkey : key = k
    · subst hkey
      cases hown : own key with
      | true => simp
      | false => simpa [hown] using ih
    · rw [beq_false_of_ne hkey, ← ih]
      split
      · rw [List.lookup_cons, beq_false_of_ne hkey]
      · rfl

/-- A table is filled from the front of the list of pairs. -/
theorem ofPairs_eq (pairs : List (κ × ν)) :
    ofPairs pairs = pairs.reverse.foldr (fun pair table => put table pair.1 pair.2) [] := by
  rw [List.foldr_reverse]
  rfl

/-- A key has the value that it was given last. -/
theorem lookup_ofPairs [LawfulBEq κ] (pairs : List (κ × ν)) (key : κ) :
    (ofPairs pairs).lookup key = pairs.reverse.lookup key := by
  rw [ofPairs_eq]
  induction pairs.reverse with
  | nil => rfl
  | cons pair earlier ih =>
    rw [List.foldr_cons, lookup_put, ih, List.lookup_cons]
    cases key == pair.1 <;> rfl

theorem nodup_ofPairs [LawfulBEq κ] (pairs : List (κ × ν)) :
    ((ofPairs pairs).map (·.1)).Nodup := by
  rw [ofPairs_eq]
  induction pairs.reverse with
  | nil => exact .nil
  | cons pair earlier ih => exact nodup_put ih

/-- Where every key has one place, the values are those that are found. -/
theorem mem_iff_lookup [LawfulBEq κ] {table : List (κ × ν)} (h : (table.map (·.1)).Nodup)
    {key : κ} {value : ν} : (key, value) ∈ table ↔ table.lookup key = some value := by
  constructor
  · intro hmem
    have hfound : (table.map fun entry => (entry.1, entry.2)).lookup key = some value :=
      lookup_map h (key, value) hmem
    rwa [List.map_id'] at hfound
  · intro hfound
    obtain ⟨before, after, rfl, -⟩ := List.lookup_eq_some_iff.1 hfound
    simp

end Table

end RegAlloc
