import Mathlib.Data.List.Sort
import RegAlloc.Liveness.Analysis
import RegAlloc.Proofs.Sorted

/-!
# Deaths by position

Deaths are collected in the order in which they are found, some of them more than once, and are
then sorted and grouped. The groups are determined by the deaths that are collected, in whatever
order and however often.

- `DeathsGrouped` — a table of deaths, in order;
- `DeathsGrouped.unique` — there is one such table;
- `DeathsGrouped.addKill`, `grouped_groupKills` — grouping makes such a table.
-/

namespace RegAlloc

/-- Whether a death comes no later than another: by position, and then by register. -/
def DiesBy (a b : Position × VReg) : Prop := a.1 < b.1 ∨ (a.1 = b.1 ∧ a.2 ≤ b.2)

/-- A table that has the given deaths, in order, and no empty groups. -/
structure DeathsGrouped (kills : List (Position × VReg)) (table : List (Position × List VReg)) :
    Prop where
  positions : (table.map (·.1)).Pairwise (· < ·)
  registers : ∀ entry ∈ table, entry.2.Pairwise (· < ·)
  nonempty : ∀ entry ∈ table, entry.2 ≠ []
  mem : ∀ p r, (p, r) ∈ kills ↔ ∃ rs, (p, rs) ∈ table ∧ r ∈ rs

namespace DeathsGrouped

variable {kills kills' : List (Position × VReg)} {table table' : List (Position × List VReg)}

theorem nodup (h : DeathsGrouped kills table) : (table.map (·.1)).Nodup :=
  h.positions.imp Int.ne_of_lt

theorem congr (h : DeathsGrouped kills table) (hsame : ∀ kill, kill ∈ kills ↔ kill ∈ kills') :
    DeathsGrouped kills' table :=
  ⟨h.positions, h.registers, h.nonempty, fun p r => (hsame (p, r)).symm.trans (h.mem p r)⟩

/-- Where every position has one group, a register is in the group of its position. -/
theorem mem_group (h : DeathsGrouped kills table) {p : Position} {rs : List VReg}
    (hrs : (p, rs) ∈ table) {r : VReg} : r ∈ rs ↔ (p, r) ∈ kills := by
  rw [h.mem]
  refine ⟨fun hr => ⟨rs, hrs, hr⟩, fun ⟨rs', hrs', hr⟩ => ?_⟩
  cases List.inj_on_of_nodup_map h.nodup hrs hrs' rfl
  exact hr

/-- A table has the positions at which something dies. -/
theorem mem_positions (h : DeathsGrouped kills table) {p : Position} :
    p ∈ table.map (·.1) ↔ ∃ r, (p, r) ∈ kills := by
  constructor
  · intro hp
    obtain ⟨⟨p, rs⟩, hentry, rfl⟩ := List.mem_map.1 hp
    obtain ⟨r, hr⟩ := List.exists_mem_of_ne_nil rs (h.nonempty _ hentry)
    exact ⟨r, (h.mem_group hentry).1 hr⟩
  · rintro ⟨r, hr⟩
    obtain ⟨rs, hrs, -⟩ := (h.mem p r).1 hr
    exact List.mem_map.2 ⟨_, hrs, rfl⟩

/-- The deaths determine the table. -/
theorem unique (h : DeathsGrouped kills table) (h' : DeathsGrouped kills table') :
    table = table' := by
  have hpositions : table.map (·.1) = table'.map (·.1) :=
    h.positions.eq_of_mem_iff h'.positions fun p => h.mem_positions.trans h'.mem_positions.symm
  have hgroups : ∀ entry ∈ table, entry ∈ table' := by
    rintro ⟨p, rs⟩ hentry
    have hp : p ∈ table'.map (·.1) := hpositions ▸ List.mem_map.2 ⟨_, hentry, rfl⟩
    obtain ⟨⟨q, rs'⟩, hentry', rfl⟩ := List.mem_map.1 hp
    have hsame : rs = rs' := (h.registers _ hentry).eq_of_mem_iff (h'.registers _ hentry') fun r =>
      (h.mem_group hentry).trans (h'.mem_group hentry').symm
    exact hsame ▸ hentry'
  -- the same entries at the same positions
  refine List.ext_getElem (by simpa using congrArg List.length hpositions) fun k hk hk' => ?_
  refine List.inj_on_of_nodup_map h'.nodup (hgroups _ (List.getElem_mem hk))
    (List.getElem_mem hk') ?_
  have hkey := congrArg (fun l => l[k]?) hpositions
  simpa [hk, hk'] using hkey

theorem nil : DeathsGrouped [] [] := ⟨.nil, by simp, by simp, by simp⟩

/-- The registers that die at a position. -/
theorem mem_lookup (h : DeathsGrouped kills table) {p : Position} {r : VReg} :
    r ∈ (table.lookup p).getD [] ↔ (p, r) ∈ kills := by
  cases hfound : table.lookup p with
  | none =>
    refine ⟨fun hr => by simp at hr, fun hr => ?_⟩
    obtain ⟨rs, hrs, -⟩ := (h.mem p r).1 hr
    rw [(Table.mem_iff_lookup h.nodup).1 hrs] at hfound
    cases hfound
  | some rs => exact h.mem_group ((Table.mem_iff_lookup h.nodup).2 hfound)

/-- A position that is not before the others can only be the last one. -/
theorem exists_last (h : DeathsGrouped kills table) {p : Position}
    (hlast : ∀ other ∈ kills, other.1 ≤ p) : ∃ front last, table = front ++ last ∧
      (∀ entry ∈ front, entry.1 < p) ∧ (last = [] ∨ ∃ rs, last = [(p, rs)]) := by
  have hle : ∀ entry ∈ table, entry.1 ≤ p := by
    intro entry hentry
    obtain ⟨r, hr⟩ := h.mem_positions.1 (List.mem_map_of_mem hentry)
    exact hlast _ hr
  -- the last position has a group already, or there is none as late
  by_cases hp : p ∈ table.map (·.1)
  · obtain ⟨⟨p, rs⟩, hentry, rfl⟩ := List.mem_map.1 hp
    obtain ⟨front, behind, rfl⟩ := List.append_of_mem hentry
    have hpositions := h.positions
    rw [List.map_append, List.map_cons, List.pairwise_append, List.pairwise_cons] at hpositions
    obtain ⟨-, ⟨hbehind, -⟩, hfront⟩ := hpositions
    refine ⟨front, _, rfl, fun entry hfirst => ?_, .inr ⟨rs, ?_⟩⟩
    · exact hfront _ (List.mem_map_of_mem hfirst) _ List.mem_cons_self
    · -- nothing stands behind the last position
      rw [List.cons.injEq, List.eq_nil_iff_forall_not_mem]
      refine ⟨rfl, fun entry hmem => ?_⟩
      have hlt := hbehind _ (List.mem_map_of_mem hmem)
      have := hle entry (by simp [hmem])
      dsimp only at hlt this
      lia
  · refine ⟨table, [], (List.append_nil _).symm, fun entry hentry => ?_, .inl rfl⟩
    have hne : entry.1 ≠ p := fun heq => hp (heq ▸ List.mem_map_of_mem hentry)
    have := hle entry hentry
    lia

/-- The group of a position with one more register, which comes no earlier than the others. -/
theorem exists_group (h : DeathsGrouped kills table) {p : Position} {r : VReg}
    (hlast : ∀ other ∈ kills, DiesBy other (p, r)) : ∃ group : List VReg,
      RegAlloc.addKill table (p, r) = Table.put table p group ∧ group.Pairwise (· < ·) ∧
      ∀ x, x ∈ group ↔ (p, x) ∈ kills ∨ x = r := by
  have hsorted : ((table.lookup p).getD []).Pairwise (· < ·) := by
    cases hfound : table.lookup p with
    | none => exact .nil
    | some rs => exact h.registers _ ((Table.mem_iff_lookup h.nodup).2 hfound)
  have hmem : ∀ x, x ∈ (table.lookup p).getD [] ↔ (p, x) ∈ kills := fun x => h.mem_lookup
  refine ⟨_, rfl, ?_, fun x => ?_⟩
  -- the register that is added is the largest one of its group
  · split
    · exact hsorted
    · next hnew =>
      refine List.pairwise_append.2 ⟨hsorted, List.pairwise_singleton .., fun x hx y hy => ?_⟩
      cases List.mem_singleton.1 hy
      have hne : x ≠ r := fun heq => hnew (heq ▸ hx)
      rcases hlast _ ((hmem x).1 hx) with hlt | ⟨-, hle⟩
      · exact absurd hlt (Int.lt_irrefl p)
      · exact Int.lt_iff_le_and_ne.2 ⟨hle, hne⟩
  · split
    · next hold =>
      exact (hmem x).trans ⟨.inl, fun hx => hx.elim id fun heq => heq ▸ (hmem r).1 hold⟩
    · rw [List.mem_append, hmem, List.mem_singleton]

/-- A death that comes no earlier than the others is added to the last group, or makes one. -/
theorem addKill (h : DeathsGrouped kills table) {kill : Position × VReg}
    (hlast : ∀ other ∈ kills, DiesBy other kill) :
    DeathsGrouped (kills ++ [kill]) (addKill table kill) := by
  obtain ⟨p, r⟩ := kill
  obtain ⟨group, hadded, hsorted, hgroup⟩ := h.exists_group hlast
  obtain ⟨front, last, rfl, hfront, hend⟩ := h.exists_last (p := p) fun other hother => by
    rcases hlast other hother with hlt | ⟨heq, -⟩
    · exact Int.le_of_lt hlt
    · exact Int.le_of_eq heq
  have hnew : p ∉ front.map (·.1) := fun hp => by
    obtain ⟨entry, hentry, heq⟩ := List.mem_map.1 hp
    have := hfront entry hentry
    lia
  rw [hadded, Table.put_eq_append group hnew hend]
  refine ⟨?_, fun entry hentry => ?_, fun entry hentry => ?_, fun q x => ?_⟩
  · rw [List.map_append, List.map_singleton, List.pairwise_append]
    have hpositions := h.positions
    rw [List.map_append, List.pairwise_append] at hpositions
    refine ⟨hpositions.1, List.pairwise_singleton .., fun q hq q' hq' => ?_⟩
    obtain ⟨entry, hentry, rfl⟩ := List.mem_map.1 hq
    cases List.mem_singleton.1 hq'
    exact hfront entry hentry
  -- only the last group is new
  · rcases List.mem_append.1 hentry with hold | hnew
    · exact h.registers entry (List.mem_append_left _ hold)
    · cases List.mem_singleton.1 hnew
      exact hsorted
  · rcases List.mem_append.1 hentry with hold | hnew
    · exact h.nonempty entry (List.mem_append_left _ hold)
    · cases List.mem_singleton.1 hnew
      exact List.ne_nil_of_mem ((hgroup r).2 (.inr rfl))
  · by_cases hq : q = p
    · -- the only group at this position is the last one
      subst hq
      have hout : ∀ rs, (q, rs) ∉ front := fun rs hmem => Int.lt_irrefl q (hfront _ hmem)
      simp [hout, hgroup]
    · have hout : ∀ rs, (q, rs) ∉ last := fun rs hmem => by
        rcases hend with rfl | ⟨old, rfl⟩
        · cases hmem
        · simp [hq] at hmem
      simp [hq, hout, h.mem]

end DeathsGrouped

/-- Grouping deaths makes the table of them. -/
theorem grouped_groupKills (kills : List (Position × VReg)) :
    DeathsGrouped kills (groupKills kills) := by
  have hsorted : (sortBy diesBefore kills).Pairwise DiesBy := by
    refine pairwise_sortBy_of_trans (fun x y h => ?_) (fun x y h => ?_) (fun x y z h h' => ?_) kills
    · simp only [diesBefore, Bool.or_eq_true, decide_eq_true_eq, Bool.and_eq_true, beq_iff_eq] at h
      exact h.imp_right fun h => ⟨h.1, Int.le_of_lt h.2⟩
    · simp only [diesBefore, Bool.or_eq_false_iff, decide_eq_false_iff_not, Bool.and_eq_false_iff,
        beq_eq_false_iff_ne] at h
      unfold DiesBy
      lia
    · unfold DiesBy at *
      lia
  -- the deaths that were grouped so far come before those that are left
  have hgrouped : ∀ (rest done : List (Position × VReg)) (table : List (Position × List VReg)),
      DeathsGrouped done table → (done ++ rest).Pairwise DiesBy →
      DeathsGrouped (done ++ rest) (rest.foldl RegAlloc.addKill table) := by
    intro rest
    induction rest with
    | nil =>
      intro done table h _
      rw [List.append_nil]
      exact h
    | cons kill rest ih =>
      intro done table h hpairwise
      have hkill := h.addKill fun other hother =>
        (List.pairwise_append.1 hpairwise).2.2 other hother kill List.mem_cons_self
      have hnext :=
        ih (done ++ [kill]) (RegAlloc.addKill table kill) hkill (by simpa using hpairwise)
      simpa using hnext
  exact (hgrouped _ [] [] .nil hsorted).congr fun kill => mem_sortBy

end RegAlloc
