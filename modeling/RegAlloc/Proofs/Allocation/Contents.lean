import RegAlloc.Proofs.Allocation.Arranged
import RegAlloc.Proofs.Allocation.Checked
import RegAlloc.Proofs.Move.Parallel

/-!
# What the locations hold as the moves of a gap begin

As the moves of a gap begin, each value that is live there is where its piece is that covers
the instruction before, or where it is written. No two values are in one location then, even
if one of them is written where the piece of the other one ends. So the contents with which a
replay begins list all of them, and moves that find their values there can be replayed.

- `Allocation.Keeps` — a store that holds the values of the registers;
- `Allocation.Disjoint`, `Analysed.disjoint` — an arranged allocation whose pieces do not
  overlap;
- `Disjoint.eq_of_pieceBefore?` — no two values are in one location;
- `Disjoint.get?_contentsBefore` — what a location holds;
- `Contents.replay_of_finds`, `Contents.finds_of_replay` — a replay succeeds exactly when the
  moves find their values;
- `Contents.replay_sequence` — parallel moves with different targets can be replayed in order.
-/

namespace RegAlloc

open Allocation (runMoves runMoves_cons)

/-! ## Replaying moves -/

namespace Contents

variable {K : Location → Prop} {contents after : Contents} {store : Location → Option VReg}

/-- A move that finds its value changes the contents as it changes the store. -/
theorem get?_put_eq_update (hK : ∀ l m, K l → K m → l.text = m.text → l = m)
    (hstore : ∀ l, K l → contents.get? l = store l) {m : Move} (hm : m.Within K K)
    (hfinds : store m.source = some m.register) :
    ∀ l, K l → (contents.put m.target m.register).get? l =
      Function.update store m.target (store m.source) l := by
  intro l hl
  rw [get?_put]
  by_cases htarget : l = m.target
  · subst htarget
    rw [if_pos rfl, Function.update_self, hfinds]
  · rw [if_neg fun htext => htarget (hK l m.target hl hm.2 htext), Function.update_of_ne htarget]
    exact hstore l hl

/-- Moves that find their values can be replayed. -/
theorem replay_of_finds (hK : ∀ l m, K l → K m → l.text = m.text → l = m) :
    ∀ {moves : List Move} {contents : Contents} {store : Location → Option VReg},
      (∀ l, K l → contents.get? l = store l) → (∀ m ∈ moves, m.Within K K) →
      Move.Finds some store moves →
      ∃ after, contents.replay moves = .ok after ∧
        ∀ l, K l → after.get? l = runMoves store moves l
  | [], contents, store, hstore, _, _ => ⟨contents, rfl, hstore⟩
  | m :: rest, contents, store, hstore, hmoves, hfinds => by
    obtain ⟨hm, hmoves⟩ := List.forall_mem_cons.1 hmoves
    have hsource : contents.get? m.source = some m.register :=
      (hstore m.source hm.1).trans hfinds.1
    obtain ⟨after, hafter, hget⟩ := replay_of_finds hK
      (get?_put_eq_update hK hstore hm hfinds.1) hmoves hfinds.2
    refine ⟨after, ?_, hget⟩
    rw [replay, List.foldlM_cons, Contents.move, if_pos hsource]
    exact hafter

/-- Moves that can be replayed find their values. -/
theorem finds_of_replay (hK : ∀ l m, K l → K m → l.text = m.text → l = m) :
    ∀ {moves : List Move} {contents : Contents} {store : Location → Option VReg},
      (∀ l, K l → contents.get? l = store l) → (∀ m ∈ moves, m.Within K K) →
      contents.replay moves = .ok after → Move.Finds some store moves
  | [], _, _, _, _, _ => trivial
  | m :: rest, contents, store, hstore, hmoves, hreplay => by
    obtain ⟨hm, hmoves⟩ := List.forall_mem_cons.1 hmoves
    rw [replay, List.foldlM_cons, Contents.move] at hreplay
    split at hreplay
    · next hsource =>
      have hfinds : store m.source = some m.register := (hstore m.source hm.1).symm.trans hsource
      exact ⟨hfinds, finds_of_replay hK (get?_put_eq_update hK hstore hm hfinds) hmoves hreplay⟩
    · cases hreplay

/-- Parallel moves that find their values and lead to different locations can be replayed in
order, and then every target holds its value. A move that stays in place counts as well: its
value is there from the start, or another move of it leads there. -/
theorem replay_sequence (hK : ∀ l m, K l → K m → l.text = m.text → l = m) {scratch : Location}
    (hscratch : K scratch) {moves out : List Move} (hmoves : ∀ m ∈ moves, m.Within K K)
    (htargets : ∀ m ∈ moves, m.target ≠ scratch) (hout : Move.sequence moves scratch = .ok out)
    (hnodup : ((Move.moving moves).map (·.target)).Nodup)
    (hfinds : ∀ m ∈ Move.moving moves, contents.get? m.source = some m.register)
    (hapart : ∀ m ∈ moves, ∀ x ∈ moves, m.target = x.target → m.register = x.register)
    (hstays : ∀ m ∈ moves, m.source = m.target → m.target ∉ (Move.moving moves).map (·.target) →
      contents.get? m.target = some m.register) :
    ∃ after, contents.replay out = .ok after ∧
      ∀ m ∈ moves, after.get? m.target = some m.register := by
  -- the moves come out in an order in which each finds its value
  obtain ⟨_, hout', hsequenced⟩ := Move.sequence_eq_ok htargets
  cases hout.symm.trans hout'
  have hwithin := (Move.sequence_ensures (fun _ h => h) hscratch hmoves).of_eq_ok hout
  have hscratch' : scratch ∉ (Move.moving moves).map (·.target) := fun hmem => by
    obtain ⟨m, hm, heq⟩ := List.mem_map.1 hmem
    exact htargets m (Move.mem_moving.1 hm).1 heq
  obtain ⟨after, hafter, hget⟩ := replay_of_finds hK (fun _ _ => rfl) hwithin
    (hsequenced.finds hnodup hscratch' hfinds)
  refine ⟨after, hafter, fun m hm => ?_⟩
  rw [hget m.target (hmoves m hm).2]
  -- a place is reached by a move that changes something, or the value was there all along
  by_cases hled : m.target ∈ (Move.moving moves).map (·.target)
  · obtain ⟨x, hx, heq⟩ := List.mem_map.1 hled
    rw [← heq, hsequenced.delivers hnodup hscratch' hfinds x hx,
      hapart x (Move.mem_moving.1 hx).1 m hm heq]
  · rw [hsequenced.untouched (htargets m hm) hled]
    refine hstays m hm (Decidable.byContradiction fun hne => hled ?_) hled
    exact List.mem_map_of_mem (Move.mem_moving.2 ⟨hm, hne⟩)

end Contents

/-! ## What the locations hold -/

/-- Where a register is as the moves of a gap begin, if it is live in the gap. -/
def Allocation.locateBefore? (a : Allocation) (r : VReg) (gap : Position) : Option Location :=
  ((a.liveness.life? r).bind (·.pieceBefore? gap)).bind (·.location)

/-- A value that some location holds as the moves of a gap begin is still there when the
contents have been listed, if no other value is. -/
theorem get?_contentsBefore_of_mem {lives : List Lifetime} {gap : Position} {life : Lifetime}
    (hlife : life ∈ lives) {i : Interval} (hi : life.pieceBefore? gap = some i) {l : Location}
    (hl : i.location = some l)
    (honly : ∀ other ∈ lives, ∀ j k, other.pieceBefore? gap = some j → j.location = some k →
      l.text = k.text → other.register = life.register) :
    (contentsBefore lives gap).get? l = some life.register := by
  obtain ⟨before, behind, rfl⟩ := List.append_of_mem hlife
  rw [contentsBefore, List.foldl_append, List.foldl_cons, hi, Option.bind_some, hl]
  refine List.foldlRecOn (motive := fun contents : Contents => contents.get? l = _) _ _
    (by simp [Contents.get?_put]) fun contents ih other hother => ?_
  split
  · next k hk =>
    obtain ⟨j, hj, hjk⟩ := Option.bind_eq_some_iff.1 hk
    rw [Contents.get?_put]
    split
    · next htext => rw [honly other (by simp [hother]) j k hj hjk htext]
    · exact ih
  · exact ih

/-- A store that holds the value of every register where the chosen piece of it is. -/
def Allocation.Keeps {V : Type} (a : Allocation) (piece? : Lifetime → Option Interval)
    (store : Location → V) (env : VReg → V) : Prop :=
  ∀ life ∈ a.liveness.lives, ∀ i, piece? life = some i → ∀ l, i.location = some l →
    store l = env life.register

/-- An arranged allocation whose pieces do not overlap, from a pool of names that are told
apart from slots. -/
structure Allocation.Disjoint (a : Allocation) (regClass : Option String) : Prop
    extends Arranged a regClass where
  apart : a.intervals.Pairwise fun i j =>
    ∀ l, i.location = some l → j.location = some l → i.meets j = false
  named : Location.Named a.registers

theorem Allocation.Arranged.locateBefore?_eq_some {a : Allocation} {regClass : Option String}
    (h : a.Arranged regClass) {r : VReg} {gap : Position} {l : Location} :
    a.locateBefore? r gap = some l ↔ ∃ life ∈ a.liveness.lives, life.register = r ∧
      ∃ i, life.pieceBefore? gap = some i ∧ i.location = some l := by
  simp only [locateBefore?, Option.bind_eq_some_iff]
  constructor
  · rintro ⟨i, ⟨life, hlife, hi⟩, hl⟩
    exact ⟨life, List.mem_of_find?_eq_some hlife, by simpa using List.find?_some hlife, i, hi, hl⟩
  · rintro ⟨life, hlife, rfl, i, hi, hl⟩
    exact ⟨i, ⟨life, h.life?_register hlife, hi⟩, hl⟩

namespace Allocation.Disjoint

variable {a : Allocation} {regClass : Option String} {life other : Lifetime} {i j k : Interval}
  {gap : Position} {l : Location}

/-- Places are told apart by their text. -/
theorem place_eq (h : a.Disjoint regClass) (l m : Location)
    (hl : Place a.liveness.lives a.scratch l) (hm : Place a.liveness.lives a.scratch m)
    (htext : l.text = m.text) : l = m := by
  have hpool : ∀ l, Place a.liveness.lives a.scratch l → ∀ name, l = .register name →
      name ∈ a.registers := by
    rintro l (rfl | ⟨life, hlife, i, hi, hil⟩) name hname
    · cases hname
    · obtain ⟨_, hserved, hsuits⟩ := h.served i (h.mem_of_piece hlife hi)
      cases hname
      cases hil.symm.trans hserved
      exact hsuits
  exact Location.eq_of_text_eq h.named (hpool l hl) (hpool m hm) htext

/-- A value that is kept in a gap is not where another one is written. -/
theorem ne_of_writtenAt (h : a.Disjoint regClass) (hodd : gap % stride = 1)
    (hlife : life ∈ a.liveness.lives) (hk : life.pieceBefore? gap = some k) (hi : i ∈ a.intervals)
    (hcovers : i.covers gap = true) (hwritten : i.WrittenAt gap)
    (hne : i.register ≠ life.register) (hl : i.location = some l) : k.location ≠ some l := by
  intro hkl
  have hlaid := h.laid life hlife
  obtain ⟨hkmem, hkgap | ⟨j, hj, rfl, ⟨-, hstop, -⟩, hmended⟩⟩ := h.covers_or_seam hodd hlife hk
  -- the piece reaches into the gap, where two intervals would share a place
  · have hkint := h.mem_of_piece hlife hkmem
    rw [eq_of_covers h.ascending h.apart hi hkint hl hkl hcovers hkgap] at hne
    exact hne (hlaid.register k hkmem)
  cases l with
  | register name =>
    -- whoever takes the register that is left here would be the one that is written
    obtain ⟨t, ht | ht, hstart, hquiet⟩ := hmended.taken name hkl
    · obtain ⟨owner, howner, htmem⟩ := (h.mem_intervals t).1 ht.1
      have htcovers := Interval.covers_start ((h.laid owner howner).shaped t htmem)
      rw [hstart] at htcovers
      rw [eq_of_covers h.ascending h.apart hi ht.1 hl ht.2 hcovers htcovers] at hwritten
      exact hquiet hwritten
    · cases ht
  | slot n =>
    -- the value lives on behind the slot that it leaves
    have hregister := hlaid.register k hkmem
    have hlives := (h.covers life hlife j.start).1
      ⟨j, hj, Interval.covers_start (hlaid.shaped j hj)⟩
    rw [← hstop, ← hregister] at hlives
    rw [← hstop] at hwritten
    exact h.leftBy k (h.mem_of_piece hlife hkmem) i hi (fun heq => hne (heq ▸ hregister)) n hkl hl
      hlives hwritten

/-- As the moves of a gap begin, no two values are in one location. -/
theorem eq_of_pieceBefore? (h : a.Disjoint regClass) (hodd : gap % stride = 1)
    (hlife : life ∈ a.liveness.lives) (hother : other ∈ a.liveness.lives)
    (hi : life.pieceBefore? gap = some i) (hj : other.pieceBefore? gap = some j)
    (hil : i.location = some l) (hjl : j.location = some l) : life = other := by
  refine Decidable.byContradiction fun hne => ?_
  have hregister : life.register ≠ other.register := fun heq =>
    hne (h.eq_of_register hlife hother heq)
  obtain ⟨himem, i', hi', higap, hibefore⟩ := (h.laid life hlife).of_pieceBefore? hi
  obtain ⟨hjmem, j', hj', hjgap, hjbefore⟩ := (h.laid other hother).of_pieceBefore? hj
  have hir := (h.laid life hlife).register i himem
  have hjr := (h.laid other hother).register j hjmem
  have himint := h.mem_of_piece hlife himem
  have hjmint := h.mem_of_piece hother hjmem
  -- either both are where they were at the instruction, or one of them is written in the gap
  rcases hibefore with hibefore | ⟨rfl, hibegins⟩
  · rcases hjbefore with hjbefore | ⟨rfl, hjbegins⟩
    · cases eq_of_covers h.ascending h.apart himint hjmint hil hjl hibefore hjbefore
      exact hregister (hir.symm.trans hjr)
    · exact h.ne_of_writtenAt hodd hlife hi hjmint hjgap
        (h.writtenAt_of_begins hodd hother hjmem hjgap hjbegins)
        (fun heq => hregister (heq.symm.trans hjr)) hjl hil
  · exact h.ne_of_writtenAt hodd hother hj himint higap
      (h.writtenAt_of_begins hodd hlife himem higap hibegins)
      (fun heq => hregister (hir.symm.trans heq)) hil hjl

/-- What a place holds as the moves of a gap begin. -/
theorem get?_contentsBefore (h : a.Disjoint regClass) (hodd : gap % stride = 1)
    (hl : Place a.liveness.lives a.scratch l) {r : VReg} :
    (contentsBefore a.liveness.lives gap).get? l = some r ↔ a.locateBefore? r gap = some l := by
  rw [h.locateBefore?_eq_some]
  have hplace : ∀ life ∈ a.liveness.lives, ∀ i, life.pieceBefore? gap = some i →
      ∀ k, i.location = some k → l.text = k.text → l = k := fun life hlife i hi k hk htext =>
    h.place_eq l k hl (.inr ⟨life, hlife, i, ((h.laid life hlife).of_pieceBefore? hi).1, hk⟩) htext
  constructor
  · intro hget
    obtain ⟨life, hlife, hr, i, k, hi, hk, htext⟩ := of_get?_contentsBefore hget
    cases hplace life hlife i hi k hk htext
    exact ⟨life, hlife, hr, i, hi, hk⟩
  · rintro ⟨life, hlife, rfl, i, hi, hil⟩
    refine get?_contentsBefore_of_mem hlife hi hil fun other hother j k hj hk htext => ?_
    cases hplace other hother j hj k hk htext
    rw [h.eq_of_pieceBefore? hodd hlife hother hi hj hil hk]

/-- The contents as the moves of a gap begin are true of a store that keeps the values there. -/
theorem describes_contentsBefore (h : a.Disjoint regClass) {V : Type} {store : Location → V}
    {env : VReg → V} (hkeeps : a.Keeps (·.pieceBefore? gap) store env) :
    Contents.Describes (Place a.liveness.lives a.scratch)
      (contentsBefore a.liveness.lives gap) store env := by
  intro l r hl hget
  obtain ⟨life, hlife, rfl, i, l', hi, hil, htext⟩ := of_get?_contentsBefore hget
  have hmem := ((h.laid life hlife).of_pieceBefore? hi).1
  rw [h.place_eq l l' hl (.inr ⟨life, hlife, i, hmem, hil⟩) htext]
  exact hkeeps life hlife i hi l' hil

/-- The moves play no part. -/
theorem withMoves (h : a.Disjoint regClass) (resolution : Resolution) :
    { a with resolution }.Disjoint regClass := { h with }

end Allocation.Disjoint

/-- A sweep whose pieces pass the check of overlaps leaves a disjoint allocation. -/
theorem Analysed.disjoint {g : Graph} {regClass : Option String} {order : LinearOrder}
    {liveness : Liveness} (hall : Analysed g regClass order liveness) {pool : List String}
    (hnamed : Location.Named pool) {a : Allocation}
    (hswept : (Allocation.start order liveness pool).sweep = .ok a)
    (hoverlaps : a.checkOverlaps = .ok ()) : a.Disjoint regClass := by
  have harranged := hall.arranged hswept
  rw [Allocation.sweep, bind_eq_ok] at hswept
  obtain ⟨swept, -, ⟨⟩⟩ := hswept
  exact
    { harranged with
      apart := Allocation.pairwise_of_checkOverlaps hoverlaps
      named := hnamed }

end RegAlloc
