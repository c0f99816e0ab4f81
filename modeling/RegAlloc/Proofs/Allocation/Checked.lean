import Mathlib.Data.List.Pairwise
import RegAlloc.Check
import RegAlloc.Proofs.Execution
import RegAlloc.Proofs.Intervals
import RegAlloc.Proofs.Move.Groups

/-!
# What the final check sees to

The check goes through pieces, edges and gaps. It replays moves on the contents of the
locations, which it tells apart by their text; where no two places have one text, contents
that describe a store describe it after the moves as well.

- `Allocation.Checked`, `Allocation.checked_of_verify` — what a successful check has seen;
- `Location.eq_of_text_eq` — places with different texts;
- `Contents.Describes`, `Contents.Describes.replay` — contents that are true of a store;
- `of_get?_contentsBefore` — what the locations hold as the moves of a gap begin.
-/

namespace RegAlloc

/-! ## The four checks -/

/-- What a successful check has seen. -/
structure Allocation.Checked (a : Allocation) : Prop where
  located : ∀ i ∈ a.intervals, ∃ l, i.location = some l
  pool : ∀ i ∈ a.intervals, ∀ name, i.location = some (.register name) → name ∈ a.registers
  policy : ∀ i ∈ a.intervals, ∀ n, i.location = some (.slot n) →
    ∀ u ∈ i.uses, u.policy ≠ .register
  apart : a.intervals.Pairwise fun i j =>
    ∀ l, i.location = some l → j.location = some l → i.meets j = false
  /-- Replaying the moves of an edge brings what leaves by it to where it is next. -/
  edges : ∀ span ∈ a.order.spans, ∀ b ∈ a.order.graph.successors span.block, ∀ target,
    a.order.span? b = some target → ∃ contents,
      (contentsBefore a.liveness.lives (span.last + 1)).replay (a.edgeMoves span.block b) =
          .ok contents ∧
        ∀ r ∈ a.liveness.liveInto b, ∀ life, a.liveness.life? r = some life →
          (life.pieceBefore? (span.last + 1)).isSome → ∀ l, a.locate? r target.first = some l →
            contents.get? l = some r
  /-- Replaying the moves of a gap brings a value from a piece to its neighbour. -/
  bridges : ∀ life ∈ a.liveness.lives, ∀ i j, (i, j) ∈ life.neighbours → i.touches j = true →
    ∀ gap, a.order.splitGap? j.start = some gap → ∃ contents,
      (contentsBefore a.liveness.lives gap).replay (a.gapMoves gap) = .ok contents ∧
        ∀ l, j.location = some l → contents.get? l = some life.register

namespace Allocation

variable {a : Allocation} {i j : Interval}

theorem of_checkLocation (h : a.checkLocation i = .ok ()) :
    ∃ l, i.location = some l ∧
      match l with
      | .register name => name ∈ a.registers
      | .slot _ => ∀ u ∈ i.uses, u.policy ≠ .register := by
  rw [checkLocation, bind_eq_ok] at h
  obtain ⟨l, hl, h⟩ := h
  refine ⟨l, Interval.locate_eq_ok.1 hl, ?_⟩
  cases l with
  | register name =>
    dsimp only at h ⊢
    split at h
    · assumption
    · cases h
  | slot n =>
    dsimp only at h ⊢
    split at h
    · next hnone => simpa using hnone
    · cases h

/-- The check of pieces at one place passes exactly when no two of them meet. -/
theorem checkApart_eq_ok_iff {place : String} {l : List Interval} :
    checkApart place l = .ok () ↔ l.Pairwise fun i j => i.meets j = false := by
  induction l with
  | nil => exact ⟨fun _ => .nil, fun _ => rfl⟩
  | cons i rest ih =>
    rw [checkApart, bind_eq_ok, List.pairwise_cons, ← ih]
    constructor
    -- the first one is compared with all others, and these with each other
    · rintro ⟨_, hfirst, hrest⟩
      refine ⟨fun j hj => ?_, hrest⟩
      have hj := forM_eq_ok.1 hfirst j hj
      split at hj
      · next hnone => simp [Interval.meets, hnone]
      · cases hj
    · rintro ⟨hfirst, hrest⟩
      refine ⟨⟨⟩, forM_eq_ok.2 fun j hj => ?_, hrest⟩
      have hnone : i.firstCommon? j = none := by simpa [Interval.meets] using hfirst j hj
      rw [hnone]
      rfl

/-- The check of all places passes exactly when no two pieces meet whose places have the same
text. -/
theorem checkOverlaps_eq_ok_iff : a.checkOverlaps = .ok () ↔
    a.intervals.Pairwise fun i j => ∀ l m, i.location = some l → j.location = some m →
      l.text = m.text → i.meets j = false := by
  -- the check goes from place to place, so the pairs are compared at each place
  have hplaces : a.checkOverlaps = .ok () ↔
      ∀ place ∈ (a.intervals.filterMap fun i => i.location.map (·.text)).eraseDups,
        a.intervals.Pairwise fun i j =>
          isAt place i = true → isAt place j = true → i.meets j = false := by
    rw [checkOverlaps, forM_eq_ok]
    simp only [checkApart_eq_ok_iff, List.pairwise_filter]
  rw [hplaces]
  constructor
  -- two intervals at one place are compared when the check comes to that place
  · intro h
    rw [List.pairwise_iff_forall_sublist]
    intro i j hsub l m hi hj htext
    have hmem : i ∈ a.intervals := hsub.subset (by simp)
    have hpairwise := h l.text
      (List.mem_eraseDups.2 (List.mem_filterMap.2 ⟨i, hmem, by simp [hi]⟩))
    exact List.pairwise_iff_forall_sublist.1 hpairwise hsub (by simp [isAt, hi])
      (by simp [isAt, hj, htext])
  · intro h place _
    refine h.imp fun hij hi hj => ?_
    simp only [isAt, beq_iff_eq, Option.map_eq_some_iff] at hi hj
    obtain ⟨l, hl, rfl⟩ := hi
    obtain ⟨m, hm, htext⟩ := hj
    exact hij l m hl hm htext.symm

theorem pairwise_of_checkOverlaps (h : a.checkOverlaps = .ok ()) :
    a.intervals.Pairwise fun i j =>
      ∀ l, i.location = some l → j.location = some l → i.meets j = false :=
  (checkOverlaps_eq_ok_iff.1 h).imp fun hij l hi hj => hij l l hi hj rfl

theorem of_checkArrival {edge : Edge} {exit entry : Position} {contents : Contents} {r : VReg}
    (h : a.checkArrival edge exit entry contents r = .ok ()) {life : Lifetime}
    (hlife : a.liveness.life? r = some life) (hleaves : (life.pieceBefore? exit).isSome)
    {l : Location} (hl : a.locate? r entry = some l) : contents.get? l = some r := by
  rw [locate?, hlife, Option.bind_some] at hl
  simp only [checkArrival, hlife, hl, Option.isNone_eq_false_iff.2 hleaves] at h
  split at h
  · next hnone => cases hnone
  · split at h
    · assumption
    · cases h

theorem of_checkEdge {span target : Span} {b : BlockId} (h : a.checkEdge span b = .ok ())
    (htarget : a.order.span? b = some target) : ∃ contents,
      (contentsBefore a.liveness.lives (span.last + 1)).replay (a.edgeMoves span.block b) =
          .ok contents ∧
        ∀ r ∈ a.liveness.liveInto b, ∀ life, a.liveness.life? r = some life →
          (life.pieceBefore? (span.last + 1)).isSome → ∀ l, a.locate? r target.first = some l →
            contents.get? l = some r := by
  simp only [checkEdge, bind_eq_ok] at h
  obtain ⟨found, hfound, contents, hreplay, harrivals⟩ := h
  rw [LinearOrder.span, Ref.index?_natCast, Option.bind_some, htarget] at hfound
  cases hfound
  exact ⟨contents, hreplay, fun r hr life hlife hleaves l hl =>
    of_checkArrival (forM_eq_ok.1 harrivals r hr) hlife hleaves hl⟩

theorem of_checkBridge {r : VReg} (h : a.checkBridge r i j = .ok ()) (htouches : i.touches j = true)
    {gap : Position} (hgap : a.order.splitGap? j.start = some gap) : ∃ contents,
      (contentsBefore a.liveness.lives gap).replay (a.gapMoves gap) = .ok contents ∧
        ∀ l, j.location = some l → contents.get? l = some r := by
  simp only [checkBridge, htouches, hgap] at h
  split at h
  · next hfalse => cases hfalse
  · rw [bind_eq_ok] at h
    obtain ⟨contents, hreplay, h⟩ := h
    rw [bind_eq_ok] at h
    obtain ⟨target, htarget, h⟩ := h
    refine ⟨contents, hreplay, fun l hl => ?_⟩
    cases (Interval.locate_eq_ok.1 htarget).symm.trans hl
    split at h
    · assumption
    · cases h

/-- What a successful check has seen. -/
theorem checked_of_verify (h : a.verify = .ok ()) : a.Checked := by
  simp only [verify, bind_eq_ok] at h
  obtain ⟨_, hlocations, _, hoverlaps, _, hedges, hgaps⟩ := h
  have hlocation := fun i hi => of_checkLocation (forM_eq_ok.1 hlocations i hi)
  refine ⟨fun i hi => ?_, fun i hi name hname => ?_, fun i hi n hn => ?_,
    pairwise_of_checkOverlaps hoverlaps, fun span hspan b hb target htarget => ?_,
    fun life hlife i j hij htouches gap hgap => ?_⟩
  -- every interval has a location, and only its kind tells what was checked
  · obtain ⟨l, hl, -⟩ := hlocation i hi
    exact ⟨l, hl⟩
  · obtain ⟨l, hl, hpool⟩ := hlocation i hi
    cases hl.symm.trans hname
    exact hpool
  · obtain ⟨l, hl, hpolicy⟩ := hlocation i hi
    cases hl.symm.trans hn
    exact hpolicy
  · exact of_checkEdge (forM_eq_ok.1 (forM_eq_ok.1 hedges span hspan) b hb) htarget
  · exact of_checkBridge (forM_eq_ok.1 (forM_eq_ok.1 hgaps life hlife) (i, j) hij) htouches hgap

/-- Pieces in one location that cover one position are the same. -/
theorem eq_of_covers (hascending : ∀ i ∈ a.intervals, Ranges.Ascending i.ranges)
    (h : a.intervals.Pairwise fun i j =>
      ∀ l, i.location = some l → j.location = some l → i.meets j = false)
    {l : Location} {p : Position} (hi : i ∈ a.intervals) (hj : j ∈ a.intervals)
    (hil : i.location = some l) (hjl : j.location = some l) (hip : i.covers p = true)
    (hjp : j.covers p = true) : i = j := by
  refine Decidable.byContradiction fun hne => ?_
  have hcovers : a.intervals.Pairwise fun i j => ∀ l, i.location = some l →
      j.location = some l → ∀ p, i.covers p = true → j.covers p = false :=
    h.imp_of_mem fun hi hj hij l hil hjl =>
      (Interval.meets_eq_false_iff (hascending _ hi) (hascending _ hj)).1 (hij l hil hjl)
  have hsymm : Std.Symm fun i j : Interval => ∀ l, i.location = some l →
      j.location = some l → ∀ p, i.covers p = true → j.covers p = false := by
    refine ⟨fun i j hij l hj hi p hjp => Bool.eq_false_iff.2 fun hip => ?_⟩
    simp [hij l hi hj p hip] at hjp
  simp [hcovers.forall hi hj hne l hil hjl p hip] at hjp

end Allocation

/-! ## Texts of locations -/

namespace Location

variable {names : List String}

theorem toList_repr_ofNat (n : Nat) : (Int.ofNat n).repr.toList = Nat.toDigits 10 n := by
  rw [Int.repr, Nat.repr_eq_ofList_toDigits, String.toList_ofList]

theorem toList_repr_negSucc (n : Nat) :
    (Int.negSucc n).repr.toList = '-' :: Nat.toDigits 10 (n + 1) := by
  rw [Int.repr, Nat.repr_eq_ofList_toDigits, String.toList_append]
  exact congrArg (List.cons '-') String.toList_ofList

theorem toDigits_injective {m n : Nat} (h : Nat.toDigits 10 m = Nat.toDigits 10 n) : m = n := by
  rw [← @Nat.ofDigitChars_ten_toDigits m, h, Nat.ofDigitChars_ten_toDigits]

theorem toDigits_ne_minus (n : Nat) (l : List Char) : Nat.toDigits 10 n ≠ '-' :: l := by
  intro h
  have hdigit := Nat.isDigit_of_mem_toDigits (by decide) (by decide) (h ▸ List.mem_cons_self)
  cases hdigit

/-- Slots are told apart by their text. -/
theorem slot_text_injective {m n : Int} (h : (slot m).text = (slot n).text) : m = n := by
  have hrepr : m.repr = n.repr := (String.append_right_inj _).1 ((String.append_left_inj _).1 h)
  have hchars := congrArg String.toList hrepr
  -- a number is read back from its digits, and only a negative one starts with a sign
  cases m with
  | ofNat m =>
    cases n with
    | ofNat n =>
      rw [toList_repr_ofNat, toList_repr_ofNat] at hchars
      rw [toDigits_injective hchars]
    | negSucc n =>
      rw [toList_repr_ofNat, toList_repr_negSucc] at hchars
      exact absurd hchars (toDigits_ne_minus _ _)
  | negSucc m =>
    cases n with
    | ofNat n =>
      rw [toList_repr_ofNat, toList_repr_negSucc] at hchars
      exact absurd hchars.symm (toDigits_ne_minus _ _)
    | negSucc n =>
      rw [toList_repr_negSucc, toList_repr_negSucc, List.cons.injEq] at hchars
      rw [Nat.succ.inj (toDigits_injective hchars.2)]

/-- Names of registers that are told apart from slots by their text. -/
def Named (names : List String) : Prop := ∀ name ∈ names, ∀ n : Int, name ≠ (slot n).text

/-- Names that do not begin with a bracket are such names. -/
theorem named_of_head (h : ∀ name ∈ names, name.toList.head? ≠ some '[') : Named names := by
  intro name hname n heq
  refine h name hname ?_
  rw [heq]
  simp [text, toString]

/-- Locations with such names are told apart by their text. -/
theorem eq_of_text_eq (hnamed : Named names) {l m : Location}
    (hl : ∀ name, l = .register name → name ∈ names)
    (hm : ∀ name, m = .register name → name ∈ names) (h : l.text = m.text) : l = m := by
  cases l with
  | register name =>
    cases m with
    | register other => exact congrArg register h
    | slot n => exact absurd h (hnamed name (hl name rfl) n)
  | slot n =>
    cases m with
    | register other => exact absurd h.symm (hnamed other (hm other rfl) n)
    | slot k => exact congrArg slot (slot_text_injective h)

end Location

/-! ## Contents of locations -/

namespace Contents

variable {V : Type} {K : Location → Prop} {contents after : Contents} {store : Location → V}
  {env : VReg → V}

/-- Contents that are true of a store at the locations of a kind. -/
def Describes (K : Location → Prop) (contents : Contents) (store : Location → V)
    (env : VReg → V) : Prop :=
  ∀ l r, K l → contents.get? l = some r → store l = env r

theorem get?_put (contents : Contents) (l k : Location) (r : VReg) :
    (contents.put l r).get? k = if k.text = l.text then some r else contents.get? k := by
  rw [get?, put, Table.lookup_put]
  simp only [beq_iff_eq, get?]

/-- A move that finds its value leaves true contents. -/
theorem Describes.move (hK : ∀ l m, K l → K m → l.text = m.text → l = m)
    (h : Describes K contents store env) {m : Move} (hm : m.Within K K)
    (hmove : contents.move m = .ok after) :
    Describes K after (Function.update store m.target (store m.source)) env := by
  rw [Contents.move] at hmove
  split at hmove
  · next hsource =>
    cases hmove
    intro l r hl hget
    rw [get?_put] at hget
    split at hget
    -- the place that is written, under its own text
    · next htext =>
      cases hget
      cases hK l m.target hl hm.2 htext
      rw [Function.update_self]
      exact h m.source m.register hm.1 hsource
    -- no other place has the text, so nothing else changes
    · next htext =>
      rw [Function.update_of_ne fun heq => htext (congrArg Location.text heq)]
      exact h l r hl hget
  · cases hmove

/-- Moves that find their values leave true contents. -/
theorem Describes.replay (hK : ∀ l m, K l → K m → l.text = m.text → l = m) :
    ∀ {moves : List Move} {contents : Contents} {store : Location → V},
      Describes K contents store env → (∀ m ∈ moves, m.Within K K) →
      contents.replay moves = .ok after →
      Describes K after (Allocation.runMoves store moves) env
  | [], contents, store, h, _, hreplay => by
    cases hreplay
    exact h
  | m :: rest, contents, store, h, hmoves, hreplay => by
    rw [Contents.replay, List.foldlM_cons, bind_eq_ok] at hreplay
    obtain ⟨next, hmove, hrest⟩ := hreplay
    obtain ⟨hm, hmoves⟩ := List.forall_mem_cons.1 hmoves
    exact (h.move hK hm hmove).replay hK hmoves hrest

end Contents

/-- What a location holds as the moves of a gap begin is a value whose piece is there. -/
theorem of_get?_contentsBefore {lives : List Lifetime} {gap : Position} {l : Location} {r : VReg}
    (h : (contentsBefore lives gap).get? l = some r) :
    ∃ life ∈ lives, life.register = r ∧ ∃ i k, life.pieceBefore? gap = some i ∧
      i.location = some k ∧ l.text = k.text := by
  revert h
  rw [contentsBefore]
  refine List.foldlRecOn (motive := fun contents : Contents => contents.get? l = some r → _) _ _
    (fun h => by simp [Contents.get?] at h) fun contents ih life hlife h => ?_
  split at h
  · next k hk =>
    rw [Contents.get?_put] at h
    split at h
    · next htext =>
      cases h
      obtain ⟨i, hi, hik⟩ := Option.bind_eq_some_iff.1 hk
      exact ⟨life, hlife, rfl, i, k, hi, hik, htext⟩
    · exact ih h
  · exact ih h

end RegAlloc
