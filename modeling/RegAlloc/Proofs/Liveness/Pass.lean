import RegAlloc.Proofs.Liveness.Building
import RegAlloc.Proofs.Liveness.Separate

/-!
# The part of a register in the backward pass

The backward pass follows all registers at once, with one set of live registers, one list of
deaths and one list of errors. What it does for a register is what a scan of that register does:
every step changes the interval of the register that it names, and nothing that belongs to
another.

- `Pass.Follows` — a pass that has the tracks of all registers in it;
- `Pass.Adds` — what the steps within a block leave alone, and the errors that they add;
- `Follows.extend`, `Follows.write`, `Follows.read` — the steps of the pass;
- `Follows.instruction`, `Follows.code` — an instruction, and straight-line code;
- `Pass.Scanned`, `Scanned.block` — a pass over the last blocks of an order;
- `LinearOrder.exists_pass` — a whole pass has the scans of all registers in it.
-/

namespace RegAlloc

namespace Pass

/-! ## Intervals of many registers -/

/-- The intervals of some registers, according to their tracks. -/
def intervalsOf (rs : List VReg) (start : Nat) (t : VReg → Track) : List Interval :=
  (rs.zipIdx start).map fun entry => ((t entry.1).growth entry.2 entry.1).interval

theorem intervalsOf_congr {rs : List VReg} {start : Nat} {t t' : VReg → Track}
    (h : ∀ r ∈ rs, t r = t' r) : intervalsOf rs start t = intervalsOf rs start t' := by
  refine List.map_congr_left fun entry hentry => ?_
  rw [h entry.1 (List.fst_mem_of_mem_zipIdx hentry)]

/-- Changing the interval of a register changes its track alone. -/
theorem changeIn_intervalsOf {r : VReg} {f : Interval → Except Violation Interval}
    {t t' : VReg → Track}
    (hchanged : ∀ id : Nat, f ((t r).growth id r).interval = .ok ((t' r).growth id r).interval)
    (hothers : ∀ x, x ≠ r → t' x = t x) :
    ∀ {rs : List VReg} {start : Nat}, rs.Nodup → r ∈ rs →
      changeIn r f (intervalsOf rs start t) = .ok (intervalsOf rs start t')
  | x :: rs, start, hnodup, hr => by
    obtain ⟨hx, hrs⟩ := List.nodup_cons.1 hnodup
    have hcons : ∀ t : VReg → Track, intervalsOf (x :: rs) start t =
        ((t x).growth start x).interval :: intervalsOf rs (start + 1) t := fun _ => rfl
    rw [hcons, hcons, changeIn]
    by_cases hxr : x = r
    · subst hxr
      have hregister : (((t x).growth start x).interval.register == x) = true := beq_self_eq_true x
      have hrest : intervalsOf rs (start + 1) t' = intervalsOf rs (start + 1) t :=
        intervalsOf_congr fun y hy => hothers y fun heq => hx (heq ▸ hy)
      rw [if_pos hregister, hchanged, hrest]
      rfl
    · have hregister : ¬ (((t x).growth start x).interval.register == r) = true :=
        fun heq => hxr (beq_iff_eq.1 heq)
      rw [if_neg hregister, changeIn_intervalsOf hchanged hothers hrs
        ((List.mem_cons.1 hr).resolve_left (Ne.symm hxr)), hothers x hxr]
      rfl

/-! ## Passes that follow the registers -/

/-- A pass that has the track of every register of the class in it. -/
structure Follows (order : LinearOrder) (regClass : Option String) (t : VReg → Track) (s : Pass) :
    Prop where
  intervals : s.intervals = intervalsOf (order.occurring regClass) 0 t
  ascending : s.live.Pairwise (· < ·)
  live : ∀ r, r ∈ s.live ↔ r ∈ order.occurring regClass ∧ (t r).live = true
  kills : ∀ p r, (p, r) ∈ s.kills ↔ r ∈ order.occurring regClass ∧ p ∈ (t r).deaths

/-- What the steps within a block leave alone, and the errors that they add. -/
structure Adds (s s' : Pass) (errors : List Issue) : Prop where
  liveIn : s'.liveIn = s.liveIn
  loops : s'.loops = s.loops
  errors : s'.errors = s.errors ++ errors

namespace Adds

variable {s s' s'' : Pass} {es es' : List Issue}

theorem refl (s : Pass) : Adds s s [] := ⟨rfl, rfl, (List.append_nil _).symm⟩

theorem trans (h : Adds s s' es) (h' : Adds s' s'' es') : Adds s s'' (es ++ es') where
  liveIn := h'.liveIn.trans h.liveIn
  loops := h'.loops.trans h.loops
  errors := by rw [h'.errors, h.errors, List.append_assoc]

end Adds

namespace Follows

variable {order : LinearOrder} {regClass : Option String} {t : VReg → Track} {s : Pass}
  {p : Position} {span : Span}

/-- Only the tracks of the registers that occur matter. -/
theorem congr (h : Follows order regClass t s) {t' : VReg → Track}
    (hsame : ∀ r ∈ order.occurring regClass, t r = t' r) : Follows order regClass t' s where
  intervals := h.intervals.trans (intervalsOf_congr hsame)
  ascending := h.ascending
  live r := (h.live r).trans (and_congr_right fun hr => by rw [hsame r hr])
  kills p r := (h.kills p r).trans (and_congr_right fun hr => by rw [hsame r hr])

/-- The live registers are those whose tracks are live. -/
theorem live_eq (h : Follows order regClass t s) :
    s.live = (order.occurring regClass).filter fun r => (t r).live := by
  refine h.ascending.eq_of_mem_iff ((order.pairwise_occurring regClass).filter _) fun r => ?_
  rw [h.live, List.mem_filter]

/-- Changing the interval of a register that occurs. -/
theorem change (h : s.intervals = intervalsOf (order.occurring regClass) 0 t) {r : VReg}
    (hr : r ∈ order.occurring regClass) {f : Interval → Except Violation Interval}
    {t' : VReg → Track}
    (hchanged : ∀ id : Nat, f ((t r).growth id r).interval = .ok ((t' r).growth id r).interval)
    (hothers : ∀ x, x ≠ r → t' x = t x) :
    s.change r f = .ok { s with intervals := intervalsOf (order.occurring regClass) 0 t' } := by
  rw [Pass.change, h,
    changeIn_intervalsOf hchanged hothers (order.nodup_occurring regClass) hr]
  rfl

/-! ## Extending what is live -/

/-- Extending some lives, one by one. -/
theorem foldlM_extend {start stop : Position} (hlt : start < stop) : ∀ {rs : List VReg} {s : Pass}
    {t : VReg → Track}, rs.Nodup → (∀ r ∈ rs, r ∈ order.occurring regClass) →
      s.intervals = intervalsOf (order.occurring regClass) 0 t →
      rs.foldlM (fun s r => s.change r (·.addRange start stop)) s = .ok { s with
        intervals := intervalsOf (order.occurring regClass) 0 fun r =>
          if r ∈ rs then (t r).extend start stop else t r }
  | [], s, t, _, _, h => by simp [← h, pure, Except.pure]
  | r :: rs, s, t, hnodup, hoccur, h => by
    obtain ⟨hr, hrs⟩ := List.nodup_cons.1 hnodup
    obtain ⟨hroccurs, hoccur⟩ := List.forall_mem_cons.1 hoccur
    -- the track of the first register is extended, and then those of the others
    let extended (x : VReg) : Track := if x = r then (t x).extend start stop else t x
    have hchange : s.change r (·.addRange start stop) = .ok { s with
        intervals := intervalsOf (order.occurring regClass) 0 extended } := by
      refine change h hroccurs (fun id => ?_) fun x hx => if_neg hx
      simp only [extended, if_true]
      exact Track.growth_addRange hlt (t r)
    rw [List.foldlM_cons, hchange]
    refine (foldlM_extend hlt hrs hoccur rfl).trans ?_
    congr 2
    refine intervalsOf_congr fun x _ => ?_
    by_cases hx : x = r
    · subst hx
      simp [extended, hr]
    · simp [extended, hx]

/-- Extending the life of whatever is live. -/
theorem extend (h : Follows order regClass t s) {start stop : Position} (hlt : start < stop) :
    ∃ s', s.extend start stop = .ok s' ∧ s'.live = s.live ∧ Adds s s' [] ∧
      Follows order regClass (fun r => if (t r).live then (t r).extend start stop else t r) s' := by
  have hextended := foldlM_extend hlt (h.ascending.imp Int.ne_of_lt)
    (fun r hr => ((h.live r).1 hr).1) h.intervals
  refine ⟨_, hextended, rfl, ⟨rfl, rfl, (List.append_nil _).symm⟩,
    intervalsOf_congr (t := fun r => if r ∈ s.live then (t r).extend start stop else t r)
      fun r hr => ?_, h.ascending, fun r => ?_, fun p r => ?_⟩
  · simp only [h.live, hr, true_and]
  · rw [h.live, Track.live_extend_if]
  · rw [h.kills]
    split <;> rfl

/-! ## Operands -/

theorem beginAt_growth (id : IntervalId) (r : VReg) (d : Def) (t : Track) :
    beginAt p d t.live (t.growth id r).interval = .ok ((t.write p d).growth id r).interval := by
  rw [beginAt, Track.write]
  cases t.live with
  | true => rfl
  | false =>
    rw [if_neg Bool.false_ne_true, Track.growth_addRange (by lia)]
    rfl

theorem reachTo_growth (id : IntervalId) (r : VReg) {first : Position} (hfirst : first ≤ p)
    (u : Use) (t : Track) : reachTo first p u (t.growth id r).interval =
      .ok ((t.read first p u).growth id r).interval := by
  rw [reachTo, Track.growth_addRange (by lia)]
  rfl

/-- An operand changes the track of its register alone, to `met`; its value dies there if nothing
needs it. -/
theorem operand (h : Follows order regClass t s) {x : VReg} (hx : x ∈ order.occurring regClass)
    {met : Track} {f : Interval → Except Violation Interval} {live : List VReg}
    (hf : ∀ id : Nat, f ((t x).growth id x).interval = .ok (met.growth id x).interval)
    (hdeaths : met.deaths = if (t x).live then (t x).deaths else p :: (t x).deaths)
    (hascending : live.Pairwise (· < ·))
    (hlive : ∀ r, r ∈ live ↔ (r ≠ x ∧ r ∈ s.live) ∨ (r = x ∧ met.live = true)) :
    ∃ next, s.change x f = .ok next ∧ Adds s next [] ∧ ∀ errors, Follows order regClass
      (fun r => if r = x then met else t r) { next with
        live
        kills := if x ∈ s.live then s.kills else s.kills ++ [(p, x)]
        errors } := by
  -- only the interval of the operand changes
  have hchange : s.change x f = .ok { s with
      intervals := intervalsOf (order.occurring regClass) 0
        fun r => if r = x then met else t r } := by
    refine change h.intervals hx (fun id => ?_) fun r hr => if_neg hr
    rw [if_pos rfl]
    exact hf id
  refine ⟨_, hchange, ⟨rfl, rfl, (List.append_nil _).symm⟩, fun errors =>
    ⟨rfl, hascending, fun r => ?_, fun q r => ?_⟩⟩
  · rw [hlive, h.live]
    by_cases hr : r = x
    · simp [hr, hx]
    · simp [hr]
  · have hneeded : x ∈ s.live ↔ (t x).live = true := by simp [h.live, hx]
    have hkills := h.kills q r
    -- a death is recorded exactly if the value was not needed behind
    by_cases hr : r = x
    · subst hr
      rw [if_pos rfl, hdeaths]
      by_cases hlive : (t r).live = true
      · rw [if_pos (hneeded.2 hlive), if_pos hlive, hkills]
      · rw [if_neg (mt hneeded.1 hlive), if_neg hlive, List.mem_append, hkills, List.mem_cons]
        simp [hx, or_comm]
    · rw [if_neg hr, ← hkills]
      split
      · rfl
      · simp [hr]

/-- A write begins a life. -/
theorem write (h : Follows order regClass t s) (p : Position) {d : Def}
    (hd : d.register ∈ order.occurring regClass) :
    ∃ s', s.write p d = .ok s' ∧ Adds s s' [] ∧ Follows order regClass
      (fun r => if r = d.register then (t d.register).write p d else t r) s' := by
  have hlive : decide (d.register ∈ s.live) = (t d.register).live := by simp [h.live, hd]
  have hnodup : s.live.Nodup := h.ascending.imp Int.ne_of_lt
  obtain ⟨next, hnext, hadds, hfollows⟩ := h.operand hd (p := p)
    (fun id => beginAt_growth id d.register d (t d.register)) rfl
    (h.ascending.sublist (List.erase_sublist (a := d.register))) fun r => by
      rw [hnodup.mem_erase_iff, Track.live_write]
      simp
  rw [← hlive] at hnext
  exact ⟨_, bind_eq_ok.2 ⟨next, hnext, rfl⟩, ⟨hadds.liveIn, hadds.loops, hadds.errors⟩, hfollows _⟩

/-- A read reaches back to the start of the block; it is at fault if it is marked as the last one
and the value is needed again. -/
theorem read (h : Follows order regClass t s) (hfirst : span.first ≤ p) (i : Instruction)
    (after : List VReg) {u : Use} (hu : u.register ∈ order.occurring regClass) :
    ∃ s', s.read order.graph span p i after u = .ok s' ∧
      Adds s s' (if u.kill && u.register ∈ after then [.readAfterKill u.register
        (order.graph.nameOf u.register) span.block i.index p] else []) ∧
      Follows order regClass
        (fun r => if r = u.register then (t u.register).read span.first p u else t r) s' := by
  obtain ⟨next, hnext, hadds, hfollows⟩ := h.operand hu (p := p)
    (fun id => reachTo_growth id u.register hfirst u (t u.register)) rfl
    (pairwise_insertRegister (r := u.register) h.ascending) fun r => by
      rw [mem_insertRegister]
      by_cases hr : r = u.register <;> simp [hr, Track.read]
  refine ⟨_, bind_eq_ok.2 ⟨next, hnext, rfl⟩, ⟨hadds.liveIn, hadds.loops, ?_⟩, hfollows _⟩
  dsimp only
  rw [apply_ite (s.errors ++ ·), List.append_nil]

/-! ## Instructions -/

/-- The writes of an instruction. -/
theorem writes (p : Position) : ∀ {ds : List Def} {t : VReg → Track} {s : Pass},
    (∀ d ∈ ds, d.register ∈ order.occurring regClass) → Follows order regClass t s →
    ∃ s', ds.foldlM (Pass.write p) s = .ok s' ∧ Adds s s' [] ∧ Follows order regClass
      (fun r => (ds.filter (·.register == r)).foldl (Track.write p) (t r)) s'
  | [], t, s, _, h => ⟨s, rfl, .refl s, h⟩
  | d :: ds, t, s, hds, h => by
    obtain ⟨hd, hds⟩ := List.forall_mem_cons.1 hds
    obtain ⟨s₁, hs₁, hadds₁, h₁⟩ := h.write p hd
    obtain ⟨s₂, hs₂, hadds₂, h₂⟩ := writes p hds h₁
    refine ⟨s₂, ?_, hadds₁.trans hadds₂, h₂.congr fun r _ => ?_⟩
    · rw [List.foldlM_cons]
      exact bind_eq_ok.2 ⟨s₁, hs₁, hs₂⟩
    · by_cases hr : r = d.register
      · subst hr
        simp
      · simp [hr, Ne.symm hr]

/-- The reads of an instruction, and what is wrong with them. -/
theorem reads (hfirst : span.first ≤ p) (i : Instruction) (after : List VReg) :
    ∀ {us : List Use} {t : VReg → Track} {s : Pass},
    (∀ u ∈ us, u.register ∈ order.occurring regClass) → Follows order regClass t s →
    ∃ s', us.foldlM (Pass.read order.graph span p i after) s = .ok s' ∧
      Adds s s' (us.filterMap fun u => if u.kill && u.register ∈ after then
        some (.readAfterKill u.register (order.graph.nameOf u.register) span.block i.index p)
        else none) ∧
      Follows order regClass
        (fun r => (us.filter (·.register == r)).foldl (Track.read span.first p) (t r)) s'
  | [], t, s, _, h => ⟨s, rfl, .refl s, h⟩
  | u :: us, t, s, hus, h => by
    obtain ⟨hu, hus⟩ := List.forall_mem_cons.1 hus
    obtain ⟨s₁, hs₁, hadds₁, h₁⟩ := h.read hfirst i after hu
    obtain ⟨s₂, hs₂, hadds₂, h₂⟩ := reads hfirst i after hus h₁
    refine ⟨s₂, ?_, ?_, h₂.congr fun r _ => ?_⟩
    · rw [List.foldlM_cons]
      exact bind_eq_ok.2 ⟨s₁, hs₁, hs₂⟩
    · have hadds := hadds₁.trans hadds₂
      rw [List.filterMap_cons]
      split at hadds
      · next hissue => simpa [hissue] using hadds
      · next hissue => simpa [hissue] using hadds
    · by_cases hr : r = u.register
      · subst hr
        simp
      · simp [hr, Ne.symm hr]

/-- The registers that are judged, and whether they are needed. -/
def needs (order : LinearOrder) (regClass : Option String) (needed : VReg → Bool) (r : VReg) :
    Option Bool :=
  if r ∈ order.occurring regClass then some (needed r) else none

/-- One instruction, with the code `rest` behind it. -/
theorem instruction (h : Follows order regClass t s) {i : Instruction} {rest : List Instruction}
    {needed : VReg → Bool} (hp : order.positionOf span.block i.index = .ok p)
    (hfirst : span.first ≤ p)
    (hoccur : ∀ r, order.graph.inClass regClass r = true → i.mentions r = true →
      r ∈ order.occurring regClass)
    (hlive : ∀ r ∈ order.occurring regClass, (t r).live = liveBefore r (needed r) rest) :
    ∃ s', Pass.instruction order regClass span i s = .ok s' ∧
      Adds s s' (i.uses.filterMap fun use =>
        (needs order regClass needed use.register).bind
          (order.killIssue? span.block p i rest use)) ∧
      Follows order regClass (fun r => (t r).instruction r span.first p i) s' := by
  have hclass : ∀ r ∈ order.occurring regClass, order.graph.inClass regClass r = true :=
    fun r hr => (LinearOrder.mem_occurring.1 hr).1
  have hdefs : ∀ d ∈ i.defs.filter fun d => order.graph.inClass regClass d.register,
      d.register ∈ order.occurring regClass := by
    intro d hd
    obtain ⟨hd, hown⟩ := List.mem_filter.1 hd
    refine hoccur d.register hown ?_
    rw [Instruction.mentions, Bool.or_eq_true]
    exact .inr (List.any_eq_true.2 ⟨d, hd, beq_self_eq_true _⟩)
  have huses : ∀ u ∈ i.uses.filter fun u => order.graph.inClass regClass u.register,
      u.register ∈ order.occurring regClass := by
    intro u hu
    obtain ⟨hu, hown⟩ := List.mem_filter.1 hu
    refine hoccur u.register hown ?_
    rw [Instruction.mentions, Bool.or_eq_true]
    exact .inl (List.any_eq_true.2 ⟨u, hu, beq_self_eq_true _⟩)
  -- first the results, then the operands, as each register's own track does
  obtain ⟨s₁, hs₁, hadds₁, h₁⟩ := writes p hdefs h
  obtain ⟨s₂, hs₂, hadds₂, h₂⟩ := reads hfirst i s₁.live huses h₁
  -- the operands of other classes are none of the registers that occur
  have hown : ∀ r ∈ order.occurring regClass, ∀ x : VReg,
      (x == r && order.graph.inClass regClass x) = (x == r) := by
    intro r hr x
    by_cases hx : x = r
    · simp [hx, hclass r hr]
    · simp [hx]
  have hissues : ∀ u ∈ i.uses,
      (needs order regClass needed u.register).bind (order.killIssue? span.block p i rest u) =
        if order.graph.inClass regClass u.register then
          if u.kill && u.register ∈ s₁.live then some (.readAfterKill u.register
            (order.graph.nameOf u.register) span.block i.index p) else none
        else none := by
    intro u hu
    rw [needs]
    -- whether a register is needed behind its read was decided after the writes
    by_cases hclassed : order.graph.inClass regClass u.register = true
    · have hr := huses u (List.mem_filter.2 ⟨hu, hclassed⟩)
      have hafter : u.register ∈ s₁.live ↔ (!i.writes u.register &&
          liveBefore u.register (needed u.register) rest) = true := by
        rw [h₁.live, Track.live_writes, List.filter_filter]
        simp only [hown _ hr, Track.isEmpty_filter_defs, hr, true_and, hlive _ hr]
      rw [if_pos hclassed, if_pos hr, Option.bind_some, LinearOrder.killIssue?, Bool.and_assoc]
      simp only [hafter, Bool.decide_eq_true]
    · rw [if_neg hclassed, if_neg fun hr => hclassed (hclass _ hr)]
      rfl
  refine ⟨s₂, bind_eq_ok.2 ⟨p, hp, bind_eq_ok.2 ⟨s₁, hs₁, hs₂⟩⟩, ?_, h₂.congr fun r hr => ?_⟩
  · have hadds := hadds₁.trans hadds₂
    rw [List.nil_append, List.filterMap_filter, ← List.filterMap_congr hissues] at hadds
    exact hadds
  · simp only [Track.instruction, List.filter_filter, hown r hr]

/-- Straight-line code, last instruction first. -/
theorem code (h : Follows order regClass t s) : ∀ {body : List Instruction} {p : Position},
    order.Places span.block p body → span.first ≤ p →
    (∀ i ∈ body, ∀ r, order.graph.inClass regClass r = true → i.mentions r = true →
      r ∈ order.occurring regClass) →
    ∃ s', body.foldrM (Pass.instruction order regClass span) s = .ok s' ∧
      Adds s s' (order.killIssues (needs order regClass fun r => (t r).live) span.block p body) ∧
      Follows order regClass (fun r => (t r).code r span.first p body) s'
  | [], _, _, _, _ => ⟨s, rfl, .refl s, h⟩
  | i :: rest, p, hplaces, hfirst, hoccur => by
    obtain ⟨hi, hrest⟩ := List.forall_mem_cons.1 hoccur
    obtain ⟨s₁, hs₁, hadds₁, h₁⟩ := h.code hplaces.tail (by lia) hrest
    obtain ⟨s₂, hs₂, hadds₂, h₂⟩ := h₁.instruction hplaces.head hfirst hi
      fun r _ => Track.live_code r span.first rest (p + stride) (t r)
    refine ⟨s₂, ?_, hadds₁.trans hadds₂, h₂⟩
    rw [List.foldrM_cons]
    exact bind_eq_ok.2 ⟨s₁, hs₁, hs₂⟩

end Follows

/-! ## Blocks -/

/-- A pass over the last blocks of an order: it has in it what the scans of these blocks find. -/
structure Scanned (order : LinearOrder) (regClass : Option String) (later : List Span)
    (s : Pass) : Prop where
  follows : Follows order regClass (fun r => (order.scanSpans r later).track) s
  blocks : s.liveIn.map (·.1) = later.map (·.block)
  liveIn : ∀ b, (s.liveIn.lookup b).getD [] =
    (order.occurring regClass).filter fun r => (order.scanSpans r later).neededAt b
  loops : ∀ loop, loop ∈ s.loops ↔ ∃ span ∈ later, ∃ stop,
    order.latchEnd? span.block = some stop ∧
      loop = ⟨span.first, stop, (order.occurring regClass).filter (order.needed · span.block)⟩
  errors : s.errors = later.reverse.flatMap fun span =>
    order.killIssues (Follows.needs order regClass (order.neededAfter · span.block)) span.block
      span.first (order.graph.instructions span.block)

namespace Scanned

variable {order : LinearOrder} {regClass : Option String} {later : List Span} {s : Pass}

theorem nil (order : LinearOrder) (regClass : Option String) :
    Scanned order regClass [] { intervals := order.createIntervals regClass } where
  follows := ⟨rfl, .nil, by simp [LinearOrder.scanSpans], by simp [LinearOrder.scanSpans]⟩
  blocks := rfl
  liveIn b := by simp [LinearOrder.scanSpans, Scan.neededAt]
  loops := by simp
  errors := rfl

/-- What is live after a block is what the scans find to be needed after it. -/
theorem mem_liveAfter (h : Scanned order regClass later s) {b : BlockId} {r : VReg} :
    r ∈ s.liveAfter order b ↔ r ∈ order.occurring regClass ∧
      (order.scanSpans r later).neededAfter order b = true := by
  simp only [liveAfter, mem_ascending, List.mem_flatMap, List.mem_filter, h.liveIn,
    Scan.neededAfter, List.any_eq_true, Bool.and_eq_true, Bool.not_eq_true']
  grind

/-- A block ends its loop, if it is the header of one. -/
theorem closeLoop (hregular : order.Regular) {t : VReg → Track} {span : Span}
    (hspan : span ∈ order.spans) (h : Follows order regClass t s) :
    ∃ s', s.closeLoop order span = .ok s' ∧ s'.live = s.live ∧ s'.liveIn = s.liveIn ∧
      s'.errors = s.errors ∧
      (∀ loop, loop ∈ s'.loops ↔ loop ∈ s.loops ∨ ∃ stop,
        order.latchEnd? span.block = some stop ∧ loop = ⟨span.first, stop, s.live⟩) ∧
      Follows order regClass (fun r => match order.latchEnd? span.block with
        | some stop => if (t r).live then (t r).extend span.first stop else t r
        | none => t r) s' := by
  have hfound := LinearOrder.findLatchEnd_eq_ok hregular span.block
  cases hlatch : order.latchEnd? span.block with
  | none =>
    rw [hlatch] at hfound
    exact ⟨s, bind_eq_ok.2 ⟨none, hfound, rfl⟩, rfl, rfl, rfl, by simp, h⟩
  | some stop =>
    rw [hlatch] at hfound
    obtain ⟨s₁, hs₁, hlive, hadds, h₁⟩ :=
      h.extend (LinearOrder.first_lt_latchEnd hregular hspan hlatch)
    refine ⟨_, bind_eq_ok.2 ⟨some stop, hfound, bind_eq_ok.2 ⟨s₁, hs₁, rfl⟩⟩, hlive, hadds.liveIn,
      hadds.errors.trans (List.append_nil _), fun loop => ?_, h₁.intervals, h₁.ascending, h₁.live,
      h₁.kills⟩
    simp [hadds.loops, hlive]

/-- Following one more block. -/
theorem block (hregular : order.Regular) (hindexed : order.graph.Indexed)
    (h : Scanned order regClass later s) {earlier : List Span} {span : Span}
    (hspans : order.spans = earlier ++ span :: later) :
    ∃ s', s.block order regClass span.block = .ok s' ∧
      Scanned order regClass (span :: later) s' := by
  have hspan : span ∈ order.spans := by simp [hspans]
  have hlt : span.first < span.last + stride := hregular.contiguous.first_lt_stop span hspan
  let opened (r : VReg) : Track := { (order.scanSpans r later).track with
    live := (order.scanSpans r later).neededAfter order span.block }
  -- the tracks as the block is entered from behind
  have hopened : Follows order regClass opened { s with live := s.liveAfter order span.block } :=
    ⟨h.follows.intervals, pairwise_ascending _, fun r => h.mem_liveAfter, h.follows.kills⟩
  obtain ⟨s₁, hs₁, hlive₁, hadds₁, h₁⟩ := hopened.extend hlt
  obtain ⟨s₂, hs₂, hadds₂, h₂⟩ := h₁.code (hregular.places hindexed hspan) (Int.le_refl _)
    fun i hi r hclass hr => LinearOrder.mem_occurring.2
      ⟨hclass, Graph.mentions_iff.2 ⟨span.block, i, hi, hr⟩⟩
  obtain ⟨s₃, hs₃, hlive₃, hliveIn₃, herrors₃, hloops₃, h₃⟩ := closeLoop hregular hspan h₂
  have hblock : s.block order regClass span.block =
      .ok { s₃ with liveIn := (span.block, s₃.live) :: s₃.liveIn } :=
    bind_eq_ok.2 ⟨span, hregular.span_block hspan, bind_eq_ok.2 ⟨s₁, hs₁, bind_eq_ok.2
      ⟨s₂, hs₂, bind_eq_ok.2 ⟨s₃, hs₃, rfl⟩⟩⟩⟩
  have hfollows : Follows order regClass (fun r => (order.scanSpans r (span :: later)).track) s₃ :=
    h₃
  have hliveIn : s₃.liveIn = s.liveIn := by rw [hliveIn₃, hadds₂.liveIn, hadds₁.liveIn]
  -- the block is scanned once, so what is found here stays
  have hneeded : ∀ r, order.needed r span.block =
      (order.scanSpans r (span :: later)).track.live := by
    intro r
    have hnot : span.block ∉ earlier.map (·.block) := by
      have hnodup := hregular.nodup
      rw [hspans, List.map_append, List.nodup_append] at hnodup
      exact fun hmem => hnodup.2.2 _ hmem _ (by simp) rfl
    rw [LinearOrder.needed, LinearOrder.scan, hspans, LinearOrder.neededAt_scanSpans hnot]
    simp [Scan.neededAt, LinearOrder.scanSpans]
  -- what has been recorded: the block, its set, its loop and the reports
  refine ⟨_, hblock, ⟨hfollows.intervals, hfollows.ascending, hfollows.live, hfollows.kills⟩, ?_,
    fun b => ?_, fun loop => ?_, ?_⟩
  · simp [hliveIn, h.blocks]
  · rw [hliveIn, List.lookup_cons]
    by_cases hb : b = span.block
    · subst hb
      simp [hfollows.live_eq, Scan.neededAt, LinearOrder.scanSpans]
    · have hne : (b == span.block) = false := by simpa using hb
      simp only [Scan.neededAt, LinearOrder.scanSpans, List.lookup_cons, hne]
      exact h.liveIn b
  · have hlive : s₂.live = (order.occurring regClass).filter (order.needed · span.block) := by
      simp only [← hlive₃, hfollows.live_eq, hneeded]
    rw [hloops₃, hadds₂.loops, hadds₁.loops, h.loops, hlive]
    simp only [List.mem_cons, exists_eq_or_imp]
    exact or_comm
  · have hafter : (fun r => (opened r).live) = (order.neededAfter · span.block) :=
      funext fun r => LinearOrder.neededAfter_scanSpans hregular hspans
    simp only [Track.live_extend_if, hafter] at hadds₂
    rw [herrors₃, hadds₂.errors, hadds₁.errors, List.append_nil, h.errors, List.reverse_cons,
      List.flatMap_append, List.flatMap_singleton]

end Scanned

end Pass

namespace LinearOrder

open Pass

/-- Passing over the last blocks of an order. -/
theorem exists_pass_later {order : LinearOrder} (hregular : order.Regular)
    (hindexed : order.graph.Indexed) (regClass : Option String) :
    ∀ {later earlier : List Span}, order.spans = earlier ++ later →
      ∃ s, (later.map (·.block)).foldrM (Pass.block order regClass)
          { intervals := order.createIntervals regClass } = .ok s ∧
        Scanned order regClass later s
  | [], _, _ => ⟨_, rfl, .nil order regClass⟩
  | span :: later, earlier, hspans => by
    have hsplit : order.spans = (earlier ++ [span]) ++ later := by simp [hspans]
    obtain ⟨s, hs, h⟩ := exists_pass_later hregular hindexed regClass hsplit
    obtain ⟨s', hs', h'⟩ := h.block hregular hindexed hspans
    refine ⟨s', ?_, h'⟩
    rw [List.map_cons, List.foldrM_cons]
    exact bind_eq_ok.2 ⟨s, hs, hs'⟩

/-- A pass over a linear order has in it, for each register, what the scan of that register
finds. -/
theorem exists_pass {order : LinearOrder} (hregular : order.Regular)
    (hindexed : order.graph.Indexed) (regClass : Option String) :
    ∃ s, order.pass regClass = .ok s ∧ Scanned order regClass order.spans s :=
  exists_pass_later hregular hindexed regClass (List.nil_append _).symm

end LinearOrder

end RegAlloc
