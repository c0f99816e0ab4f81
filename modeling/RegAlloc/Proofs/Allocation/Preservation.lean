import RegAlloc.Proofs.Allocation.Contents

/-!
# Allocation preserves what a program computes

An allocated program and the program on virtual registers run side by side. At an
instruction, the locations hold the values of the registers that are live there; as the
moves of a gap begin, those of the registers that are live in the gap, each where the piece
that the gap begins with has it.

- `Allocation.Verified` — an arranged and checked allocation of a program without loops;
- `Verified.reads`, `Verified.settles`, `Verified.keeps_gap`, `Verified.keeps_edge` — one
  instruction, one gap and one edge;
- `Verified.keeps_code`, `Verified.keeps_path` — a block and a path;
- `allocation_preserves_reads` — the allocated program reads what the program reads.
-/

namespace RegAlloc

variable {V : Type} {a : Allocation} {life : Lifetime} {i j k : Interval} {p gap : Position}
  {store : Location → V} {env : VReg → V} {instruction : Instruction} {span : Span}

namespace Allocation

/-- An arranged and checked allocation of a program without loops whose definitions need
registers, from a pool of names that are told apart from slots. -/
structure Verified (a : Allocation) : Prop extends Arranged a none, Checked a where
  gapGroups : ∀ group ∈ a.resolution.gaps, group.Sound a.order a.liveness.lives a.scratch
  edgeGroups : ∀ group ∈ a.resolution.edges, ∀ m ∈ group.moves,
    m.Within (Place a.liveness.lives a.scratch) (Place a.liveness.lives a.scratch)
  named : Location.Named a.registers
  defs : a.order.graph.DefsInRegisters
  loopFree : a.order.loopEdges = []

namespace Verified

/-! ## Looking up -/

theorem disjoint (h : a.Verified) : a.Disjoint none := { h with }

/-- Values are written to registers. -/
theorem policy_of_write (h : a.Verified) (hi : i ∈ a.intervals) {u : UsePoint} (hu : u ∈ i.uses)
    (hwrite : u.access = .write) : u.policy = .register := by
  obtain ⟨life, hlife, hpiece⟩ := (h.mem_intervals i).1 hi
  obtain ⟨p, instruction, ⟨span, -, index, hindex, -⟩, hused⟩ :=
    (LinearOrder.mem_uses_scan ..).1 ((h.uses life hlife u).1 ⟨i, hpiece, hu⟩)
  rcases hused with ⟨d, hd, -, rfl⟩ | ⟨use, -, -, rfl⟩
  · exact h.defs span.block instruction (List.mem_of_getElem? hindex) d hd
  · cases hwrite

/-! ## Reads -/

/-- An instruction finds the values that it reads. -/
theorem reads (h : a.Verified) (hstands : a.order.Stands p instruction)
    (hkeeps : a.Keeps (·.pieceAt? p) store env) :
    ∃ sources, instruction.uses.mapM (fun use => a.locate? use.register p) = some sources ∧
      sources.map store = instruction.uses.map fun use => env use.register := by
  refine mapM_eq_some fun use huse => ?_
  obtain ⟨life, hlife, hregister, i, hi, -, hcovers⟩ :=
    h.exists_used hstands rfl (.inr ⟨use, huse, rfl, rfl⟩)
  obtain ⟨l, hl, hlocate⟩ := h.locate?_of_covers hlife hi hcovers
  rw [← hregister]
  exact ⟨l, hlocate,
    hkeeps life hlife i ((h.laid life hlife).pieceAt?_eq_some.2 ⟨hi, hcovers⟩) l hl⟩

/-! ## Writes -/

/-- A definition is written to a register, by the piece that covers the gap. -/
theorem exists_written (h : a.Verified) (hstands : a.order.Stands p instruction) {d : Def}
    (hd : d ∈ instruction.defs) :
    ∃ life ∈ a.liveness.lives, life.register = d.register ∧ ∃ i ∈ life.pieces,
      i.covers (p + 1) = true ∧ i.WrittenAt (p + 1) ∧ ∃ name, i.location = some (.register name) ∧
        a.locate? d.register (p + 1) = some (.register name) := by
  obtain ⟨life, hlife, hregister, i, hi, hu, hcovers⟩ :=
    h.exists_used hstands rfl (.inl ⟨d, hd, rfl, rfl⟩)
  obtain ⟨l, hl, hlocate⟩ := h.locate?_of_covers hlife hi hcovers
  have hmem := h.mem_of_piece hlife hi
  refine ⟨life, hlife, hregister, i, hi, hcovers, ⟨_, hu, rfl, rfl⟩, ?_⟩
  cases l with
  | register name => exact ⟨name, hl, hregister ▸ hlocate⟩
  | slot n => exact absurd (h.policy_of_write hmem hu rfl) (h.policy i hmem n hl _ hu)

/-- A value that is written in a gap is kept there from the start. -/
theorem eq_of_writtenAt (h : a.Verified) (hodd : gap % stride = 1) (hlife : life ∈ a.liveness.lives)
    (hk : life.pieceBefore? gap = some k) (hi : i ∈ life.pieces) (hcovers : i.covers gap = true)
    (hwritten : i.WrittenAt gap) : k = i := by
  have hlaid := h.laid life hlife
  obtain ⟨hkmem, hkgap | ⟨j, hj, rfl, -, hmended⟩⟩ := h.covers_or_seam hodd hlife hk
  · exact hlaid.unique hkmem hi hkgap hcovers
  · cases hlaid.unique hj hi (Interval.covers_start (hlaid.shaped j hj)) hcovers
    obtain ⟨u, hu, hposition, hwrite⟩ := hwritten
    exact absurd (h.policy_of_write (h.mem_of_piece hlife hj) hu hwrite)
      (hmended.quiet u hu hposition)

/-- Writing results settles the registers that they define, and leaves the others alone. -/
theorem settles (h : a.Verified) (hstands : a.order.Stands p instruction) :
    ∀ (results : List (Def × V)) (store : Location → V) (env : VReg → V),
      (∀ x ∈ results, x.1 ∈ instruction.defs) →
      (∀ life ∈ a.liveness.lives, ∀ k, life.pieceBefore? (p + 1) = some k →
        ∀ l, k.location = some l →
          store l = env life.register ∨ ∃ x ∈ results, x.1.register = life.register) →
      ∃ written, a.writeAll (p + 1) store results = some written ∧
        a.Keeps (·.pieceBefore? (p + 1)) written (Graph.writeAll env results)
  | [], store, env, _, hkeeps => by
    refine ⟨store, rfl, fun life hlife k hk l hl => ?_⟩
    obtain hstore | ⟨x, hx, -⟩ := hkeeps life hlife k hk l hl
    · exact hstore
    · cases hx
  | (d, v) :: rest, store, env, hdefs, hkeeps => by
    -- one result at a time, with the places of later ones still to be settled
    have hodd : (p + 1) % stride = 1 := by
      have := hstands.even h.regular
      lia
    obtain ⟨hd, hdefs⟩ := List.forall_mem_cons.1 hdefs
    obtain ⟨owner, howner, hregister, i, hi, hcovers, hwritten, name, hname, hlocate⟩ :=
      h.exists_written hstands hd
    rw [writeAll_cons rest hlocate]
    refine h.settles hstands rest _ (Function.update env d.register v) hdefs
      fun life hlife k hk l hl => ?_
    by_cases hsame : life.register = d.register
    · -- the register that is written
      cases h.eq_of_register hlife howner (hsame.trans hregister.symm)
      cases h.eq_of_writtenAt hodd hlife hk hi hcovers hwritten
      cases hl.symm.trans hname
      exact .inl (by simp [hsame])
    -- nothing else is in the register that is written
    · have hne : l ≠ .register name := by
        rintro rfl
        have hir := ((h.laid owner howner).register i hi).trans hregister
        exact h.disjoint.ne_of_writtenAt hodd hlife hk (h.mem_of_piece howner hi) hcovers
          hwritten (fun heq => hsame (heq.symm.trans hir)) hname hl
      rw [Function.update_of_ne hne, Function.update_of_ne hsame]
      refine (hkeeps life hlife k hk l hl).imp_right ?_
      rintro ⟨x, hx, hxr⟩
      rcases List.mem_cons.1 hx with rfl | hx
      · exact absurd hxr.symm hsame
      · exact ⟨x, hx, hxr⟩

/-- As the moves behind an instruction begin, a register that is live there holds its value
unless the instruction writes it. -/
theorem kept_or_written (h : a.Verified) (heven : p % stride = 0)
    (hkeeps : a.Keeps (·.pieceAt? p) store env) (hlife : life ∈ a.liveness.lives)
    (hk : life.pieceBefore? (p + 1) = some k) {l : Location} (hl : k.location = some l) :
    store l = env life.register ∨
      ∃ instruction, a.order.Stands p instruction ∧ instruction.writes life.register = true := by
  have hlaid := h.laid life hlife
  obtain ⟨hkmem, j, hj, hjgap, hbefore | ⟨-, hbegins⟩⟩ := hlaid.of_pieceBefore? hk
  · rw [Int.add_sub_cancel] at hbefore
    exact .inl (hkeeps life hlife k (hlaid.pieceAt?_eq_some.2 ⟨hkmem, hbefore⟩) l hl)
  · rw [Int.add_sub_cancel] at hbegins
    exact .inr (h.writes_of_begins heven hlife hj hjgap hbegins)

/-- An instruction writes its results to where they are kept. -/
theorem keeps_instruction (h : a.Verified) (hstands : a.order.Stands p instruction)
    (hkeeps : a.Keeps (·.pieceAt? p) store env) (meaning : Meaning V) (inputs : List V) :
    ∃ written, a.writeAll (p + 1) store (instruction.results meaning inputs) = some written ∧
      a.Keeps (·.pieceBefore? (p + 1)) written
        (Graph.writeAll env (instruction.results meaning inputs)) := by
  have hdefs := instruction.map_fst_results meaning inputs
  refine h.settles hstands _ store env (fun x hx => hdefs ▸ List.mem_map_of_mem hx)
    fun life hlife k hk l hl => ?_
  refine (h.kept_or_written (hstands.even h.regular) hkeeps hlife hk hl).imp_right ?_
  rintro ⟨other, hother, hwrites⟩
  cases hother.unique h.regular hstands
  simp only [Instruction.writes, List.any_eq_true, beq_iff_eq] at hwrites
  obtain ⟨d, hd, hdr⟩ := hwrites
  rw [← hdefs] at hd
  obtain ⟨x, hx, rfl⟩ := List.mem_map.1 hd
  exact ⟨x, hx, hdr⟩

/-! ## Moves -/

/-- The moves of a gap lead from places to places. -/
theorem within_gapMoves (h : a.Verified) : ∀ m ∈ a.gapMoves gap,
    m.Within (Place a.liveness.lives a.scratch) (Place a.liveness.lives a.scratch) := by
  intro m hm
  obtain ⟨group, hgroup, -, hm⟩ := mem_gapMoves hm
  obtain ⟨hsource, htarget⟩ := (h.gapGroups group hgroup).moves m hm
  refine ⟨hsource, htarget.imp_right ?_⟩
  rintro ⟨crossing, ⟨life, hlife, -, -, j, hj, -, -, -, hl⟩, heq⟩
  exact ⟨life, hlife, j, hj, heq ▸ hl⟩

/-- The moves of a gap bring a value from a piece to the next one. -/
theorem keeps_bridge (h : a.Verified) (hkeeps : a.Keeps (·.pieceBefore? gap) store env)
    (hlife : life ∈ a.liveness.lives) (hi : i ∈ life.pieces) (hj : j ∈ life.pieces)
    (hmeet : i.stop = j.start) (hgap : a.order.splitGap? j.start = some gap) {l : Location}
    (hl : j.location = some l) : runMoves store (a.gapMoves gap) l = env life.register := by
  have hlaid := h.laid life hlife
  obtain ⟨contents, hreplay, hcontents⟩ := h.bridges life hlife i j
    (hlaid.mem_neighbours hi hj hmeet) (hlaid.touches_of_stop_eq hi hj hmeet) gap hgap
  have hdescribes :=
    (h.disjoint.describes_contentsBefore hkeeps).replay h.disjoint.place_eq h.within_gapMoves
      hreplay
  exact hdescribes l life.register (.inr ⟨life, hlife, j, hj, hl⟩) (hcontents l hl)

/-- The moves of a gap do not lead to a piece that reaches from the gap to the instruction
behind it, if no other piece of the value ends in the gap. -/
theorem target_ne (h : a.Verified) (hodd : gap % stride = 1) (hlife : life ∈ a.liveness.lives)
    (hi : i ∈ life.pieces) (hgap : i.covers gap = true) (hnext : i.covers (gap + 1) = true)
    (hfirst : ¬ ∃ k ∈ life.pieces, k.stop = i.start ∧ gap ≤ i.start) {l : Location}
    (hl : i.location = some l) : ∀ m ∈ a.gapMoves gap, m.target ≠ l := by
  rintro m hm rfl
  have himem := h.mem_of_piece hlife hi
  obtain ⟨group, hgroup, rfl, hmem⟩ := mem_gapMoves hm
  obtain hscratch | ⟨crossing, ⟨owner, howner, k, hk, j, hj, hmeet, hsplit, -, hjl⟩, htarget⟩ :=
    ((h.gapGroups group hgroup).moves m hmem).2
  · exact h.ne_scratch himem hl hscratch
  · -- the piece that is led to begins here, and shares the location and a position with this one
    rw [htarget] at hjl
    have hjmem := h.mem_of_piece howner hj
    have hjstart := Interval.covers_start ((h.laid owner howner).shaped j hj)
    have hstart := ((LinearOrder.splitGap?_eq_some hodd).1 hsplit).1
    have hcovers : i.covers j.start = true := by
      rcases hstart with heq | heq
      · exact heq ▸ hgap
      · exact heq ▸ hnext
    cases eq_of_covers h.ascending h.apart himem hjmem hl hjl hcovers hjstart
    have hregister := ((h.laid life hlife).register i hi).symm.trans
      ((h.laid owner howner).register i hj)
    cases h.eq_of_register hlife howner hregister
    exact hfirst ⟨k, hk, hmeet, by lia⟩

/-- Behind the moves of a gap, the registers are where the next instruction expects them. -/
theorem keeps_gap (h : a.Verified) (hspan : span ∈ a.order.spans) {n : Nat}
    (hn : (a.order.graph.instructions span.block)[n + 1]? = some instruction)
    (hgap : gap = span.first + stride * n + 1)
    (hkeeps : a.Keeps (·.pieceBefore? gap) store env) :
    a.Keeps (·.pieceAt? (gap + 1)) (runMoves store (a.gapMoves gap)) env := by
  intro life hlife i hi l hl
  have hlaid := h.laid life hlife
  obtain ⟨himem, hcovers⟩ := hlaid.pieceAt?_eq_some.1 hi
  have heven := h.regular.even_first span hspan
  have hodd : gap % stride = 1 := by lia
  have hwithin := LinearOrder.stands_within h.regular hspan hn
  have hinside : a.order.isBlockStart (gap + 1) = false :=
    h.regular.isBlockStart_eq_false hspan (by lia) (by lia)
  -- the value was in some piece in the gap
  obtain ⟨j, hj, hjgap⟩ : ∃ j ∈ life.pieces, j.covers gap = true := by
    have hlive := (h.covers life hlife (gap + 1)).1 ⟨i, himem, hcovers⟩
    have hnext : gap + 1 = span.first + stride * (n + 1) := by lia
    rw [hnext] at hlive
    rw [h.covers life hlife, hgap]
    exact LinearOrder.covers_gap h.regular hspan hn hlive
  -- the value crosses the gap, or stays where it is
  by_cases hcross : ∃ k ∈ life.pieces, k.stop = i.start ∧ gap ≤ i.start
  · obtain ⟨k, hk, hmeet, hle⟩ := hcross
    have := Interval.start_le (hlaid.shaped i himem) hcovers
    exact h.keeps_bridge hkeeps hlife hk himem hmeet
      ((LinearOrder.splitGap?_eq_some hodd).2 ⟨by lia, hinside⟩) hl
  · have hgapi : i.covers gap = true := by
      by_cases hji : j = i
      · exact hji ▸ hjgap
      · obtain ⟨hstop, hstart⟩ := hlaid.meet_of_ne hj himem hji hjgap hcovers
        exact absurd ⟨j, hj, by lia, by lia⟩ hcross
    rw [runMoves_of_ne (h.target_ne hodd hlife himem hgapi hcovers hcross hl)]
    refine hkeeps life hlife i ?_ l hl
    -- the piece of the gap is the one before it, or the value begins in the gap
    by_cases hbegins : ∃ k ∈ life.pieces, k.covers (gap - 1) = true
    · obtain ⟨k, hk, hkbefore⟩ := hbegins
      by_cases hki : k = i
      · exact hlaid.pieceBefore?_of_covers himem (hki ▸ hkbefore) himem hgapi
      · obtain ⟨hstop, hstart⟩ := hlaid.meet_of_ne hk himem hki hkbefore (by simpa using hgapi)
        exact absurd ⟨k, hk, by lia, by lia⟩ hcross
    · refine hlaid.pieceBefore?_of_begins himem hgapi fun k hk => ?_
      exact Bool.eq_false_iff.2 fun hkbefore => hbegins ⟨k, hk, hkbefore⟩

/-- The exit gap of a block has no moves. -/
theorem gapMoves_exit (h : a.Verified) (hspan : span ∈ a.order.spans) :
    a.gapMoves (span.last + 1) = [] := by
  refine List.eq_nil_iff_forall_not_mem.2 fun m hm => ?_
  obtain ⟨group, hgroup, hposition, -⟩ := mem_gapMoves hm
  exact (h.gapGroups group hgroup).position_ne h.regular hspan hposition

/-- Behind the moves of an edge, the registers are where the next block expects them. -/
theorem keeps_edge (h : a.Verified) {target : Span} (hspan : span ∈ a.order.spans)
    (htarget : target ∈ a.order.spans) (hedge : a.order.graph.HasEdge span.block target.block)
    (hkeeps : a.Keeps (·.pieceBefore? (span.last + 1)) store env) :
    a.Keeps (·.pieceAt? target.first)
      (runMoves store (a.edgeMoves span.block target.block)) env := by
  intro life hlife i hi l hl
  have hlaid := h.laid life hlife
  obtain ⟨himem, hcovers⟩ := hlaid.pieceAt?_eq_some.1 hi
  have hlive := (h.covers life hlife _).1 ⟨i, himem, hcovers⟩
  -- the value is live in the target, so it leaves the source in some piece
  have hleaves : (life.pieceBefore? (span.last + 1)).isSome = true := by
    obtain ⟨j, hj, hjexit⟩ := (h.covers life hlife _).2
      (LinearOrder.covers_exit h.regular h.loopFree hspan htarget hedge hlive)
    rw [Lifetime.pieceBefore?, hlaid.pieceAt?_eq_some.2 ⟨hj, hjexit⟩, Option.isSome_some,
      if_pos rfl, List.find?_isSome]
    exact ⟨j, hj, by simp [hjexit]⟩
  obtain ⟨l', hl', hlocate⟩ := h.locate?_of_covers hlife himem hcovers
  cases hl'.symm.trans hl
  obtain ⟨contents, hreplay, hcontents⟩ := h.edges span hspan target.block hedge target
    (h.regular.span?_eq_some.2 ⟨htarget, rfl⟩)
  have hwithin : ∀ m ∈ a.edgeMoves span.block target.block,
      m.Within (Place a.liveness.lives a.scratch) (Place a.liveness.lives a.scratch) := by
    intro m hm
    obtain ⟨group, hgroup, -, hm⟩ := mem_edgeMoves hm
    exact h.edgeGroups group hgroup m hm
  -- the moves were checked on registers, and what holds a register holds its value
  have hdescribes :=
    (h.disjoint.describes_contentsBefore hkeeps).replay h.disjoint.place_eq hwithin hreplay
  exact hdescribes l life.register (.inr ⟨life, hlife, i, himem, hl⟩)
    (hcontents life.register
      ((h.liveInto target htarget _).2 ⟨(h.occurs _).2 ⟨life, hlife, rfl⟩, hlive⟩) life
      (h.life?_register hlife) hleaves l hlocate)

/-! ## Runs -/

/-- From an instruction to the end of its block, both programs read the same. -/
theorem keeps_code (h : a.Verified) (hspan : span ∈ a.order.spans) (meaning : Meaning V) :
    ∀ (code : List Instruction) (n : Nat) {store : Location → V} {env : VReg → V}, code ≠ [] →
      (a.order.graph.instructions span.block).drop n = code →
      a.Keeps (·.pieceAt? (span.first + stride * n)) store env →
      ∃ last, a.runCode meaning (span.first + stride * n) code store =
          some ((Graph.runCode meaning code env).1, last) ∧
        a.Keeps (·.pieceBefore? (span.last + 1)) last (Graph.runCode meaning code env).2
  | i :: rest, n, store, env, _, hdrop, hkeeps => by
    have hget : (a.order.graph.instructions span.block)[n]? = some i := by
      rw [← List.head?_drop, hdrop, List.head?_cons]
    have hrest : (a.order.graph.instructions span.block).drop (n + 1) = rest := by
      rw [← List.tail_drop, hdrop, List.tail_cons]
    have hstands : a.order.Stands (span.first + stride * n) i := ⟨span, hspan, n, hget, rfl⟩
    -- read, compute, write, and then move on through the gap
    obtain ⟨sources, hsources, hinputs⟩ := h.reads hstands hkeeps
    obtain ⟨written, hwritten, hsettled⟩ :=
      h.keeps_instruction hstands hkeeps meaning (sources.map store)
    cases rest with
    -- behind the last instruction the block is left
    | nil =>
      have hexit : span.first + stride * n + 1 = span.last + 1 := by
        have hstop := h.regular.stop span hspan
        have hlength := congrArg List.length hdrop
        rw [List.length_drop, List.length_singleton] at hlength
        rw [Span.stop] at hstop
        lia
      refine ⟨written, ?_, ?_⟩
      · rw [Graph.runCode, ← hinputs]
        refine runCode_cons hsources hwritten ?_
        rw [hexit, h.gapMoves_exit hspan]
        rfl
      · rw [Graph.runCode, ← hinputs, ← hexit]
        exact hsettled
    | cons next rest =>
      have hnext : (a.order.graph.instructions span.block)[n + 1]? = some next := by
        rw [← List.head?_drop, hrest, List.head?_cons]
      have hmoved := h.keeps_gap hspan hnext rfl hsettled
      have hposition : span.first + stride * n + 1 + 1 = span.first + stride * (n + 1 : Nat) := by
        lia
      rw [hposition] at hmoved
      obtain ⟨last, hrun, hlast⟩ := h.keeps_code hspan meaning (next :: rest) (n + 1) (by simp)
        hrest hmoved
      refine ⟨last, ?_, ?_⟩
      · rw [Graph.runCode, ← hinputs]
        refine runCode_cons hsources hwritten ?_
        rw [← hposition] at hrun
        rwa [Int.add_assoc _ 1 1] at hrun
      · rw [Graph.runCode, ← hinputs]
        exact hlast

/-- Through a block, both programs read the same. -/
theorem keeps_block (h : a.Verified) (hspan : span ∈ a.order.spans) (meaning : Meaning V)
    (hkeeps : a.Keeps (·.pieceAt? span.first) store env) :
    ∃ last, a.runCode meaning span.first (a.order.graph.instructions span.block) store =
        some ((Graph.runCode meaning (a.order.graph.instructions span.block) env).1, last) ∧
      a.Keeps (·.pieceBefore? (span.last + 1)) last
        (Graph.runCode meaning (a.order.graph.instructions span.block) env).2 := by
  by_cases hempty : a.order.graph.instructions span.block = []
  · -- nothing is written in an empty block
    refine ⟨store, by rw [hempty]; rfl, fun life hlife k hk l hl => ?_⟩
    have hstop := h.regular.stop span hspan
    rw [hempty, Span.stop] at hstop
    have hlast : span.last = span.first := by simp at hstop; lia
    rw [hlast] at hk
    rw [hempty]
    obtain hkept | ⟨i, ⟨other, hother, n, hn, hposition⟩, -⟩ :=
      h.kept_or_written (h.regular.even_first span hspan) hkeeps hlife hk hl
    · exact hkept
    · have hwithin := LinearOrder.stands_within h.regular hother hn
      have hlt := h.regular.contiguous.first_lt_stop span hspan
      cases h.regular.span_at_unique hother hspan ⟨by lia, by lia⟩ ⟨Int.le_refl _, hlt⟩
      simp [hempty] at hn
  · simpa using h.keeps_code hspan meaning _ 0 hempty List.drop_zero (by simpa using hkeeps)

/-- Nothing is kept as the program starts. -/
theorem keeps_start (h : a.Verified) (hspan : a.order.spans.head? = some span)
    (store : Location → V) (env : VReg → V) : a.Keeps (·.pieceAt? span.first) store env := by
  intro life hlife i hi
  obtain ⟨himem, hcovers⟩ := (h.laid life hlife).pieceAt?_eq_some.1 hi
  have hlive := (h.covers life hlife _).1 ⟨i, himem, hcovers⟩
  simp [h.entry span hspan life hlife] at hlive

/-- Along a path, both programs read the same. -/
theorem keeps_path (h : a.Verified) (meaning : Meaning V) :
    ∀ (path : List BlockId) {span : Span} {store : Location → V} {env : VReg → V},
      span ∈ a.order.spans → (span.block :: path).IsChain a.order.graph.HasEdge →
      a.Keeps (·.pieceAt? span.first) store env →
      a.runPath meaning (span.block :: path) store =
        some (a.order.graph.runPath meaning (span.block :: path) env)
  | [], span, store, env, hspan, _, hkeeps => by
    obtain ⟨last, hrun, -⟩ := h.keeps_block hspan meaning hkeeps
    simp [runPath, h.regular.span?_eq_some.2 ⟨hspan, rfl⟩, hrun, Graph.runPath]
  | b :: path, span, store, env, hspan, hchain, hkeeps => by
    obtain ⟨last, hrun, hlast⟩ := h.keeps_block hspan meaning hkeeps
    obtain ⟨hedge, hchain⟩ := List.isChain_cons_cons.1 hchain
    obtain ⟨target, htarget, rfl⟩ := h.regular.exists_span_target hedge
    have hrest := h.keeps_path meaning path htarget hchain (h.keeps_edge hspan htarget hedge hlast)
    rw [runPath, h.regular.span?_eq_some.2 ⟨hspan, rfl⟩, Graph.runPath]
    simp [hrun, hrest]

end Verified

end Allocation

/-- Every checked allocation of a program without loops, whose definitions need registers, is
verified. -/
theorem Graph.verified_of_allocate {g : Graph} (hg : g.Built)
    (hdefs : g.DefsInRegisters) {options : Options} (hclass : options.regClass = none)
    (hverify : options.verify = true) (hnamed : Location.Named options.registers)
    {messages : Messages Issue} (h : g.allocate options = .ok (.success a messages))
    (hloops : a.order.loopEdges = []) : a.Verified := by
  have harranged := arranged_of_allocate hg h
  rw [hclass] at harranged
  obtain ⟨order, hordered, _, hallocate⟩ := of_allocate h
  obtain ⟨liveness, swept, resolution, -, -, hresolve, hchecked, rfl⟩ :=
    LinearOrder.of_allocate hallocate
  rw [resolve, bind_eq_ok] at hresolve
  obtain ⟨edges, hedges, hresolve⟩ := hresolve
  rw [bind_eq_ok] at hresolve
  obtain ⟨gaps, hgaps, ⟨⟩⟩ := hresolve
  -- freezing a graph changes no instruction
  have hdefs' : order.graph.DefsInRegisters := by
    obtain ⟨_, -, -, -, rfl⟩ := LinearOrder.of_linearize hordered.choose_spec
    exact hdefs
  exact
    { toArranged := harranged
      toChecked := Allocation.checked_of_verify (hchecked hverify)
      gapGroups := (resolveGaps_ensures order _ _).of_eq_ok hgaps
      edgeGroups := (resolveEdges_ensures order _ _).of_eq_ok hedges
      named := hnamed
      defs := hdefs'
      loopFree := hloops }

theorem Graph.runPath_freeze (g : Graph) (meaning : Meaning V) : ∀ (path : List BlockId)
    (env : VReg → V), g.freeze.runPath meaning path env = g.runPath meaning path env
  | [], _ => rfl
  | b :: path, env => by
    rw [runPath, runPath]
    exact congrArg _ (g.runPath_freeze meaning path _)

/-- An allocated program without loops, whose definitions need registers, reads what the
program on virtual registers reads, along every path from the entry. -/
theorem allocation_preserves_reads {g : Graph} (hg : g.Built)
    (hdefs : g.DefsInRegisters) {options : Options} (hclass : options.regClass = none)
    (hverify : options.verify = true) (hnamed : Location.Named options.registers)
    {messages : Messages Issue} (h : g.allocate options = .ok (.success a messages))
    (hloops : a.order.loopEdges = []) {path : List BlockId} (hentry : path.head? = g.entry)
    (hpath : path.IsChain g.HasEdge) (meaning : Meaning V) (store : Location → V)
    (env : VReg → V) :
    a.runPath meaning path store = some (g.runPath meaning path env) := by
  have hverified := Graph.verified_of_allocate hg hdefs hclass hverify hnamed h hloops
  obtain ⟨order, ⟨_, hordered⟩, _, hallocate⟩ := Graph.of_allocate h
  obtain ⟨_, _, _, -, -, -, -, rfl⟩ := LinearOrder.of_allocate hallocate
  obtain ⟨_, hsome, -, -, rfl⟩ := LinearOrder.of_linearize hordered
  cases path with
  | nil => simp [hsome] at hentry
  | cons b path =>
    obtain ⟨span, hspan, rfl⟩ :=
      Option.map_eq_some_iff.1 (hverified.regular.entry.trans hentry.symm)
    have hkeeps := hverified.keeps_path meaning path (List.mem_of_head? hspan) hpath
      (hverified.keeps_start hspan store env)
    rw [hkeeps, ← g.runPath_freeze]

/-- A value that is sent to memory, with branches that meet again. -/
def reloaded : Graph := Graph.run {} [
  .createRegister {}, .createRegister {}, .addBlock, .addBlock, .addBlock, .addBlock,
  .addInstruction (0 : Nat) { opcode := "a", defs := [{ register := (0 : Nat) }] },
  .addInstruction (0 : Nat) { opcode := "b", defs := [{ register := (1 : Nat) }] },
  .addInstruction (1 : Nat) { opcode := "c", uses := [{ register := (1 : Nat) }] },
  .addInstruction (3 : Nat) { opcode := "d", uses := [{ register := (0 : Nat) }] },
  .addEdge (0 : Nat) (1 : Nat), .addEdge (0 : Nat) (2 : Nat), .addEdge (1 : Nat) (3 : Nat),
  .addEdge (2 : Nat) (3 : Nat)]

theorem allocation_preserves_reads_reloaded : ∃ a messages,
    reloaded.allocate { registers := ["r0"] } = .ok (.success a messages) ∧
      a.resolution.gaps ≠ [] ∧ a.resolution.edges ≠ [] ∧
      a.runPath (fun opcode (inputs : List Nat) k => opcode.length + inputs.sum + k) [0, 2, 3]
          (fun _ => 7) =
        some (reloaded.runPath (fun opcode inputs k => opcode.length + inputs.sum + k) [0, 2, 3]
          fun _ => 8) := by
  have hbuilt : reloaded.Built := ⟨_, rfl⟩
  have hdefs : reloaded.DefsInRegisters := by
    intro b i hi
    have hall : ∀ block ∈ reloaded.blocks, ∀ i ∈ block.instructions, ∀ d ∈ i.defs,
        d.policy = .register := by decide
    rw [Graph.instructions] at hi
    cases hblock : reloaded.blocks[b]? with
    | none => simp [hblock] at hi
    | some block =>
      rw [hblock] at hi
      exact hall block (List.mem_of_getElem? hblock) i hi
  -- a name that does not start with a bracket is no text of a slot
  have hnamed : Location.Named ["r0"] := by
    intro name hname n h
    cases List.mem_singleton.1 hname
    have hhead := congrArg (fun s => s.toList.head?) h
    simp [Location.text, toString] at hhead
  have h : reloaded.allocate { registers := ["r0"] } = .ok (.success _ _) := rfl
  exact ⟨_, _, h, by decide, by decide,
    allocation_preserves_reads hbuilt hdefs rfl rfl hnamed h rfl rfl (by decide) _ _ _⟩

end RegAlloc
