import Mathlib.Data.List.Forall2
import Mathlib.Data.List.Nodup
import RegAlloc.Example.Reader
import RegAlloc.Example.Writer
import RegAlloc.Proofs.Ensures
import RegAlloc.Table

/-!
# Documents that spell an example

A thing can be written down in more than one way: the fields of a mapping come in any order, and
an operand or a value that has only a name is a mapping or the bare name. Which documents spell
what is said here by itself, part by part, in the way the format is described; reading is then
shown to understand every one of them, and writing to produce one.

- `Spelling`, `Spelling.list`, `Spelling.mapping` — which documents stand for a thing;
- `Spelling.document` — the documents of an example;
- `Reader.Reads` — a reader understands every spelling, with one lemma for each reader;
- `spells_toDocument` — what is written is a spelling;
- `reading_undoes_writing` — the round trip.
-/

namespace RegAlloc

namespace Example

/-- Which documents stand for a thing. -/
def Spelling (α : Type) : Type := α → Document → Prop

namespace Spelling

variable {α : Type}

def string : Spelling String := fun text d => d = .string text

def number : Spelling Int := fun value d => d = .number value

def boolean : Spelling Bool := fun value d => d = .boolean value

def policy : Spelling Policy := fun p d =>
  d = .string (match p with | .register => "register" | .any => "any")

/-- A list is written item by item. -/
def list (item : Spelling α) : Spelling (List α) := fun as d =>
  ∃ ds, d = .list ds ∧ List.Forall₂ item as ds

/-- A field of a mapping: its key, and what the mapping may have there. -/
structure Field where
  key : String
  holds : Option Document → Prop

/-- A field for a part that may be absent. Only a part that is there is written. -/
def field (key : String) (part : Spelling α) (a : Option α) : Field := ⟨key, Option.Rel part a⟩

/-- A mapping has one key for each field that is there, and no others. -/
def mapping (fields : List Field) (d : Document) : Prop :=
  ∃ entries, d = .mapping entries ∧ (entries.map (·.1)).Nodup ∧
    entries.map (·.1) ⊆ fields.map (·.key) ∧
    ∀ f ∈ fields, f.holds (entries.lookup f.key)

/-! ## The parts of an example -/

/-- An operand that has only a name may be written as the name. -/
def operand : Spelling Operand := fun o d =>
  (o.policy = none ∧ o.kill = none ∧ d = .string o.value) ∨
    mapping [field "value" string (some o.value), field "policy" policy o.policy,
      field "kill" boolean o.kill] d

def code : Spelling Operation := fun c =>
  mapping [field "op" string (some c.op), field "uses" (list operand) (some c.uses),
    field "defs" (list operand) (some c.defs)]

def block : Spelling Section := fun b =>
  mapping [field "name" string (some b.name), field "to" (list string) (some b.targets),
    field "code" (list code) (some b.code)]

/-- A value that has only a name may be written as the name. -/
def value : Spelling Value := fun v d =>
  (v.regClass = none ∧ d = .string v.name) ∨
    mapping [field "name" string (some v.name), field "class" string v.regClass] d

/-- No location is written as `null`. -/
def place : Spelling (Option String) := fun location d =>
  match location with
  | none => d = .null
  | some text => d = .string text

/-- Three items in a list. -/
def located : Spelling Expected := fun e d =>
  ∃ name position location, d = .list [name, position, location] ∧
    string e.value name ∧ number e.position position ∧ place e.location location

def edge : Spelling ExpectedEdge := fun e =>
  mapping [field "from" string (some e.source), field "to" string (some e.target),
    field "placement" string (some e.placement), field "moves" (list string) (some e.moves)]

def split : Spelling ExpectedSplit := fun e =>
  mapping [field "at" number (some e.position), field "moves" (list string) (some e.moves)]

def expectation : Spelling Expectation := fun e =>
  mapping [field "error" string e.error, field "slots" number e.slots,
    field "warnings" (list string) e.warnings, field "at" (list located) (some e.located),
    field "edges" (list edge) e.edges, field "splits" (list split) e.splits]

/-- A whole example. -/
def document : Spelling Example := fun e =>
  mapping [field "description" string e.description, field "pool" (list string) (some e.pool),
    field "values" (list value) (some e.values), field "entry" string e.entry,
    field "blocks" (list block) (some e.blocks), field "expect" expectation (some e.expect)]

/-! ## What a spelling holds -/

theorem exists_of_holds {part : Spelling α} {key : String} {a : α} {d : Option Document}
    (h : (field key part (some a)).holds d) : ∃ found, d = some found ∧ part a found := by
  cases h with
  | some h => exact ⟨_, rfl, h⟩

end Spelling

namespace Reader

variable {α : Type}

/-- A reader that understands every spelling. -/
def Reads (read : Document → Read α) (part : Spelling α) : Prop :=
  ∀ ⦃a d⦄, part a d → read d = .ok a

theorem reads_string (path : String) :
    Reads (fun d => string path (some d)) Spelling.string := by
  rintro a d rfl
  rfl

theorem reads_number (path : String) :
    Reads (fun d => number path (some d)) Spelling.number := by
  rintro a d rfl
  rfl

theorem reads_boolean (path : String) :
    Reads (fun d => boolean path (some d)) Spelling.boolean := by
  rintro a d rfl
  rfl

theorem reads_policy (path : String) :
    Reads (fun d => policy path (some d)) Spelling.policy := by
  rintro a d rfl
  cases a <;> rfl

theorem reads_place (path : String) :
    Reads (fun d => place path (some d)) Spelling.place := by
  intro a d h
  cases a with
  | none => cases h; rfl
  | some text => cases h; rfl

section

variable {read : Option Document → Read α} {part : Spelling α} {key : String}
  {d : Option Document}

/-- A part that must be there is found. -/
theorem read_field {a : α} (hread : Reads (fun d => read (some d)) part)
    (h : (Spelling.field key part (some a)).holds d) : read d = .ok a := by
  obtain ⟨found, rfl, hpart⟩ := Spelling.exists_of_holds h
  exact hread hpart

/-- A part that may be absent is found, or not missed. -/
theorem read_optional {a : Option α} (hread : Reads (fun d => read (some d)) part)
    (h : (Spelling.field key part a).holds d) : optional read d = .ok a := by
  cases h with
  | none => rfl
  | @some a found hpart =>
    have hfound : read (some found) = .ok a := hread hpart
    rw [optional, hfound]
    rfl

end

/-- Items are read one by one, whatever number the first has. -/
theorem read_items {read : String → Document → Read α} {part : Spelling α}
    (hread : ∀ path, Reads (read path) part) (path : String) {as : List α}
    {ds : List Document} (h : List.Forall₂ part as ds) : items path read ds = .ok as := by
  have hfrom : ∀ n,
      (ds.zipIdx n).mapM (fun item => read (itemPath path item.2) item.1) = .ok as := by
    induction h with
    | nil => exact fun _ => rfl
    | @cons a d as ds hpart _ ih =>
      intro n
      rw [List.zipIdx_cons, List.mapM_cons]
      exact bind_eq_ok.2 ⟨a, hread _ hpart, bind_eq_ok.2 ⟨as, ih (n + 1), rfl⟩⟩
  exact hfrom 0

/-- The items of a list that is there. -/
theorem exists_items {part : Spelling α} {key : String} {as : List α} {d : Option Document}
    (h : (Spelling.field key (Spelling.list part) (some as)).holds d) :
    ∃ ds, (∀ path, list path d = .ok ds ∧ listOrEmpty path d = .ok ds) ∧
      List.Forall₂ part as ds := by
  obtain ⟨_, rfl, ds, rfl, hitems⟩ := Spelling.exists_of_holds h
  exact ⟨ds, fun _ => ⟨rfl, rfl⟩, hitems⟩

theorem reads_list {read : String → Document → Read α} {part : Spelling α}
    (hread : ∀ path, Reads (read path) part) (path : String) :
    Reads (fun d => do items path read (← list path (some d))) (Spelling.list part) := by
  rintro as _ ⟨ds, rfl, hitems⟩
  exact bind_eq_ok.2 ⟨ds, rfl, read_items hread path hitems⟩

theorem reads_strings (path : String) :
    Reads (fun d => strings path (some d)) (Spelling.list Spelling.string) :=
  reads_list reads_string path

/-- A step of reading that succeeds hands on what it has read. -/
theorem read_then {α β : Type} {x : Read α} {f : α → Read β} {a : α} {b : β} (hx : x = .ok a)
    (hf : f a = .ok b) : (x >>= f) = .ok b := bind_eq_ok.2 ⟨a, hx, hf⟩

theorem reads_operand (path : String) : Reads (operand path) Spelling.operand := by
  rintro o d (⟨hpolicy, hkill, rfl⟩ | ⟨entries, rfl, -, -, hfields⟩)
  · obtain ⟨value, policy, kill⟩ := o
    cases hpolicy
    cases hkill
    rfl
  · simp only [List.forall_mem_cons] at hfields
    obtain ⟨hvalue, hpolicy, hkill, -⟩ := hfields
    refine read_then rfl ?_
    refine read_then (read_field (reads_string _) hvalue) ?_
    refine read_then (read_optional (reads_policy _) hpolicy) ?_
    refine read_then (read_optional (reads_boolean _) hkill) ?_
    rfl

theorem reads_operands (path : String) :
    Reads (fun d => operands path (some d)) (Spelling.list Spelling.operand) :=
  reads_list reads_operand path

theorem reads_code (path : String) : Reads (code path) Spelling.code := by
  rintro c _ ⟨entries, rfl, -, -, hfields⟩
  simp only [List.forall_mem_cons] at hfields
  obtain ⟨hop, huses, hdefs, -⟩ := hfields
  refine read_then rfl ?_
  refine read_then (read_field (reads_string _) hop) ?_
  refine read_then (read_field (reads_operands _) huses) ?_
  refine read_then (read_field (reads_operands _) hdefs) ?_
  rfl

theorem reads_block (path : String) : Reads (block path) Spelling.block := by
  rintro b _ ⟨entries, rfl, -, -, hfields⟩
  simp only [List.forall_mem_cons] at hfields
  obtain ⟨hname, htargets, hcode, -⟩ := hfields
  obtain ⟨ds, hlisted, hitems⟩ := exists_items hcode
  refine read_then rfl ?_
  refine read_then (read_field (reads_string _) hname) ?_
  refine read_then (read_field (reads_strings _) htargets) ?_
  refine read_then (hlisted _).2 ?_
  refine read_then (read_items reads_code _ hitems) ?_
  rfl

theorem reads_value (path : String) : Reads (value path) Spelling.value := by
  rintro v d (⟨hclass, rfl⟩ | ⟨entries, rfl, -, -, hfields⟩)
  · obtain ⟨name, regClass⟩ := v
    cases hclass
    rfl
  · simp only [List.forall_mem_cons] at hfields
    obtain ⟨hname, hclass, -⟩ := hfields
    refine read_then rfl ?_
    refine read_then (read_field (reads_string _) hname) ?_
    refine read_then (read_optional (reads_string _) hclass) ?_
    rfl

theorem reads_located (path : String) : Reads (located path) Spelling.located := by
  rintro e _ ⟨name, position, location, rfl, hname, hposition, hlocation⟩
  refine read_then rfl ?_
  refine read_then (reads_string _ hname) ?_
  refine read_then (reads_number _ hposition) ?_
  refine read_then (reads_place _ hlocation) ?_
  rfl

theorem reads_edge (path : String) : Reads (edge path) Spelling.edge := by
  rintro e _ ⟨entries, rfl, -, -, hfields⟩
  simp only [List.forall_mem_cons] at hfields
  obtain ⟨hsource, htarget, hplacement, hmoves, -⟩ := hfields
  refine read_then rfl ?_
  refine read_then (read_field (reads_string _) hsource) ?_
  refine read_then (read_field (reads_string _) htarget) ?_
  refine read_then (read_field (reads_string _) hplacement) ?_
  refine read_then (read_field (reads_strings _) hmoves) ?_
  rfl

theorem reads_split (path : String) : Reads (split path) Spelling.split := by
  rintro e _ ⟨entries, rfl, -, -, hfields⟩
  simp only [List.forall_mem_cons] at hfields
  obtain ⟨hposition, hmoves, -⟩ := hfields
  refine read_then rfl ?_
  refine read_then (read_field (reads_number _) hposition) ?_
  refine read_then (read_field (reads_strings _) hmoves) ?_
  rfl

theorem reads_expectation : Reads (fun d => expectation (some d)) Spelling.expectation := by
  rintro e _ ⟨entries, rfl, -, -, hfields⟩
  simp only [List.forall_mem_cons] at hfields
  obtain ⟨herror, hslots, hwarnings, hlocated, hedges, hsplits, -⟩ := hfields
  obtain ⟨ds, hlisted, hitems⟩ := exists_items hlocated
  refine read_then rfl ?_
  refine read_then (read_optional (reads_string _) herror) ?_
  refine read_then (read_optional (reads_number _) hslots) ?_
  refine read_then (read_optional (reads_strings _) hwarnings) ?_
  refine read_then (hlisted _).2 ?_
  refine read_then (read_items reads_located _ hitems) ?_
  refine read_then (read_optional (reads_list reads_edge _) hedges) ?_
  refine read_then (read_optional (reads_list reads_split _) hsplits) ?_
  rfl

/-- Reading understands every spelling of an example. -/
theorem ofDocument_eq_ok {e : Example} {d : Document} (h : Spelling.document e d) :
    ofDocument d = .ok e := by
  -- the fields are read one after the other, in the order of the definition
  obtain ⟨entries, rfl, -, -, hfields⟩ := h
  simp only [List.forall_mem_cons] at hfields
  obtain ⟨hdescription, hpool, hvalues, hentry, hblocks, hexpect, -⟩ := hfields
  obtain ⟨values, hvaluesListed, hvalues⟩ := exists_items hvalues
  obtain ⟨blocks, hblocksListed, hblocks⟩ := exists_items hblocks
  refine read_then rfl ?_
  refine read_then (read_optional (reads_string _) hdescription) ?_
  refine read_then (read_field (reads_strings _) hpool) ?_
  refine read_then (hvaluesListed _).1 ?_
  refine read_then (read_items reads_value _ hvalues) ?_
  refine read_then (read_optional (reads_string _) hentry) ?_
  refine read_then (hblocksListed _).1 ?_
  refine read_then (read_items reads_block _ hblocks) ?_
  refine read_then (read_field reads_expectation hexpect) ?_
  rfl

end Reader

/-! ## Writing -/

namespace Writer

variable {α : Type} {write : α → Document} {part : Spelling α}

theorem spells_list (h : ∀ a, part a (write a)) (as : List α) :
    Spelling.list part as (.list (as.map write)) := by
  refine ⟨as.map write, rfl, ?_⟩
  induction as with
  | nil => exact .nil
  | cons a as ih => exact .cons (h a) ih

theorem spells_string (text : String) : Spelling.string text (.string text) := rfl

theorem spells_strings (texts : List String) :
    Spelling.list Spelling.string texts (strings texts) := spells_list spells_string texts

theorem spells_number (value : Int) : Spelling.number value (.number value) := rfl

theorem spells_boolean (value : Bool) : Spelling.boolean value (.boolean value) := rfl

theorem spells_policy (p : Policy) : Spelling.policy p (policy p) := by
  cases p <;> rfl

/-! ### Mappings -/

/-- What is written for a field: its part, under its key. -/
def Fills (f : Spelling.Field) (slot : String × Option Document) : Prop :=
  slot.1 = f.key ∧ f.holds slot.2

theorem fills (key : String) {a : α} {d : Document} (h : part a d) :
    Fills (Spelling.field key part (some a)) (key, some d) := ⟨rfl, .some h⟩

theorem fills_map (key : String) (h : ∀ a, part a (write a)) (a : Option α) :
    Fills (Spelling.field key part a) (key, a.map write) := by
  cases a with
  | none => exact ⟨rfl, .none⟩
  | some a => exact ⟨rfl, .some (h a)⟩

/-- The keys of a mapping are those of the parts that are there, in order. -/
theorem keys_sublist (slots : List (String × Option Document)) :
    ((slots.filterMap fun (key, part) => part.map (key, ·)).map (·.1)).Sublist
      (slots.map (·.1)) := by
  induction slots with
  | nil => exact .slnil
  | cons slot slots ih =>
    obtain ⟨key, part⟩ := slot
    cases part with
    | none => exact ih.cons key
    | some d => exact ih.cons_cons key

/-- Under a key stands its part. -/
theorem lookup_present {slots : List (String × Option Document)}
    (hnodup : (slots.map (·.1)).Nodup) {slot : String × Option Document} (hslot : slot ∈ slots) :
    (slots.filterMap fun (key, part) => part.map (key, ·)).lookup slot.1 = slot.2 := by
  refine Option.ext fun d => ?_
  rw [← Table.mem_iff_lookup (hnodup.sublist (keys_sublist slots)), List.mem_filterMap]
  constructor
  · rintro ⟨other, hother, hwritten⟩
    obtain ⟨_, hpart, heq⟩ := Option.map_eq_some_iff.1 hwritten
    obtain ⟨hkey, rfl⟩ := Prod.mk.inj heq
    rw [← hpart, List.inj_on_of_nodup_map hnodup hother hslot hkey]
  · intro hpart
    exact ⟨slot, hslot, by simp [hpart]⟩

/-- A mapping that has the part of each field under its key is a spelling. -/
theorem spells_mapping {fields : List Spelling.Field} {slots : List (String × Option Document)}
    (h : List.Forall₂ Fills fields slots) (hnodup : (slots.map (·.1)).Nodup) :
    Spelling.mapping fields (mapping slots) := by
  -- the slots are written under the keys of the fields
  have hkeys : slots.map (·.1) = fields.map (·.key) := by
    clear hnodup
    induction h with
    | nil => rfl
    | cons hfills _ ih => rw [List.map_cons, List.map_cons, hfills.1, ih]
  have hfilled : ∀ f ∈ fields, ∃ slot ∈ slots, Fills f slot := by
    clear hnodup hkeys
    induction h with
    | nil => simp
    | @cons f slot fields slots hfills _ ih =>
      intro f' hf'
      rcases List.mem_cons.1 hf' with rfl | hf'
      · exact ⟨slot, by simp, hfills⟩
      · obtain ⟨slot', hslot', hfills'⟩ := ih f' hf'
        exact ⟨slot', by simp [hslot'], hfills'⟩
  refine ⟨_, rfl, hnodup.sublist (keys_sublist slots), ?_, fun f hf => ?_⟩
  · rw [← hkeys]
    exact (keys_sublist slots).subset
  · obtain ⟨slot, hslot, hkey, hholds⟩ := hfilled f hf
    rwa [← hkey, lookup_present hnodup hslot]

/-! ### The parts of an example -/

theorem spells_operand (o : Operand) : Spelling.operand o (operand o) := by
  rw [operand]
  split
  · next hpolicy hkill => exact .inl ⟨hpolicy, hkill, rfl⟩
  · refine .inr (spells_mapping ?_ (by simp))
    exact .cons (fills "value" rfl) (.cons (fills_map "policy" spells_policy _)
      (.cons (fills_map "kill" spells_boolean _) .nil))

theorem spells_code (c : Operation) : Spelling.code c (code c) := by
  refine spells_mapping ?_ (by simp)
  exact .cons (fills "op" rfl) (.cons (fills "uses" (spells_list spells_operand _))
    (.cons (fills "defs" (spells_list spells_operand _)) .nil))

theorem spells_block (b : Section) : Spelling.block b (block b) := by
  refine spells_mapping ?_ (by simp)
  exact .cons (fills "name" rfl) (.cons (fills "to" (spells_strings _))
    (.cons (fills "code" (spells_list spells_code _)) .nil))

theorem spells_value (v : Value) : Spelling.value v (value v) := by
  rw [value]
  split
  · next hclass => exact .inl ⟨hclass, rfl⟩
  · next c hclass =>
    refine .inr (spells_mapping ?_ (by simp))
    exact .cons (fills "name" rfl) (.cons ⟨rfl, hclass ▸ .some rfl⟩ .nil)

theorem spells_located (e : Expected) : Spelling.located e (located e) := by
  refine ⟨_, _, _, rfl, rfl, rfl, ?_⟩
  cases e.location <;> rfl

theorem spells_edge (e : ExpectedEdge) : Spelling.edge e (edge e) := by
  refine spells_mapping ?_ (by simp)
  exact .cons (fills "from" rfl) (.cons (fills "to" rfl) (.cons (fills "placement" rfl)
    (.cons (fills "moves" (spells_strings _)) .nil)))

theorem spells_split (e : ExpectedSplit) : Spelling.split e (split e) := by
  refine spells_mapping ?_ (by simp)
  exact .cons (fills "at" rfl) (.cons (fills "moves" (spells_strings _)) .nil)

theorem spells_expectation (e : Expectation) : Spelling.expectation e (expectation e) := by
  refine spells_mapping ?_ (by simp)
  exact .cons (fills_map "error" spells_string _) (.cons (fills_map "slots" spells_number _)
    (.cons (fills_map "warnings" spells_strings _)
      (.cons (fills "at" (spells_list spells_located _))
        (.cons (fills_map "edges" (spells_list spells_edge) _)
          (.cons (fills_map "splits" (spells_list spells_split) _) .nil)))))

/-- What is written for an example is one of its spellings. -/
theorem spells_toDocument (e : Example) : Spelling.document e e.toDocument := by
  refine spells_mapping ?_ (by simp)
  exact .cons (fills_map "description" spells_string _) (.cons (fills "pool" (spells_strings _))
    (.cons (fills "values" (spells_list spells_value _))
      (.cons (fills_map "entry" spells_string _)
        (.cons (fills "blocks" (spells_list spells_block _))
          (.cons (fills "expect" (spells_expectation _)) .nil)))))

end Writer

end Example

/-- Reading undoes writing: every document that spells an example is read as that example, and
what is written for an example spells it. So what is read from any document, in whatever way it
is written down again, is read with the same result. -/
theorem reading_undoes_writing :
    (∀ (e : Example) (d : Document), Example.Spelling.document e d →
      Example.ofDocument d = .ok e) ∧
    (∀ e : Example, Example.Spelling.document e e.toDocument) ∧
    ∀ (d d' : Document) (e : Example), Example.ofDocument d = .ok e →
      Example.Spelling.document e d' → Example.ofDocument d' = Example.ofDocument d := by
  refine ⟨fun e d h => ?_, fun e => ?_, fun d d' e hread h => ?_⟩
  · exact Example.Reader.ofDocument_eq_ok h
  · exact Example.Writer.spells_toDocument e
  · rw [hread]
    exact Example.Reader.ofDocument_eq_ok h

/-- A loop of one block, with two values and a place that must be free. -/
def selfLoop : Example where
  values := [{ name := "a" }, { name := "f", regClass := some "float" }]
  blocks := [{
    name := "b"
    targets := ["b"]
    code := [{
      op := "x"
      uses := [{ value := "a", kill := some true }]
      defs := [{ value := "a" }, { value := "f" }] }] }]
  expect := { slots := some 0, located := [⟨"a", 2, none⟩] }

/-- The same in other words than are written: fields in another order, and a mapping where a
name would do. -/
def selfLoopDocument : Document :=
  .mapping [
    ("expect", Example.Writer.expectation selfLoop.expect),
    ("values", .list [
      .mapping [("name", .string "a")],
      .mapping [("class", .string "float"), ("name", .string "f")]]),
    ("pool", .list []),
    ("blocks", .list (selfLoop.blocks.map Example.Writer.block))]

theorem reading_undoes_writing_selfLoop :
    Example.Spelling.document selfLoop selfLoopDocument ∧
      Example.ofDocument selfLoopDocument = .ok selfLoop ∧
      Example.ofDocument selfLoop.toDocument = Example.ofDocument selfLoopDocument := by
  -- a value without a class, and one with its fields in the other order
  have hfirst : Example.Spelling.value { name := "a" } (.mapping [("name", .string "a")]) := by
    refine .inr ⟨_, rfl, by decide, by decide, ?_⟩
    simp only [List.forall_mem_cons]
    exact ⟨.some rfl, .none, by simp⟩
  have hsecond : Example.Spelling.value { name := "f", regClass := some "float" }
      (.mapping [("class", .string "float"), ("name", .string "f")]) := by
    refine .inr ⟨_, rfl, by decide, by decide, ?_⟩
    simp only [List.forall_mem_cons]
    exact ⟨.some rfl, .some rfl, by simp⟩
  have hspells : Example.Spelling.document selfLoop selfLoopDocument := by
    refine ⟨_, rfl, by decide, by decide, ?_⟩
    simp only [List.forall_mem_cons]
    refine ⟨.none, .some ⟨_, rfl, .nil⟩, .some ⟨_, rfl, .cons hfirst (.cons hsecond .nil)⟩, .none,
      .some ?_, .some ?_, by simp⟩
    · exact Example.Writer.spells_list Example.Writer.spells_block _
    · exact Example.Writer.spells_expectation _
  obtain ⟨hreads, hwrites, hagain⟩ := reading_undoes_writing
  have hread := hreads selfLoop selfLoopDocument hspells
  exact ⟨hspells, hread, hagain _ _ _ hread (hwrites selfLoop)⟩

end RegAlloc
