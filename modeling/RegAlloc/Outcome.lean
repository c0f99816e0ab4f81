/-!
# Outcomes with messages

A stage of the allocator either succeeds with a value or fails, and in both cases
may leave messages, kept apart by severity. There is no partial success.

- `Messages ε` — the errors and the warnings, each list present or absent;
- `Outcome ε α` — a value with messages, or messages alone;
- `Messages.merge` — the messages of several stages, in order.
-/

namespace RegAlloc

universe u v

/-- Messages by severity. A list that was never started is absent, which is not
the same as a list that is empty. -/
structure Messages (ε : Type u) where
  errors : Option (List ε) := none
  warnings : Option (List ε) := none
  deriving DecidableEq, Repr, Inhabited

namespace Messages

variable {ε : Type u}

/-- Add a list to those collected so far; an empty one leaves no trace. -/
def join (collected more : Option (List ε)) : Option (List ε) :=
  match more with
  | none | some [] => collected
  | some list => some (collected.getD [] ++ list)

/-- All messages of several stages, in their order. -/
def merge (all : List (Messages ε)) : Messages ε :=
  all.foldl
    (fun merged m =>
      { errors := join merged.errors m.errors, warnings := join merged.warnings m.warnings })
    {}

/-- Change the kind of message, one by one. -/
def map {δ : Type v} (f : ε → δ) (m : Messages ε) : Messages δ :=
  { errors := m.errors.map (·.map f), warnings := m.warnings.map (·.map f) }

end Messages

/-- The outcome of a stage. -/
inductive Outcome (ε : Type u) (α : Type v) where
  | success (value : α) (messages : Messages ε)
  | failure (messages : Messages ε)
  deriving DecidableEq, Repr

namespace Outcome

variable {ε : Type u} {α : Type v}

/-- Success without messages. -/
def ok (value : α) : Outcome ε α := .success value {}

/-- Failure for the given reasons. -/
def fail (errors : List ε) : Outcome ε α := .failure { errors := some errors }

/-- The messages of an outcome. -/
def messages : Outcome ε α → Messages ε
  | .success _ messages => messages
  | .failure messages => messages

/-- The value of a success. -/
def value? : Outcome ε α → Option α
  | .success value _ => some value
  | .failure _ => none

/-- Whether a stage succeeded. -/
def succeeded : Outcome ε α → Bool
  | .success _ _ => true
  | .failure _ => false

/-- Change the value of a success and keep all messages. -/
def map {β : Type v} (f : α → β) : Outcome ε α → Outcome ε β
  | .success value messages => .success (f value) messages
  | .failure messages => .failure messages

/-- Replace the messages. -/
def withMessages (messages : Messages ε) : Outcome ε α → Outcome ε α
  | .success value _ => .success value messages
  | .failure _ => .failure messages

/-- The errors left by a stage. -/
def errors (outcome : Outcome ε α) : List ε := outcome.messages.errors.getD []

/-- The warnings left by a stage. -/
def warnings (outcome : Outcome ε α) : List ε := outcome.messages.warnings.getD []

end Outcome

end RegAlloc
