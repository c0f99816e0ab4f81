/-!
# Computations on a state

Graphs and lifetimes are changed in place. A computation that is refused leaves its state as it
stands at that point, so whether a refusal changes anything depends on what came before it.

- `Action` — a computation that reads and changes a state, and may stop;
- `Action.ask` — a look-up in the state;
- `Action.leaves`, `Action.on` — the state that a computation leaves, and what it comes to.
-/

namespace RegAlloc

/-- A computation that reads and changes a state, and may stop. -/
abbrev Action (ε σ α : Type) := EStateM ε σ α

namespace Action

variable {ε σ α : Type}

/-- Look something up in the state. -/
def ask (look : σ → Except ε α) : Action ε σ α := fun s =>
  match look s with
  | .ok a => .ok a s
  | .error e => .error e s

/-- The state that a computation leaves, whether it stops or not. -/
def leaves (x : Action ε σ α) (s : σ) : σ :=
  match x.run s with
  | .ok _ s => s
  | .error _ s => s

/-- The state that a computation comes to, with its answer, unless it stops. -/
def on (x : Action ε σ α) (s : σ) : Except ε (σ × α) :=
  match x.run s with
  | .ok a s => .ok (s, a)
  | .error e _ => .error e

end Action

end RegAlloc
