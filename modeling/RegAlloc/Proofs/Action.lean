import RegAlloc.Action
import RegAlloc.Proofs.Ensures

/-!
# What a refused computation leaves

A computation that asks before it changes anything leaves its state as it was when it is refused.

- `Action.on_ask` — what a computation comes to that looks something up first;
- `Action.Careful` — a computation that is refused only before it has changed anything;
- `Action.Careful.leaves_eq` — the state that it leaves then.
-/

namespace RegAlloc

namespace Action

variable {ε σ α β : Type} {x : Action ε σ α}

theorem run_bind (x : Action ε σ α) (f : α → Action ε σ β) (s : σ) :
    (x >>= f).run s = match x.run s with
      | .ok a s => (f a).run s
      | .error e s => .error e s := rfl

/-- What a computation comes to that looks something up first. -/
theorem on_ask (look : σ → Except ε α) (f : α → Action ε σ β) (s : σ) :
    (ask look >>= f).on s = look s >>= fun a => (f a).on s := by
  rw [on, run_bind, EStateM.run, ask]
  cases look s <;> rfl

/-- What a computation comes to whose answer is put in other words. -/
theorem on_map (x : Action ε σ α) (wrap : α → β) (s : σ) :
    (x >>= fun a => pure (wrap a)).on s =
      x.on s >>= fun answer => pure (answer.1, wrap answer.2) := by
  rw [on, run_bind, on]
  cases x.run s <;> rfl

/-- What is ensured of the state does not depend on how the answer is put. -/
theorem ensures_map {P : σ → Prop} {E : ε → Prop} {s : σ}
    (h : Ensures (x.on s) (fun answer => P answer.1) E) (wrap : α → β) :
    Ensures ((x >>= fun a => pure (wrap a)).on s) (fun answer => P answer.1) E := by
  rw [on_map]
  exact h.bind fun _ hs => hs

/-- A computation that is refused only before it has changed anything. -/
def Careful (x : Action ε σ α) : Prop := ∀ s e left, x.run s = .error e left → left = s

namespace Careful

/-- It is careful to ask first. -/
theorem ask {look : σ → Except ε α} {f : α → Action ε σ β} (hf : ∀ a, Careful (f a)) :
    Careful (Action.ask look >>= f) := by
  intro s e left h
  rw [run_bind, EStateM.run, Action.ask] at h
  cases hlook : look s with
  | ok a =>
    rw [hlook] at h
    exact hf a s e left h
  | error e' =>
    rw [hlook] at h
    cases h
    rfl

theorem map (hx : Careful x) (wrap : α → β) : Careful (x >>= fun a => pure (wrap a)) := by
  intro s e left h
  rw [run_bind] at h
  cases hrun : x.run s with
  | ok a s' =>
    rw [hrun] at h
    cases h
  | error e' s' =>
    rw [hrun] at h
    cases h
    exact hx s e left hrun

/-- A refusal leaves the state as it was. -/
theorem leaves_eq (hx : Careful x) {s : σ} {e : ε} (h : x.on s = .error e) : x.leaves s = s := by
  rw [on] at h
  rw [leaves]
  cases hrun : x.run s with
  | ok a s' =>
    rw [hrun] at h
    cases h
  | error e' s' => exact hx s e' s' hrun

end Careful

/-- A computation that is not refused leaves the state that it comes to. -/
theorem leaves_of_on {s next : σ} {a : α} (h : x.on s = .ok (next, a)) : x.leaves s = next := by
  rw [on] at h
  rw [leaves]
  cases hrun : x.run s with
  | ok a' s' =>
    rw [hrun] at h
    cases h
    rfl
  | error e s' =>
    rw [hrun] at h
    cases h

end Action

end RegAlloc
