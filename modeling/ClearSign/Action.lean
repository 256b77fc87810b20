import ClearSign.Error

/-!
Steps on a state that may object half-way. What a step did before it objects stays done.
-/

namespace ClearSign

abbrev Action (σ α : Type) := ExceptT Error (StateM σ) α

namespace Action

variable {σ α : Type}

/-- The state after an action, and what came of the action. -/
def exec (a : Action σ α) (s : σ) : Except Error α × σ := StateT.run (ExceptT.run a) s

/-- An answer that needs no state and changes none. -/
def ofExcept (e : Except Error α) : Action σ α := ExceptT.mk (pure e)

/-- A step that changes all of the state or, if it objects, nothing. -/
def update (f : σ → Except Error σ) : Action σ Unit := do
  set (← ofExcept (f (← get)))

/-- An action on a part of the state. -/
def onPart {τ : Type} (part : σ → τ) (withPart : σ → τ → σ) (a : Action τ α) : Action σ α :=
  ExceptT.mk fun s =>
    let (result, t) := a.exec (part s)
    pure (result, withPart s t)

end Action

end ClearSign
