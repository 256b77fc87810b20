import ClearSign.Action
import ClearSign.Proofs.Refusal

/-!
Actions read backwards: an action that answers went through all of its steps, each from the state
that the one before it left.
-/

namespace ClearSign.Action

open Refusal

variable {σ τ α β : Type}

theorem exec_bind (a : Action σ α) (f : α → Action σ β) (s : σ) :
    (a >>= f).exec s =
      match a.exec s with
      | (.ok x, s') => (f x).exec s'
      | (.error e, s') => (.error e, s') := by
  show StateT.run (ExceptT.run (a >>= f)) s = _
  simp only [exec, ExceptT.run_bind, StateT.run_bind]
  rcases StateT.run (ExceptT.run a) s with ⟨_ | _, _⟩ <;> rfl

@[simp] theorem exec_pure (x : α) (s : σ) : (pure x : Action σ α).exec s = (.ok x, s) := rfl

@[simp] theorem exec_throw (e : Error) (s : σ) :
    (throw e : Action σ α).exec s = (.error e, s) := rfl

@[simp] theorem exec_get (s : σ) : (get : Action σ σ).exec s = (.ok s, s) := rfl

@[simp] theorem exec_set (t s : σ) : (set t : Action σ Unit).exec s = (.ok (), t) := rfl

@[simp] theorem exec_modify (f : σ → σ) (s : σ) :
    (modify f : Action σ Unit).exec s = (.ok (), f s) := rfl

@[simp] theorem exec_ofExcept (e : Except Error α) (s : σ) :
    (ofExcept e : Action σ α).exec s = (e, s) := rfl

@[simp] theorem exec_onPart (part : σ → τ) (withPart : σ → τ → σ) (a : Action τ α) (s : σ) :
    (a.onPart part withPart).exec s = ((a.exec (part s)).1, withPart s (a.exec (part s)).2) := rfl

theorem exec_get_bind (f : σ → Action σ β) (s : σ) :
    ((get : Action σ σ) >>= f).exec s = (f s).exec s := by
  rw [exec_bind, exec_get]

theorem exec_set_bind (t s : σ) (f : Unit → Action σ β) :
    ((set t : Action σ Unit) >>= f).exec s = (f ()).exec t := by
  rw [exec_bind, exec_set]

theorem exec_modify_bind (g : σ → σ) (s : σ) (f : Unit → Action σ β) :
    ((modify g : Action σ Unit) >>= f).exec s = (f ()).exec (g s) := by
  rw [exec_bind, exec_modify]

theorem exec_update (f : σ → Except Error σ) (s : σ) :
    (update f).exec s =
      match f s with
      | .ok t => (.ok (), t)
      | .error e => (.error e, s) := by
  unfold update
  rw [exec_bind]
  simp only [exec_get, exec_bind, exec_ofExcept, exec_set]
  cases f s <;> rfl

/-- An action that is two in a row answers when both do. -/
theorem bind_answers {a : Action σ α} {f : α → Action σ β} {s t : σ} {y : β} :
    (a >>= f).exec s = (.ok y, t) ↔
      ∃ x mid, a.exec s = (.ok x, mid) ∧ (f x).exec mid = (.ok y, t) := by
  rw [exec_bind]
  constructor
  · intro h
    split at h
    · rename_i x mid ha
      exact ⟨x, mid, ha, h⟩
    · cases h
  · rintro ⟨x, mid, ha, hf⟩
    rw [ha]
    exact hf

theorem ofExcept_answers {e : Except Error α} {s t : σ} {x : α} :
    (ofExcept e : Action σ α).exec s = (.ok x, t) ↔ e = .ok x ∧ s = t := by
  rw [exec_ofExcept, Prod.mk.injEq]

theorem update_answers {f : σ → Except Error σ} {s t : σ} {u : Unit} :
    (update f).exec s = (.ok u, t) ↔ f s = .ok t := by
  rw [exec_update]
  cases f s <;> simp

theorem onPart_answers {part : σ → τ} {withPart : σ → τ → σ} {a : Action τ α} {s t : σ} {x : α} :
    (a.onPart part withPart).exec s = (.ok x, t) ↔
      ∃ p, a.exec (part s) = (.ok x, p) ∧ withPart s p = t := by
  rw [exec_onPart]
  constructor
  · intro h
    obtain ⟨hx, ht⟩ := Prod.mk.inj h
    exact ⟨_, Prod.ext hx rfl, ht⟩
  · rintro ⟨p, ha, ht⟩
    rw [ha, ht]

/-- A list of actions answers when the first does and then the others do. -/
theorem forM_cons_answers {f : α → Action σ Unit} {a : α} {as : List α} {s t : σ} {u : Unit} :
    ((a :: as).forM f).exec s = (.ok u, t) ↔
      ∃ mid, (f a).exec s = (.ok (), mid) ∧ (as.forM f).exec mid = (.ok (), t) := by
  constructor
  · intro h
    obtain ⟨⟨⟩, mid, ha, has⟩ := bind_answers.mp h
    exact ⟨mid, ha, has⟩
  · rintro ⟨mid, ha, has⟩
    exact bind_answers.mpr ⟨(), mid, ha, has⟩

/-- Changes that match leave states that are tied, and so do objections that match. -/
theorem exec_update_matched {R : σ → σ → Prop} {f g : σ → Except Error σ} {s t : σ} (h : R s t)
    (hmatched : Matched R (f s) (g t)) :
    ((update f).exec s).1 = ((update g).exec t).1 ∧
      R ((update f).exec s).2 ((update g).exec t).2 := by
  rw [exec_update, exec_update]
  generalize f s = x at hmatched ⊢
  generalize g t = y at hmatched ⊢
  cases hmatched with
  | refused e => exact ⟨rfl, h⟩
  | answered hanswer => exact ⟨rfl, hanswer⟩

/-- Behind two actions that answer alike, what comes starts from states that are tied. -/
theorem exec_bind_tied {R : σ → σ → Prop} {a b : Action σ α} {f g : α → Action σ β} {s t : σ}
    (hab : (a.exec s).1 = (b.exec t).1 ∧ R (a.exec s).2 (b.exec t).2)
    (hfg : ∀ x s' t', a.exec s = (.ok x, s') → R s' t' →
      ((f x).exec s').1 = ((g x).exec t').1 ∧ R ((f x).exec s').2 ((g x).exec t').2) :
    ((a >>= f).exec s).1 = ((b >>= g).exec t).1 ∧
      R ((a >>= f).exec s).2 ((b >>= g).exec t).2 := by
  obtain ⟨hanswer, hmid⟩ := hab
  rw [exec_bind, exec_bind]
  rcases ha : a.exec s with ⟨e | x, s'⟩ <;> rcases hb : b.exec t with ⟨e' | y, t'⟩ <;>
    rw [ha, hb] at hanswer hmid <;> cases hanswer
  · exact ⟨rfl, hmid⟩
  · exact hfg x s' t' ha hmid

/-- Two actions on states that a relation ties: they come to the same answer, and tied states. -/
def Parallel (R : σ → σ → Prop) (a b : Action σ α) : Prop :=
  ∀ s t, R s t → (a.exec s).1 = (b.exec t).1 ∧ R (a.exec s).2 (b.exec t).2

namespace Parallel

variable {R : σ → σ → Prop}

theorem pure (x : α) : Parallel R (pure x : Action σ α) (Pure.pure x) := fun _ _ h => ⟨rfl, h⟩

theorem throw (e : Error) : Parallel R (throw e : Action σ α) (MonadExcept.throw e) :=
  fun _ _ h => ⟨rfl, h⟩

theorem set {s t : σ} (h : R s t) : Parallel R (set s : Action σ Unit) (MonadStateOf.set t) :=
  fun _ _ _ => ⟨rfl, h⟩

theorem update {f g : σ → Except Error σ} (h : ∀ s t, R s t → Matched R (f s) (g t)) :
    Parallel R (update f) (Action.update g) := fun s t hst => exec_update_matched hst (h s t hst)

theorem ofExcept (e : Except Error α) : Parallel R (ofExcept e : Action σ α) (Action.ofExcept e) :=
  fun _ _ h => ⟨rfl, h⟩

theorem bind {a b : Action σ α} {f g : α → Action σ β} (hab : Parallel R a b)
    (hfg : ∀ x, Parallel R (f x) (g x)) : Parallel R (a >>= f) (b >>= g) := by
  intro s t h
  apply exec_bind_tied (hab s t h)
  intro x s' t' _ hmid
  exact hfg x s' t' hmid

/-- What comes behind a look at the state may differ as the states do. -/
theorem get_bind {f g : σ → Action σ β} (h : ∀ s t, R s t → Parallel R (f s) (g t)) :
    Parallel R ((get : Action σ σ) >>= f) ((get : Action σ σ) >>= g) := by
  intro s t hst
  rw [exec_get_bind, exec_get_bind]
  exact h s t hst s t hst

theorem forM {f g : α → Action σ Unit} {as : List α} (h : ∀ a ∈ as, Parallel R (f a) (g a)) :
    Parallel R (as.forM f) (as.forM g) := by
  induction as with
  | nil => exact pure ()
  | cons a as ih =>
    rw [List.forall_mem_cons] at h
    exact bind h.1 fun _ => ih h.2

end Parallel

/-- However an action ends, a part of the state is as it was. -/
def Keeps (part : σ → τ) (a : Action σ α) : Prop := ∀ s, part (a.exec s).2 = part s

namespace Keeps

variable {part : σ → τ}

theorem pure (x : α) : Keeps part (pure x : Action σ α) := fun _ => rfl

theorem throw (e : Error) : Keeps part (throw e : Action σ α) := fun _ => rfl

theorem get : Keeps part (get : Action σ σ) := fun _ => rfl

theorem ofExcept (e : Except Error α) : Keeps part (ofExcept e : Action σ α) := fun _ => rfl

theorem modify {f : σ → σ} (h : ∀ s, part (f s) = part s) :
    Keeps part (modify f : Action σ Unit) := h

theorem bind {a : Action σ α} {f : α → Action σ β} (ha : Keeps part a)
    (hf : ∀ x, Keeps part (f x)) : Keeps part (a >>= f) := by
  intro s
  rw [exec_bind]
  have hfirst := ha s
  rcases hexec : a.exec s with ⟨e | x, mid⟩
  · rwa [hexec] at hfirst
  · rw [hexec] at hfirst
    exact (hf x mid).trans hfirst

end Keeps

/-- However an action ends, what held of the state before holds of it after. -/
def Preserves (P : σ → Prop) (a : Action σ α) : Prop := ∀ s, P s → P (a.exec s).2

namespace Preserves

variable {P : σ → Prop}

theorem pure (x : α) : Preserves P (pure x : Action σ α) := fun _ h => h

theorem throw (e : Error) : Preserves P (throw e : Action σ α) := fun _ h => h

theorem ofExcept (e : Except Error α) : Preserves P (ofExcept e : Action σ α) := fun _ h => h

theorem set {t : σ} (h : P t) : Preserves P (set t : Action σ Unit) := fun _ _ => h

theorem modify {f : σ → σ} (h : ∀ s, P s → P (f s)) : Preserves P (modify f : Action σ Unit) := h

theorem update {f : σ → Except Error σ} (h : ∀ s t, P s → f s = .ok t → P t) :
    Preserves P (update f) := by
  intro s hs
  rw [exec_update]
  cases hf : f s with
  | error e => exact hs
  | ok t => exact h s t hs hf

theorem bind {a : Action σ α} {f : α → Action σ β} (ha : Preserves P a)
    (hf : ∀ x, Preserves P (f x)) : Preserves P (a >>= f) := by
  intro s hs
  have hfirst := ha s hs
  rw [exec_bind]
  rcases hexec : a.exec s with ⟨e | x, mid⟩
  · rwa [hexec] at hfirst
  · rw [hexec] at hfirst
    exact hf x mid hfirst

/-- What comes behind a look at the state may rely on what holds of it. -/
theorem get_bind {f : σ → Action σ β} (h : ∀ s, P s → Preserves P (f s)) :
    Preserves P ((get : Action σ σ) >>= f) := by
  intro s hs
  rw [exec_get_bind]
  exact h s hs s hs

theorem forM {f : α → Action σ Unit} (hf : ∀ a, Preserves P (f a)) (as : List α) :
    Preserves P (as.forM f) := by
  induction as with
  | nil => exact pure ()
  | cons a as ih => exact bind (hf a) fun _ => ih

theorem onPart {part : σ → τ} {withPart : σ → τ → σ} {Q : τ → Prop} {a : Action τ α}
    (hpart : ∀ s, P s → Q (part s)) (hwith : ∀ s t, P s → Q t → P (withPart s t))
    (ha : Preserves Q a) : Preserves P (a.onPart part withPart) :=
  fun s hs => hwith s _ hs (ha _ (hpart s hs))

end Preserves

end ClearSign.Action
