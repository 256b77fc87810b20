import ClearSign.Error

/-!
Computations that may be refused, read backwards: what was answered went through every step.
-/

namespace ClearSign.Refusal

variable {α β : Type}

theorem bind_eq_ok {e : Except Error α} {f : α → Except Error β} {b : β} :
    e >>= f = .ok b ↔ ∃ a, e = .ok a ∧ f a = .ok b := by
  cases e with
  | error e => simp [bind, Except.bind]
  | ok a => simp [bind, Except.bind]

theorem bind_eq_error {e : Except Error α} {f : α → Except Error β} {x : Error} :
    e >>= f = .error x ↔ e = .error x ∨ ∃ a, e = .ok a ∧ f a = .error x := by
  cases e with
  | error e => simp [bind, Except.bind]
  | ok a => simp [bind, Except.bind]

theorem map_eq_ok {e : Except Error α} {f : α → β} {b : β} :
    f <$> e = .ok b ↔ ∃ a, e = .ok a ∧ f a = b := by
  cases e with
  | error e => simp [Functor.map, Except.map]
  | ok a => simp [Functor.map, Except.map]

theorem pure_eq_ok {a b : α} : (pure a : Except Error α) = .ok b ↔ a = b := by
  simp [pure, Except.pure]

theorem throw_ne_ok {e : Error} {a : α} : (throw e : Except Error α) ≠ .ok a := by
  intro h
  cases h

theorem exists_of_toBool {e : Except Error α} (h : e.toBool = true) : ∃ a, e = .ok a := by
  cases e with
  | error e => cases h
  | ok a => exact ⟨a, rfl⟩

theorem exists_error_of_ne_ok {e : Except Error α} (h : ∀ a, e ≠ .ok a) : ∃ x, e = .error x := by
  cases e with
  | error x => exact ⟨x, rfl⟩
  | ok a => exact absurd rfl (h a)

theorem toOption_eq_some {e : Except Error α} {a : α} : e.toOption = some a ↔ e = .ok a := by
  cases e with
  | error e => simp [Except.toOption]
  | ok b => simp [Except.toOption]

/-- Two computations are refused alike, or their answers are tied by a relation. -/
inductive Matched (R : α → β → Prop) : Except Error α → Except Error β → Prop
  | refused (e : Error) : Matched R (.error e) (.error e)
  | answered {a : α} {b : β} : R a b → Matched R (.ok a) (.ok b)

theorem length_mapM {f : α → Except Error β} {as : List α} {bs : List β}
    (h : as.mapM f = .ok bs) : bs.length = as.length := by
  induction as generalizing bs with
  | nil => cases h; rfl
  | cons a as ih =>
    rw [List.mapM_cons] at h
    obtain ⟨b, -, h⟩ := bind_eq_ok.mp h
    obtain ⟨bs', hbs, h⟩ := bind_eq_ok.mp h
    cases h
    rw [List.length_cons, List.length_cons, ih hbs]

theorem mapM_eq_ok {f : α → Except Error β} {g : α → β} {as : List α}
    (h : ∀ a ∈ as, f a = .ok (g a)) : as.mapM f = .ok (as.map g) := by
  induction as with
  | nil => rfl
  | cons a as ih =>
    rw [List.forall_mem_cons] at h
    rw [List.mapM_cons, h.1, ih h.2]
    rfl

/-- Where there is one objection to raise, any element that is refused raises it for all. -/
theorem mapM_eq_error {f : α → Except Error β} {as : List α} {e : Error}
    (honly : ∀ a ∈ as, (∃ b, f a = .ok b) ∨ f a = .error e) (h : ∃ a ∈ as, f a = .error e) :
    as.mapM f = .error e := by
  induction as with
  | nil =>
    obtain ⟨a, ha, -⟩ := h
    cases ha
  | cons a as ih =>
    rw [List.forall_mem_cons] at honly
    rw [List.mapM_cons]
    obtain ⟨b, hb⟩ | hrefused := honly.1
    · have hrest : ∃ a ∈ as, f a = .error e := by
        obtain ⟨a', ha', hrefused⟩ := h
        rcases List.mem_cons.mp ha' with rfl | hmem
        · rw [hb] at hrefused
          cases hrefused
        · exact ⟨a', hmem, hrefused⟩
      rw [hb, ih honly.2 hrest]
      rfl
    · rw [hrefused]
      rfl

/-- What each step keeps, given the elements before it, holds of all elements at the end. -/
theorem foldlM_keeps {f : β → α → Except Error β} {I : List α → β → Prop}
    (step : ∀ done a b b', I done b → f b a = .ok b' → I (done ++ [a]) b')
    (as : List α) {b b' : β} (first : I [] b) (h : as.foldlM f b = .ok b') : I as b' := by
  have from_ : ∀ (as done : List α) (b : β), I done b → as.foldlM f b = .ok b' →
      I (done ++ as) b' := by
    intro as
    induction as with
    | nil =>
      intro done b hd h
      rw [List.foldlM_nil, pure_eq_ok] at h
      rwa [← h, List.append_nil]
    | cons a as ih =>
      intro done b hd h
      rw [List.foldlM_cons, bind_eq_ok] at h
      obtain ⟨mid, ha, hrest⟩ := h
      have := ih (done ++ [a]) mid (step done a b mid hd ha) hrest
      rwa [List.append_assoc, List.singleton_append] at this
  exact from_ as [] b first h

end ClearSign.Refusal
