import ClearSign.Proofs.Review.Departure

/-!
Which calls leave by flushing and settling: calls without arguments, and complete ones. No other
call is touched.
-/

namespace ClearSign.CallStack

variable {s t u : CallStack}

theorem call?_leave (s : CallStack) (slot i : Nat) :
    (s.leave slot).call? i = if i = slot then none else s.call? i := by
  unfold leave call?
  rw [List.getElem?_set]
  by_cases hi : i = slot
  · subst hi
    rw [if_pos rfl, if_pos rfl]
    split <;> rfl
  · rw [if_neg (Ne.symm hi), if_neg hi]

/-- A call that may leave without a descriptor that announced no fields. -/
def MayLeave (c : Call) : Prop := c.calldata = none ∨ c.isVerified = true

/-- Every call is as it was, or had the right to leave and is gone. -/
structure Sheds (s t : CallStack) : Prop where
  length : t.slots.length = s.slots.length
  kept : ∀ slot, t.call? slot = s.call? slot ∨
    t.call? slot = none ∧ ∀ c, s.call? slot = some c → MayLeave c

theorem Sheds.refl (s : CallStack) : Sheds s s := ⟨rfl, fun _ => .inl rfl⟩

theorem Sheds.trans (hst : Sheds s t) (htu : Sheds t u) : Sheds s u := by
  refine ⟨htu.length.trans hst.length, ?_⟩
  intro slot
  rcases htu.kept slot with hu | ⟨hu, hleave⟩
  · rw [hu]
    exact hst.kept slot
  · rcases hst.kept slot with ht | ⟨-, hleave'⟩
    · rw [ht] at hleave
      exact .inr ⟨hu, hleave⟩
    · exact .inr ⟨hu, hleave'⟩

/-- One call that had the right to leave is gone, and no other is touched. -/
theorem sheds_of_left {slot : Nat} (hlength : t.slots.length = s.slots.length)
    (hcall : ∀ i, t.call? i = if i = slot then none else s.call? i)
    (h : ∀ c, s.call? slot = some c → MayLeave c) : Sheds s t := by
  refine ⟨hlength, ?_⟩
  intro i
  rw [hcall]
  by_cases hi : i = slot
  · subst hi
    rw [if_pos rfl]
    exact .inr ⟨rfl, h⟩
  · rw [if_neg hi]
    exact .inl rfl

theorem sheds_leaveAll {slots : List Nat}
    (h : ∀ slot ∈ slots, ∀ c, s.call? slot = some c → c.calldata = none) :
    Sheds s (s.leaveAll slots) := by
  induction slots generalizing s with
  | nil => exact .refl s
  | cons slot slots ih =>
    have hfirst : Sheds s (s.leave slot) := by
      apply sheds_of_left List.length_set (call?_leave s slot)
      intro c hc
      exact .inl (h slot List.mem_cons_self c hc)
    apply hfirst.trans
    apply ih
    intro i hi c hc
    rw [call?_leave] at hc
    split at hc
    · cases hc
    · exact h i (List.mem_cons_of_mem _ hi) c hc

theorem calldata_of_mem_emptyRun {around : Nat → List Nat} {slot : Nat}
    (hmem : slot ∈ s.emptyRun around) : ∀ c, s.call? slot = some c → c.calldata = none := by
  intro c hc
  unfold emptyRun at hmem
  split at hmem
  · cases hmem
  · have hempty := List.all_eq_true.mp List.all_takeWhile slot hmem
    simpa [hc] using hempty

theorem sheds_flushedBefore (s : CallStack) : Sheds s s.flushedBefore :=
  sheds_leaveAll fun _ => calldata_of_mem_emptyRun

theorem sheds_flushedAfter (s : CallStack) : Sheds s s.flushedAfter :=
  sheds_leaveAll fun _ => calldata_of_mem_emptyRun

theorem call?_leaveAll_of_notMem {slots : List Nat} {slot : Nat} (h : slot ∉ slots) :
    (s.leaveAll slots).call? slot = s.call? slot := by
  induction slots generalizing s with
  | nil => rfl
  | cons i slots ih =>
    rw [List.mem_cons, not_or] at h
    obtain ⟨hi, hrest⟩ := h
    show ((s.leave i).leaveAll slots).call? slot = _
    rw [ih hrest, call?_leave, if_neg hi]

theorem current_leaveAll (slots : List Nat) : (s.leaveAll slots).current = s.current := by
  induction slots generalizing s with
  | nil => rfl
  | cons i slots ih => exact ih (s := s.leave i)

/-- If other calls than the current one leave, that call stays as it is. -/
theorem currentCall_leaveAll {gone : List Nat} (h : ∀ slot, s.current = some slot → slot ∉ gone) :
    (s.leaveAll gone).currentCall = s.currentCall := by
  unfold currentCall
  rw [current_leaveAll]
  cases hslot : s.current with
  | none => rfl
  | some slot => exact call?_leaveAll_of_notMem (h slot hslot)

theorem emptyRun_subset (around : Nat → List Nat) :
    s.emptyRun around ⊆ s.current.toList.flatMap around := by
  unfold emptyRun
  cases s.current with
  | none => exact List.nil_subset _
  | some slot =>
    rw [Option.toList_some, List.flatMap_singleton]
    exact List.takeWhile_subset _

theorem mem_of_mem_emptyRun {around : Nat → List Nat} {slot i : Nat}
    (hslot : s.current = some slot) (h : i ∈ s.emptyRun around) : i ∈ around slot := by
  have haround := s.emptyRun_subset around h
  rwa [hslot, Option.toList_some, List.flatMap_singleton] at haround

/-- The current call is none of those that are flushed before it. -/
theorem notMem_emptyBefore {slot : Nat} (hslot : s.current = some slot) :
    slot ∉ s.emptyBefore := by
  intro hmem
  have hbefore := mem_of_mem_emptyRun hslot hmem
  simp [placesBefore] at hbefore

/-- The current call is none of those that are flushed behind it. -/
theorem notMem_emptyAfter {slot : Nat} (hslot : s.current = some slot) :
    slot ∉ s.emptyAfter := by
  intro hmem
  have hbehind := mem_of_mem_emptyRun hslot hmem
  simp [placesAfter] at hbehind

theorem currentCall_flushedBefore (s : CallStack) : s.flushedBefore.currentCall = s.currentCall :=
  currentCall_leaveAll fun _ => notMem_emptyBefore

theorem currentCall_flushedAfter (s : CallStack) : s.flushedAfter.currentCall = s.currentCall :=
  currentCall_leaveAll fun _ => notMem_emptyAfter

theorem call?_popped {slot : Nat} (hslot : s.current = some slot) (i : Nat) :
    s.popped.call? i = if i = slot then none else s.call? i := by
  unfold popped
  simp only [hslot]
  exact call?_leave s slot i

theorem length_popped (s : CallStack) : s.popped.slots.length = s.slots.length := by
  unfold popped
  cases s.current with
  | none => rfl
  | some slot => exact List.length_set

theorem sheds_popped (h : s.isVerified = true) : Sheds s s.popped := by
  cases hslot : s.current with
  | none =>
    unfold popped
    rw [hslot]
    exact .refl s
  | some slot =>
    apply sheds_of_left (length_popped s) (call?_popped hslot)
    intro c hc
    right
    unfold isVerified currentCall at h
    rw [hslot, Option.bind_some, hc] at h
    exact h

theorem sheds_settledFor (mode : SigningMode) (rounds : Nat) (s : CallStack) :
    Sheds s (s.settledFor mode rounds) := by
  induction rounds generalizing s with
  | zero => exact .refl s
  | succ rounds ih =>
    unfold settledFor
    by_cases hdone : s.isDone mode = true
    · rw [if_pos hdone]
      have hverified : s.flushedAfter.isVerified = true := by
        unfold isVerified
        rw [currentCall_flushedAfter]
        exact (Bool.and_eq_true_iff.mp hdone).2
      exact (sheds_flushedAfter s).trans ((sheds_popped hverified).trans (ih _))
    · rw [if_neg hdone]
      exact .refl s

theorem sheds_settled (mode : SigningMode) (s : CallStack) : Sheds s (s.settled mode) :=
  sheds_settledFor mode s.count s

end ClearSign.CallStack
