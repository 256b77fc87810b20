import ClearSign.Proofs.Session.Run

/-!
What a refusal costs. A transaction that is begun and arguments that are brought are no commands:
nothing is wiped when they are refused, and what was done before the objection stays done. Arguments
are looked at before anything changes. A transaction without arguments of its own takes the parked
ones before the device is asked for room and for its address; if the device objects, they are gone.
-/

namespace ClearSign

/-- Where an action is refused, all is as it was. -/
def Action.AllOrNothing {σ α : Type} (a : Action σ α) (s : σ) : Prop :=
  ∀ e t, a.exec s = (.error e, t) → t = s

/-- What a device has against a first call: it has no room for any, or cannot tell its address. -/
def Device.objection? (device : Device) : Option Error :=
  if device.settings.maxCalls = 0 then some .outOfMemory
  else
    match device.registry.wallet with
    | .ok _ => none
    | .error e => some e

/-- The same device, with room for one call and an address. -/
def Device.recovered (device : Device) : Device where
  registry := { device.registry with wallet := .ok (Fixed.zero 20) }
  settings := { device.settings with maxCalls := 1 }
  verifier := device.verifier

namespace Session

open Refusal ClearSign.Action

/-- Neither a transaction nor arguments can be refused at a cost. -/
def Unharmed (device : Device) (s : Session) : Prop :=
  (∀ t, (begin device t).AllOrNothing s) ∧ ∀ bs, (append bs).AllOrNothing s

/-- A transaction that was refused can be begun again, on the same device or on one that has changed
its mind, as if it had not been refused. -/
def Retriable (device : Device) (t : Transaction) (s : Session) : Prop :=
  ∀ e s', (begin device t).exec s = (.error e, s') →
    ∀ later : Device, (begin later t).exec s' = (begin later t).exec s

section

variable {device : Device} {t : Transaction} {s s' : Session}

/-- A call is refused before anything changes. -/
theorem openCall_refused_iff {host : Host} {new : NewCall} {r r' : Review} {e : Error} :
    (Review.openCall host new).exec r = (.error e, r') ↔
      r.calls.push host.settings host.registry new = .error e ∧ r' = r := by
  unfold Review.openCall
  rw [exec_get_bind, exec_bind, exec_ofExcept]
  cases r.calls.push host.settings host.registry new with
  | error e' => simp [eq_comm]
  | ok opened =>
    constructor
    · intro h
      cases h
    · rintro ⟨h, -⟩
      cases h

/-- A first call is refused for what the device has against one, and for nothing else. -/
theorem push_objects {calls : CallStack} (hnone : calls.count = 0) (new : NewCall) (e : Error) :
    calls.push device.settings device.registry new = .error e ↔ device.objection? = some e := by
  have hlast : calls.live.getLast? = none := by
    rw [List.length_eq_zero_iff.mp hnone, List.getLast?_nil]
  unfold CallStack.push Device.objection?
  simp only [hnone, Nat.le_zero, hlast]
  by_cases hroom : device.settings.maxCalls = 0
  · simp [hroom, bind, Except.bind, throw, throwThe, MonadExceptOf.throw]
  · cases device.registry.wallet <;> simp [hroom, bind, Except.bind, pure, Except.pure]

/-- A transaction is opened to the end, or not at all. -/
theorem openRoot_refused_iff (hnone : s.review.calls.count = 0) (e : Error) :
    (openRoot device t).exec s = (.error e, s') ↔ device.objection? = some e ∧ s' = s := by
  unfold openRoot onReview
  rw [exec_bind, exec_onPart]
  rcases hopen : (Review.openCall device.toHost
    ⟨t.calldata, none, t.target, t.amount, some t.chain⟩).exec s.review with ⟨e' | slot, r⟩
  · obtain ⟨hpush, rfl⟩ := openCall_refused_iff.mp hopen
    rw [(push_objects hnone _ e').mp hpush, Prod.mk.injEq, Except.error.injEq, Option.some.injEq,
      eq_comm (a := s')]
  · obtain ⟨wallet, -, -, hselect⟩ := selectRoot_openCall hnone hopen
    have hwilling : device.objection? ≠ some e := by
      intro hobjection
      have hrefused := openCall_refused_iff.mpr
        ⟨(push_objects hnone ⟨t.calldata, none, t.target, t.amount, some t.chain⟩ e).mpr hobjection,
          rfl⟩
      rw [hopen] at hrefused
      cases hrefused
    refine ⟨fun h => ?_, fun h => absurd h.1 hwilling⟩
    simp only [exec_bind, exec_onPart, Review.onCalls, exec_update, hselect] at h
    by_cases hmode : device.settings.mode = .transaction
    · rw [if_pos hmode] at h
      cases h
    · rw [if_neg hmode] at h
      cases h

/-- A transaction is refused where calls are live, and then all is as it was. Where none is, it is
refused for what the device has against a first call; by then the parked arguments were taken,
unless the transaction brings its own. -/
theorem begin_refused_iff (device : Device) (t : Transaction) (s s' : Session) (e : Error) :
    (begin device t).exec s = (.error e, s') ↔
      (s.review.calls.count ≠ 0 ∧ e = .invalidState ∧ s' = s) ∨
      (s.review.calls.count = 0 ∧ device.objection? = some e ∧
        s' = if t.calldata.isSome then s else { s with parked := none }) := by
  unfold begin
  rw [exec_get_bind]
  by_cases hnone : s.review.calls.count = 0
  · simp only [hnone, ne_eq, not_true, if_false, false_and, false_or, true_and]
    cases hdata : t.calldata with
    | some data => exact openRoot_refused_iff hnone e
    | none =>
      simp only [unpark, exec_bind, exec_get, exec_modify, exec_pure]
      exact openRoot_refused_iff (s := { s with parked := none }) hnone e
  · simp only [hnone, ne_eq, not_false_eq_true, if_true, true_and, false_and, or_false, exec_bind,
      exec_throw]
    simp [eq_comm]

theorem unparked_eq_self : ({ s with parked := none } : Session) = s ↔ s.parked = none := by
  constructor
  · intro h
    rw [← h]
  · intro h
    rw [← h]

/-- A refused transaction costs the arguments that were parked for it. -/
theorem begin_allOrNothing_iff (device : Device) (t : Transaction) (s : Session) :
    (begin device t).AllOrNothing s ↔
      s.review.calls.count ≠ 0 ∨ t.calldata.isSome ∨ s.parked = none ∨
        device.objection? = none := by
  unfold AllOrNothing
  simp only [begin_refused_iff]
  constructor
  · intro h
    by_cases hnone : s.review.calls.count = 0
    · cases hobjection : device.objection? with
      | none => exact .inr (.inr (.inr rfl))
      | some e =>
        have hsame := h e _ (.inr ⟨hnone, hobjection, rfl⟩)
        by_cases hdata : t.calldata.isSome
        · exact .inr (.inl hdata)
        · rw [if_neg hdata, unparked_eq_self] at hsame
          exact .inr (.inr (.inl hsame))
    · exact .inl hnone
  · rintro h e s' (⟨-, -, rfl⟩ | ⟨hnone, hobjection, rfl⟩)
    · rfl
    · rcases h with hlive | hdata | hparked | hwilling
      · exact absurd hnone hlive
      · rw [if_pos hdata]
      · rw [unparked_eq_self.mpr hparked, ite_self]
      · rw [hwilling] at hobjection
        cases hobjection

/-- A device that has nothing against a first call opens it. -/
theorem begin_succeeds (hnone : s.review.calls.count = 0) (hwilling : device.objection? = none)
    (t : Transaction) : ∃ s', (begin device t).exec s = (.ok (), s') := by
  rcases hbegin : (begin device t).exec s with ⟨e | ⟨⟩, s'⟩
  · rcases (begin_refused_iff device t s s' e).mp hbegin with ⟨hlive, -⟩ | ⟨-, hobjection, -⟩
    · exact absurd hnone hlive
    · rw [hwilling] at hobjection
      cases hobjection
  · exact ⟨s', rfl⟩

/-- A transaction that lost the parked arguments opens a call without arguments when it is begun
again. -/
theorem retriable_iff (device : Device) (t : Transaction) (s : Session) :
    Retriable device t s ↔ (begin device t).AllOrNothing s := by
  constructor
  · intro h
    rw [begin_allOrNothing_iff]
    refine Classical.byContradiction fun hcost => ?_
    simp only [not_or, Bool.not_eq_true, Option.isSome_eq_false_iff, Option.isNone_iff_eq_none,
      ne_eq, Decidable.not_not] at hcost
    obtain ⟨hnone, hdata, hparked, hobjects⟩ := hcost
    obtain ⟨e, hobjection⟩ := Option.ne_none_iff_exists'.mp hobjects
    have hrefused := (begin_refused_iff device t s { s with parked := none } e).mpr
      (.inr ⟨hnone, hobjection, by rw [hdata]; rfl⟩)
    have hagain := h e _ hrefused device.recovered
    have hwilling : device.recovered.objection? = none := rfl
    obtain ⟨s₁, hbegun⟩ := begin_succeeds (s := s) hnone hwilling t
    obtain ⟨-, c, -, hargs, hslots, -⟩ := begin_answers hbegun
    rw [hbegun] at hagain
    obtain ⟨-, c', -, hargs', hslots', -⟩ := begin_answers hagain
    rw [hslots] at hslots'
    cases hslots'
    rw [hargs, hdata, Option.none_or, Option.none_or] at hargs'
    exact hparked hargs'
  · intro h e s' hrefused later
    rw [h e s' hrefused]

/-- Arguments that are refused change nothing. -/
theorem append_allOrNothing (bs : Bytes) (s : Session) : (append bs).AllOrNothing s := by
  intro e s' h
  unfold append at h
  rw [exec_get_bind] at h
  by_cases hnone : s.review.calls.count = 0
  · rw [if_pos hnone] at h
    cases hparked : s.parked with
    | none =>
      rw [hparked] at h
      cases h
      rfl
    | some data =>
      simp only [hparked, exec_bind, exec_ofExcept] at h
      cases hdata : data.append bs with
      | error e =>
        rw [hdata] at h
        cases h
        rfl
      | ok data' =>
        rw [hdata] at h
        cases h
  · rw [if_neg hnone] at h
    unfold onReview Review.onCalls at h
    simp only [exec_onPart, exec_update] at h
    cases hroot : CallStack.appendRoot bs s.review.calls with
    | error e =>
      rw [hroot] at h
      cases h
      rfl
    | ok calls =>
      rw [hroot] at h
      cases h

end

/-- Of all that is asked outside the commands, one thing has a cost when it is refused: a
transaction without arguments, on a device that objects, where no call is live and arguments are
parked. They are gone then, and nothing else is. -/
theorem unharmed_iff (device : Device) (ops : List Operation) :
    let s := after device ops
    (∀ bs, (append bs).AllOrNothing s) ∧
    (∀ t e s', (begin device t).exec s = (.error e, s') ↔
      (s.review.calls.count ≠ 0 ∧ e = .invalidState ∧ s' = s) ∨
      (s.review.calls.count = 0 ∧ device.objection? = some e ∧
        s' = if t.calldata.isSome then s else { s with parked := none })) ∧
    (∀ t, Retriable device t s ↔ (begin device t).AllOrNothing s) ∧
    (Unharmed device s ↔
      s.review.calls.count ≠ 0 ∨ s.parked = none ∨ device.objection? = none) := by
  intro s
  refine ⟨fun bs => append_allOrNothing bs s, fun t e s' => begin_refused_iff device t s s' e,
    fun t => retriable_iff device t s, ?_⟩
  unfold Unharmed
  simp only [begin_allOrNothing_iff]
  constructor
  · rintro ⟨h, -⟩
    simpa using h ⟨none, none, 0, none⟩
  · intro h
    refine ⟨fun t => ?_, fun bs => append_allOrNothing bs s⟩
    rcases h with hlive | hparked | hwilling
    · exact .inl hlive
    · exact .inr (.inr (.inl hparked))
    · exact .inr (.inr (.inr hwilling))

/-- A device that trusts every signature and cannot tell its address. -/
def lockedDevice : Device where
  registry := { (sampleDevice .transaction).registry with wallet := .error .notFound }
  settings := .default
  verifier := fun _ _ _ => true

/-- A device that cannot tell its address takes the parked arguments of a transaction that it
refuses. -/
theorem not_unharmed :
    ¬ ∀ (device : Device) (ops : List Operation), Unharmed device (after device ops) := by
  intro h
  have hcost := (h lockedDevice [sampleArguments]).1 ⟨none, none, 1, none⟩
  revert hcost
  rw [begin_allOrNothing_iff]
  decide +kernel

end Session

end ClearSign
