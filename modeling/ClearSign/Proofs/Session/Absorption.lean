import ClearSign.Proofs.Session.Attachment
import ClearSign.Proofs.Session.Stranding

/-!
Which fields the digest of a call is counted over: those whose payloads came whole while the call
was current, since it was opened, in the order in which they came. Nothing else that happens to a
session has a part in it.
-/

namespace ClearSign

theorem Call.isVerified_iff {c : Call} :
    c.isVerified = true ↔ ∃ info, c.info = some info ∧
      Call.fieldsDigest c.absorbed = info.fieldsHash := by
  unfold Call.isVerified
  cases c.info with
  | none => simp
  | some info => simp

namespace CallStack

variable {s t u : CallStack}

/-- The fields that the call in a slot has met; where no call is, none were met. -/
def absorbedAt (s : CallStack) (slot : Nat) : Bytes := (s.call? slot).elim [] Call.absorbed

theorem absorbedAt_of_call? {slot : Nat} {c : Call} (h : s.call? slot = some c) :
    s.absorbedAt slot = c.absorbed := by
  unfold absorbedAt
  rw [h, Option.elim_some]

theorem absorbedAt_of_none {slot : Nat} (h : s.call? slot = none) : s.absorbedAt slot = [] := by
  unfold absorbedAt
  rw [h, Option.elim_none]

/-- The calls that are there have met what was met in their slots before. -/
def Retains (s t : CallStack) : Prop :=
  ∀ slot c, t.call? slot = some c → c.absorbed = s.absorbedAt slot

theorem Retains.refl (s : CallStack) : Retains s s := fun _ _ h => (absorbedAt_of_call? h).symm

theorem Retains.of_slots (h : Retains s t) (hslots : u.slots = t.slots) : Retains s u := by
  intro slot c hc
  rw [call?_congr hslots] at hc
  exact h slot c hc

/-- Calls that leave change nothing for those that stay. -/
theorem Retains.sheds (h : Retains s t) (htu : Sheds t u) : Retains s u := by
  intro slot c hc
  rcases htu.kept slot with hkept | ⟨hgone, -⟩
  · exact h slot c (by rw [← hkept, hc])
  · rw [hgone] at hc
    cases hc

/-- A descriptor is no field. -/
theorem Retains.attached (h : Retains s t) {mode : SigningMode} {info : TransactionInfo}
    (htu : t.attached mode info = .ok u) : Retains s u := by
  intro slot c hc
  rcases attached_cases htu hc with hkept | ⟨d, -, hd, rfl⟩
  · exact h slot c hkept
  · exact h slot d hd

/-- More arguments are no field. -/
theorem retains_modifyAt {slot : Nat} {f : Call → Call} (hf : ∀ c, (f c).absorbed = c.absorbed) :
    Retains s (s.modifyAt slot f) := by
  intro i c hc
  rcases call?_modifyAt_cases hc with ⟨rfl, d, hd, rfl⟩ | ⟨-, hkept⟩
  · rw [hf, absorbedAt_of_call? hd]
  · exact (absorbedAt_of_call? hkept).symm

/-- A first call that is opened where none is has met nothing. -/
theorem retains_first (hnone : s.count = 0) {c : Call} (hfresh : IsFresh c)
    (hslots : t.slots = [some c]) : Retains s t := by
  intro slot d hd
  obtain ⟨-, rfl⟩ := eq_of_single hslots hd
  have hfree : s.call? slot = none := by
    cases hcall : s.call? slot with
    | none => rfl
    | some e => exact absurd (List.length_eq_zero_iff.mp hnone) (live_ne_nil hcall)
  rw [absorbedAt_of_none hfree, hfresh.2]

/-- A field is met by the call it goes to and by no other. Calls that it opens have met none. -/
theorem absorbed_grown {slot i : Nat} {c d : Call} {payload : Bytes} {new : List NewCall}
    {opened : List Call} (hcall : s.call? slot = some c)
    (hg : Field.Grows new (s.modifyAt slot (Call.withField payload)) t opened)
    (hd : t.call? i = some d) :
    d.absorbed = s.absorbedAt i ++ if i = slot then payload else [] := by
  have hlength : (s.modifyAt slot (Call.withField payload)).slots.length = s.slots.length :=
    List.length_modify _ _ _
  rw [hg.call?, hlength] at hd
  by_cases hold : i < s.slots.length
  · rw [if_pos hold] at hd
    rcases call?_modifyAt_cases hd with ⟨rfl, e, he, rfl⟩ | ⟨hi, hkept⟩
    · rw [if_pos rfl, absorbedAt_of_call? he]
      rfl
    · rw [if_neg hi, List.append_nil, absorbedAt_of_call? hkept]
  · rw [if_neg hold] at hd
    have hfree : s.call? i = none := by
      cases he : s.call? i with
      | none => rfl
      | some e => exact absurd (lt_length he) hold
    have hi : i ≠ slot := by
      rintro rfl
      rw [hcall] at hfree
      cases hfree
    rw [if_neg hi, List.append_nil, absorbedAt_of_none hfree,
      (hg.fresh d (List.mem_of_getElem? hd)).2]

end CallStack

namespace Session

open CallStack

/-- The payload of a field that an operation completes while the call in a slot is current. -/
def fieldFor (device : Device) (s : Session) (slot : Nat) : Operation → Option Bytes
  | .command .field mark chunk =>
    if s.review.calls.current = some slot then s.completed device mark chunk else none
  | _ => none

/-- The payloads of the fields that a row of operations completes while the call in a slot is
current, in the order in which they come. -/
def fieldsFor (device : Device) (slot : Nat) : Session → List Operation → List Bytes
  | _, [] => []
  | s, op :: ops =>
    (s.fieldFor device slot op).toList ++ fieldsFor device slot (s.step device op) ops

theorem fieldsFor_concat (device : Device) (slot : Nat) (s : Session) (ops : List Operation)
    (op : Operation) : fieldsFor device slot s (ops ++ [op]) =
      fieldsFor device slot s ops ++
        ((ops.foldl (step device) s).fieldFor device slot op).toList := by
  induction ops generalizing s with
  | nil => simp [fieldsFor]
  | cons first ops ih =>
    rw [List.cons_append, fieldsFor, ih, fieldsFor, List.foldl_cons, List.append_assoc]

theorem retains_info {device : Device} {payload : Bytes} {s s' : Session}
    (h : (handleInfo device payload).exec s = (.ok (), s')) :
    Retains s.review.calls s'.review.calls := by
  obtain ⟨info, calls, selected, -, hoffers, hselect, hattach⟩ := handleInfo_answers h
  have hoffered : Retains s.review.calls calls := by
    rcases hoffers with ⟨-, rfl⟩ | ⟨hnone, c, hfresh, -, hslots, -⟩
    · exact .refl _
    · exact retains_first hnone hfresh hslots
  have hselected := hoffered.of_slots (select_eq_ok hselect).1
  exact (hselected.sheds (sheds_flushedBefore selected)).attached hattach

theorem retains_begin (device : Device) (t : Transaction) (s : Session) :
    Retains s.review.calls ((begin device t).exec s).2.review.calls := by
  rcases hexec : (begin device t).exec s with ⟨e | ⟨⟩, s'⟩
  · rw [begin_refused hexec]
    exact .refl _
  · obtain ⟨hnone, c, hfresh, -, hslots, -⟩ := begin_answers hexec
    exact retains_first hnone hfresh hslots

theorem retains_append (bs : Bytes) (s : Session) :
    Retains s.review.calls ((append bs).exec s).2.review.calls := by
  rcases append_review bs s with hsame | ⟨slot, -, -, data, -, -, -, -, hchange⟩
  · rw [hsame]
    exact .refl _
  · rw [hchange]
    exact retains_modifyAt fun c => rfl

/-- A field that is handled is met by the current call and by no other. -/
theorem absorbed_field {device : Device} {payload : Bytes} {s s' : Session} {slot : Nat}
    {c : Call} (h : (handleField device payload).exec s = (.ok (), s'))
    (hc : s'.review.calls.call? slot = some c) :
    c.absorbed = s.review.calls.absorbedAt slot ++
      if s.review.calls.current = some slot then payload else [] := by
  obtain ⟨field, current, d, new, opened, grown, -, hslot, hcall, -, hgrows, hcalls⟩ :=
    handleField_answers h
  rw [hcalls] at hc
  have hgrown : grown.call? slot = some c := by
    rcases (sheds_settled device.settings.mode grown).kept slot with hkept | ⟨hgone, -⟩
    · rw [← hkept, hc]
    · rw [hgone] at hc
      cases hc
  rw [absorbed_grown hcall hgrows hgrown, hslot]
  simp only [Option.some.injEq, eq_comm]

/-- What a call has met after one operation is what was met in its slot before, and then the
field that the operation completes for it, if it completes one. -/
theorem absorbed_step {device : Device} {s : Session} {op : Operation} {slot : Nat} {c : Call}
    (hc : (s.step device op).review.calls.call? slot = some c) :
    c.absorbed = s.review.calls.absorbedAt slot ++ (s.fieldFor device slot op).getD [] := by
  have of_retains (h : Retains s.review.calls (s.step device op).review.calls)
      (hnone : s.fieldFor device slot op = none) :
      c.absorbed = s.review.calls.absorbedAt slot ++ (s.fieldFor device slot op).getD [] := by
    rw [hnone, Option.getD_none, List.append_nil, h slot c hc]
  cases op with
  | begin t => exact of_retains (retains_begin device t s) rfl
  | park data => exact of_retains (.refl _) rfl
  | append bs => exact of_retains (retains_append bs s) rfl
  | command command mark chunk =>
    have hstep : s.step device (.command command mark chunk) =
        (s.run device command mark chunk).2 := rfl
    rcases run_cases device command mark chunk s with ⟨-, challenge, hwiped⟩ |
      ⟨-, hwaits, r, hs'⟩ | ⟨-, -, payload, r, hcompleted, hhandle⟩
    · rw [hstep, hwiped] at hc
      cases hc
    · apply of_retains
      · rw [hstep, hs']
        exact .refl _
      · cases command <;> simp [fieldFor, hwaits]
    · rw [← hstep] at hhandle
      cases command with
      | field =>
        rw [absorbed_field (s := { s with reassembly := r }) hhandle hc]
        show s.review.calls.absorbedAt slot ++ _ = _
        simp only [fieldFor, hcompleted]
        split <;> rfl
      | transactionInfo =>
        exact of_retains (retains_info (s := { s with reassembly := r }) hhandle) rfl
      | proxyBinding =>
        apply of_retains _ rfl
        rw [handle_keeps_review (by simp) (by simp) hhandle]
        exact .refl _
      | enumLabel =>
        apply of_retains _ rfl
        rw [handle_keeps_review (by simp) (by simp) hhandle]
        exact .refl _
  | roll => exact of_retains (.refl _) rfl
  | cleanup => cases hc

/-- The call in a slot was opened by the operation at a place of a run and has been there since;
what it has met are the fields that came for it since. -/
structure OpenedAt (device : Device) (ops : List Operation) (slot place : Nat) (c : Call) :
    Prop where
  within : place < ops.length
  free : (after device (ops.take place)).review.calls.call? slot = none
  since : ∀ n, place < n → n ≤ ops.length →
    ((after device (ops.take n)).review.calls.call? slot).isSome = true
  absorbed : c.absorbed =
    (fieldsFor device slot (after device (ops.take place)) (ops.drop place)).flatten

variable {device : Device} {ops : List Operation} {op : Operation} {slot place : Nat} {c c' : Call}

/-- A call that is still there after one more operation has met what that operation brings it. -/
theorem OpenedAt.concat (h : OpenedAt device ops slot place c)
    (hcall : (after device ops).review.calls.call? slot = some c)
    (hcall' : (after device (ops ++ [op])).review.calls.call? slot = some c') :
    OpenedAt device (ops ++ [op]) slot place c' := by
  have hplace := h.within
  have hbefore : (ops ++ [op]).take place = ops.take place :=
    List.take_append_of_le_length (Nat.le_of_lt hplace)
  refine ⟨?_, by rw [hbefore, h.free], ?_, ?_⟩
  · rw [List.length_append, List.length_singleton]
    omega
  · intro n hn hlength
    rcases take_concat hlength with ⟨hold, htake⟩ | ⟨-, htake⟩
    · rw [htake]
      exact h.since n hn hold
    · rw [htake, hcall', Option.isSome_some]
  · have hstep := hcall'
    rw [after_concat] at hstep
    have hrest : (ops.drop place).foldl (step device) (after device (ops.take place)) =
        after device ops := by
      unfold after
      rw [← List.foldl_append, List.take_append_drop]
    rw [absorbed_step hstep, absorbedAt_of_call? hcall, h.absorbed, hbefore,
      List.drop_append_of_le_length (Nat.le_of_lt hplace), fieldsFor_concat, hrest,
      List.flatten_append]
    cases (after device ops).fieldFor device slot op <;> simp

/-- A call that the last operation of a run opens has met nothing. -/
theorem openedAt_last (hfree : (after device ops).review.calls.call? slot = none)
    (hcall : (after device (ops ++ [op])).review.calls.call? slot = some c) :
    OpenedAt device (ops ++ [op]) slot ops.length c := by
  refine ⟨by simp, by rw [List.take_left, hfree], ?_, ?_⟩
  · intro n hn hlength
    rcases take_concat hlength with ⟨hold, -⟩ | ⟨-, htake⟩
    · omega
    · rw [htake, hcall, Option.isSome_some]
  · have hstep := hcall
    rw [after_concat] at hstep
    rw [absorbed_step hstep, absorbedAt_of_none hfree, List.take_left, List.drop_left]
    simp only [fieldsFor]
    cases (after device ops).fieldFor device slot op <;> simp

/-- Every call that is there after a run was opened in it. -/
theorem openedAt_run (device : Device) (ops : List Operation) {slot : Nat} {c : Call}
    (hcall : (after device ops).review.calls.call? slot = some c) :
    ∃ place, OpenedAt device ops slot place c := by
  induction ops using List.reverseRecOn generalizing c with
  | nil => cases hcall
  | append_singleton ops op ih =>
    cases hbefore : (after device ops).review.calls.call? slot with
    | none => exact ⟨ops.length, openedAt_last hbefore hcall⟩
    | some d =>
      obtain ⟨place, hopened⟩ := ih hbefore
      exact ⟨place, hopened.concat hbefore hcall⟩

/-- A transaction whose first call is alone is ready once that call is complete. -/
theorem isReady_of_alone {s : Session} (hmode : device.settings.mode = .transaction)
    (hs : s.review.calls.Sound) (hcount : s.review.calls.count = 1)
    (hcall : s.review.calls.call? slot = some c) : s.isReady device = c.isVerified := by
  rcases hs.current with hnone | ⟨before, d, behind, hstands⟩
  · exact absurd hnone (live_ne_nil hcall)
  · obtain ⟨current, -, hcurrent⟩ := hstands.call?
    obtain rfl : slot = current := eq_of_count_one hcount hcall hcurrent
    obtain rfl : c = d := Option.some.inj (hcall.symm.trans hcurrent)
    have hbefore : before = [] := by
      unfold CallStack.count at hcount
      rw [hstands.live, List.length_append, List.length_cons] at hcount
      exact List.length_eq_zero_iff.mp (by omega)
    unfold isReady
    rw [hmode, hcount, hstands.isRoot, hbefore]
    unfold CallStack.isVerified
    rw [hstands.currentCall]
    simp

/-- The digest of a call is that of the fields whose payloads came whole while it was current,
since it was opened, one behind the other. One more operation adds to them the field that it
completes for the call, and changes nothing otherwise. So a transaction of which the first call
alone is left is ready just if the digest of those fields is the one that the descriptor of that
call announces. -/
theorem absorbed_since_opened (device : Device) (ops : List Operation) (slot : Nat) (c : Call)
    (hcall : (after device ops).review.calls.call? slot = some c) :
    (∃ place, OpenedAt device ops slot place c ∧
      let fields := fieldsFor device slot (after device (ops.take place)) (ops.drop place)
      Call.fieldsDigest c.absorbed = Keccak.sha3 fields.flatten ∧
        (device.settings.mode = .transaction → (after device ops).review.calls.count = 1 →
          ((after device ops).isReady device = true ↔
            ∃ info, c.info = some info ∧ Keccak.sha3 fields.flatten = info.fieldsHash))) ∧
    ∀ op c', (after device (ops ++ [op])).review.calls.call? slot = some c' →
      c'.absorbed = c.absorbed ++ ((after device ops).fieldFor device slot op).getD [] := by
  obtain ⟨place, hopened⟩ := openedAt_run device ops hcall
  have hdigest : Call.fieldsDigest c.absorbed = Keccak.sha3
      (fieldsFor device slot (after device (ops.take place)) (ops.drop place)).flatten := by
    rw [← hopened.absorbed]
    rfl
  refine ⟨⟨place, hopened, hdigest, ?_⟩, ?_⟩
  · intro hmode hcount
    rw [isReady_of_alone hmode (run_stranding hmode ops).1 hcount hcall, Call.isVerified_iff,
      hdigest]
  · intro op c' hcall'
    rw [after_concat] at hcall'
    rw [absorbed_step hcall', absorbedAt_of_call? hcall]

/-- A call that calls another one and shows a number, before and after which the other shows one
of its own. -/
def sampleVisit : List Operation :=
  [sampleBegin, sampleInfo (Call.fieldsDigest (sampleCall 9 ++ sampleField)).bytes,
   whole .field (sampleCall 9),
   whole .transactionInfo (sampleDescriptor 9 (Call.fieldsDigest sampleField).bytes []),
   whole .field sampleField, whole .field sampleField]

/-- The field of the call that was visited is not counted for the first one. -/
theorem absorbed_since_opened_visit :
    let device := sampleDevice .transaction
    ∃ c place, (after device sampleVisit).review.calls.call? 0 = some c ∧
      (after device sampleVisit).isReady device = true ∧
      (fieldsFor device 0 (after device (sampleVisit.take place))
        (sampleVisit.drop place)).flatten = sampleCall 9 ++ sampleField := by
  intro device
  have hrun : ((after device sampleVisit).review.calls.call? 0).any
        (fun c => c.absorbed == sampleCall 9 ++ sampleField) = true ∧
      (after device sampleVisit).isReady device = true := by decide +kernel
  obtain ⟨hmet, hready⟩ := hrun
  obtain ⟨c, hcall, hc⟩ := (Option.any_eq_true _ _).mp hmet
  obtain ⟨⟨place, hopened, -⟩, -⟩ := absorbed_since_opened device sampleVisit 0 c hcall
  have hfields := hopened.absorbed.symm.trans (beq_iff_eq.mp hc)
  exact ⟨c, place, hcall, hready, hfields⟩

end Session

end ClearSign
