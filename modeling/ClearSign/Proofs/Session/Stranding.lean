import ClearSign.Proofs.Review.Order
import ClearSign.Proofs.Session.Run

/-!
When a transaction is left with calls that nothing can describe. A call without arguments leaves
with a call next to it that has some; where a field of the first call opens none but such calls,
or the last call that has arguments leaves for want of fields, those behind it stay.
-/

namespace ClearSign.Session

open CallStack

/-- The calls besides the first one. -/
def others (s : Session) : List Call := s.review.calls.live.tail

/-- A field of the first call leaves it with calls without arguments, and no other. -/
def FieldStrands (device : Device) (s : Session) (payload : Bytes) : Prop :=
  ∃ field c behind new, Field.parse payload = .ok field ∧ s.review.calls.Stands [] c behind ∧
    field.opens ⟨device.toHost, s.cache, some (c.withField payload)⟩ = .ok new ∧
    (behind ≠ [] ∨ new ≠ []) ∧ (∀ d ∈ behind, d.calldata = none) ∧ ∀ d ∈ new, d.calldata = none

/-- A descriptor finds none but calls without arguments behind the call that it is about, and none
with arguments between that call and the first one; and it is about the first call, or announces
no fields. -/
def InfoStrands (device : Device) (s : Session) (payload : Bytes) : Prop :=
  ∃ info selected before c behind,
    TransactionInfo.parse s.selectorCheck device.verifier payload = .ok info ∧
    s.review.calls.select s.cache info.contract info.selector info.chain = .ok selected ∧
    selected.Stands before c behind ∧ behind ≠ [] ∧
    (∀ d ∈ before.tail ++ behind, d.calldata = none) ∧
    (before = [] ∨ info.fieldsHash = Call.fieldsDigest [])

/-- Fields and descriptors that came whole decide anew whether calls are left that nothing can
describe. -/
def PayloadStrands (device : Device) (s : Session) (stranded : Prop) :
    Command → Option Bytes → Prop
  | .field, some payload => s.FieldStrands device payload
  | .transactionInfo, some payload => s.InfoStrands device payload
  | _, _ => stranded

/-- Whether calls are left that nothing can describe, after one more operation. A command that is
refused and cleaning up leave no call at all. -/
def strandsNext (device : Device) (s : Session) (stranded : Prop) : Operation → Prop
  | .command command mark chunk =>
    (s.run device command mark chunk).1 = .ok ∧
      s.PayloadStrands device stranded command (s.completed device mark chunk)
  | .cleanup => False
  | .begin _ | .park _ | .append _ | .roll => stranded

/-- The last field or descriptor of a run left calls that nothing can describe. -/
def Stranded (device : Device) (ops : List Operation) : Prop :=
  (noted device (strandsNext device) False ops).2

theorem field_stranding {device : Device} (hmode : device.settings.mode = .transaction)
    {payload : Bytes} {s s' : Session} (hs : s.review.calls.Sound)
    (hallowed : s.isAllowed .field = true)
    (h : (handleField device payload).exec s = (.ok (), s')) :
    s'.review.calls.Sound ∧
      (Stuck s'.review.calls.live ↔ s.FieldStrands device payload) := by
  obtain ⟨field, slot, c, new, opened, grown, hparse, hslot, hcall, hopens, hgrows, hcalls⟩ :=
    handleField_answers h
  obtain ⟨before, behind, hstands⟩ := stands_of_call? hslot hcall
  have hinfo : c.info.isSome = true := by
    unfold isAllowed at hallowed
    rw [hstands.currentCall] at hallowed
    simpa using hallowed
  have hordered := hs.ordered
  rw [hstands.live] at hordered
  have hdata : c.calldata.isSome = true := hordered.described c (by simp) hinfo
  have hgrown := (hstands.modifyAt hslot (Call.withField payload)).grows hgrows
  have hordered' : Ordered (before ++ c.withField payload :: (behind ++ opened)) := by
    have hchanged : Ordered (before ++ c.withField payload :: behind) := hordered.change id id
    have hgrow := hchanged.grow (by simp) ?_ hgrows.fresh
    · rwa [List.append_assoc, List.cons_append] at hgrow
    · intro d others hall
      cases before with
      | nil =>
        obtain ⟨rfl, -⟩ := List.cons.inj hall
        exact hdata
      | cons b before =>
        obtain ⟨rfl, -⟩ := List.cons.inj hall
        exact hordered.first b _ rfl (by simp)
  rw [hcalls, hmode]
  by_cases hroot : before = []
  · subst hroot
    unfold settled
    rw [hgrown.settledFor_root]
    refine ⟨hgrown.sound hordered', ?_⟩
    rw [hgrown.live, List.nil_append, stuck_cons]
    have hsome : behind ++ opened ≠ [] ↔ behind ≠ [] ∨ new ≠ [] := by
      rw [ne_eq, List.append_eq_nil_iff, hgrows.opens_none]
      exact not_and_or
    have hlegs : (∀ d ∈ behind ++ opened, d.calldata = none) ↔
        (∀ d ∈ behind, d.calldata = none) ∧ ∀ d ∈ new, d.calldata = none := by
      rw [List.forall_mem_append, hgrows.legs_iff]
    rw [hsome, hlegs]
    constructor
    · rintro ⟨hleft, hbehind, hnew⟩
      exact ⟨field, c, behind, new, hparse, hstands, hopens, hleft, hbehind, hnew⟩
    · rintro ⟨field', c', behind', new', hparse', hstands', hopens', hleft, hbehind, hnew⟩
      obtain rfl : field = field' := Except.ok.inj (hparse.symm.trans hparse')
      obtain ⟨rfl, rfl⟩ := List.cons.inj (hstands.live.symm.trans hstands'.live)
      obtain rfl : new = new' := Except.ok.inj (hopens.symm.trans hopens')
      exact ⟨hleft, hbehind, hnew⟩
  · obtain ⟨before', c', behind', hsettled, hordered'', hfree⟩ :=
      hgrown.settledFor grown.count hordered' hroot hdata
    refine ⟨hsettled.sound hordered'', ?_⟩
    show Stuck (settledFor .transaction grown.count grown).live ↔ _
    rw [hsettled.live]
    constructor
    · intro hstuck
      exact absurd hstuck hfree
    · rintro ⟨_, _, _, _, _, hstands', _⟩
      have hsame := hstands.isRoot.symm.trans hstands'.isRoot
      simp [hroot] at hsame

theorem info_stranding {device : Device} (hmode : device.settings.mode = .transaction)
    {payload : Bytes} {s s' : Session} (hs : s.review.calls.Sound)
    (h : (handleInfo device payload).exec s = (.ok (), s')) :
    s'.review.calls.Sound ∧ (Stuck s'.review.calls.live ↔ s.InfoStrands device payload) := by
  obtain ⟨info, calls, selected, hparse, hoffers, hselect, hattach⟩ := handleInfo_answers h
  obtain ⟨hslots, slot, c, hslot, hcall, hanswers⟩ := select_eq_ok hselect
  have hdata := isSome_of_answers hanswers
  have hcall' : selected.call? slot = some c := by
    rw [← hcall]
    show selected.slots[slot]?.join = _
    rw [hslots]
    rfl
  obtain ⟨before, behind, hstands⟩ := stands_of_call? hslot hcall'
  have hlive : calls.live = before ++ c :: behind := by
    rw [← hstands.live]
    show calls.slots.filterMap id = selected.slots.filterMap id
    rw [hslots]
  rw [hmode] at hattach
  rcases hoffers with ⟨-, rfl⟩ | ⟨hnone, d, hfresh, -, hroot, -⟩
  · have hordered := hs.ordered
    rw [hlive] at hordered
    obtain ⟨hsound, hstuck⟩ := hstands.attached_stuck hordered hdata hattach
    refine ⟨hsound, hstuck.trans ?_⟩
    constructor
    · intro hfound
      exact ⟨info, selected, before, c, behind, hparse, hselect, hstands, hfound⟩
    · rintro ⟨info', selected', before', c', behind', hparse', hselect', hstands', hfound⟩
      obtain rfl : info = info' := Except.ok.inj (hparse.symm.trans hparse')
      obtain rfl : selected = selected' := Except.ok.inj (hselect.symm.trans hselect')
      obtain ⟨rfl, -, rfl⟩ := hstands.unique hstands'
      exact hfound
  · have hone : calls.live = [d] := by
      show calls.slots.filterMap id = _
      rw [hroot]
      rfl
    have hordered : Ordered (before ++ c :: behind) := by
      rw [← hlive, hone]
      exact .alone fun hinfo => by simp [hfresh.1] at hinfo
    obtain ⟨hsound, hstuck⟩ := hstands.attached_stuck hordered hdata hattach
    have hbehind : behind = [] := by
      have hlength := congrArg List.length (hone.symm.trans hlive)
      simp only [List.length_append, List.length_cons, List.length_nil] at hlength
      exact List.length_eq_zero_iff.mp (by omega)
    refine ⟨hsound, hstuck.trans ?_⟩
    constructor
    · rintro ⟨hsome, -⟩
      exact absurd hbehind hsome
    · rintro ⟨_, selected', _, _, _, _, hselect', _⟩
      obtain ⟨-, slot', c', -, hcall'', -⟩ := select_eq_ok hselect'
      exact absurd (List.length_eq_zero_iff.mp hnone) (live_ne_nil hcall'')

/-- A transaction is begun where no call is live, and its call is then the only one. -/
theorem begin_sound (device : Device) (t : Transaction) {s : Session}
    (hs : s.review.calls.Sound) :
    ((begin device t).exec s).2.review.calls.Sound ∧
      (Stuck ((begin device t).exec s).2.review.calls.live ↔ Stuck s.review.calls.live) := by
  rcases hexec : (begin device t).exec s with ⟨e | ⟨⟩, s'⟩
  · show s'.review.calls.Sound ∧ (Stuck s'.review.calls.live ↔ _)
    rw [begin_refused hexec]
    exact ⟨hs, Iff.rfl⟩
  · obtain ⟨hnone, c, hfresh, -, hslots, hcurrent, -⟩ := begin_answers hexec
    have hstands : s'.review.calls.Stands [] c [] := ⟨[], [], hslots, hcurrent, rfl, rfl⟩
    refine ⟨hstands.sound (.alone fun hinfo => by simp [hfresh.1] at hinfo), ?_⟩
    rw [hstands.live, List.length_eq_zero_iff.mp hnone]
    exact Iff.rfl

/-- Arguments that come for the first call leave all others alone. -/
theorem append_sound (bs : Bytes) {s : Session} (hs : s.review.calls.Sound) :
    ((append bs).exec s).2.review.calls.Sound ∧
      (Stuck ((append bs).exec s).2.review.calls.live ↔ Stuck s.review.calls.live) := by
  rcases append_review bs s with hsame | ⟨slot, -, -, data, hplace, -, -, -, hchange⟩
  · rw [hsame]
    exact ⟨hs, Iff.rfl⟩
  · rw [hchange]
    obtain ⟨hsound, htail⟩ := hs.modify_root hplace data
    refine ⟨hsound, ?_⟩
    unfold Stuck
    rw [htail]

theorem not_stuck_nil : ¬ Stuck [] := by
  rintro ⟨hsome, -⟩
  exact hsome rfl

theorem sound_idle (challenge : Challenge) : (idle challenge).review.calls.Sound :=
  ⟨.inl rfl, .nil⟩

/-- What one operation keeps, and when it leaves calls that nothing can describe. -/
theorem step_stranding {device : Device} (hmode : device.settings.mode = .transaction)
    {s : Session} {stranded : Prop} (hs : s.review.calls.Sound)
    (hstuck : Stuck s.review.calls.live ↔ stranded) (op : Operation) :
    (s.step device op).review.calls.Sound ∧
      (Stuck (s.step device op).review.calls.live ↔ s.strandsNext device stranded op) := by
  cases op with
  | begin t =>
    obtain ⟨hsound, hsame⟩ := begin_sound device t hs
    exact ⟨hsound, hsame.trans hstuck⟩
  | park data => exact ⟨hs, hstuck⟩
  | append bs =>
    obtain ⟨hsound, hsame⟩ := append_sound bs hs
    exact ⟨hsound, hsame.trans hstuck⟩
  | command command mark chunk =>
    show (s.run device command mark chunk).2.review.calls.Sound ∧
      (Stuck (s.run device command mark chunk).2.review.calls.live ↔
        (s.run device command mark chunk).1 = .ok ∧
          s.PayloadStrands device stranded command (s.completed device mark chunk))
    rcases run_cases device command mark chunk s with ⟨hrefused, challenge, hwiped⟩ |
      ⟨hok, hwaits, r, hs'⟩ | ⟨hok, hallowed, payload, r, hcompleted, hhandle⟩
    · rw [hwiped]
      refine ⟨sound_idle challenge, ?_⟩
      constructor
      · intro hnone
        exact absurd hnone not_stuck_nil
      · rintro ⟨hok, -⟩
        exact absurd hok hrefused
    · rw [hs', hwaits, and_iff_right hok]
      cases command <;> exact ⟨hs, hstuck⟩
    · rw [hcompleted, and_iff_right hok]
      cases command with
      | field => exact field_stranding (s := { s with reassembly := r }) hmode hs hallowed hhandle
      | transactionInfo => exact info_stranding (s := { s with reassembly := r }) hmode hs hhandle
      | proxyBinding =>
        rw [handle_keeps_review (by simp) (by simp) hhandle]
        exact ⟨hs, hstuck⟩
      | enumLabel =>
        rw [handle_keeps_review (by simp) (by simp) hhandle]
        exact ⟨hs, hstuck⟩
  | roll => exact ⟨hs, hstuck⟩
  | cleanup => exact ⟨sound_idle _, iff_of_false not_stuck_nil id⟩

/-- After every run the calls stand in order, and some are left that nothing can describe just if
the last field or descriptor left them. -/
theorem run_stranding {device : Device} (hmode : device.settings.mode = .transaction)
    (ops : List Operation) : (after device ops).review.calls.Sound ∧
      (Stuck (after device ops).review.calls.live ↔ Stranded device ops) := by
  apply noted_keeps fun s stranded =>
    s.review.calls.Sound ∧ (Stuck s.review.calls.live ↔ stranded)
  · exact ⟨sound_idle _, iff_of_false not_stuck_nil id⟩
  · rintro s stranded op ⟨hs, hstuck⟩
    exact step_stranding hmode hs hstuck op

/-- With a complete first call, a transaction is ready once no other call is left. -/
theorem isReady_iff {device : Device} (hmode : device.settings.mode = .transaction) {s : Session}
    (hs : s.review.calls.Sound) {root : Call} (hroot : s.review.calls.root = some root)
    (hverified : root.isVerified = true) : s.isReady device = true ↔ s.others = [] := by
  have hlive : s.review.calls.live = root :: s.others := by
    unfold CallStack.root at hroot
    unfold others
    cases hcalls : s.review.calls.live with
    | nil => simp [hcalls] at hroot
    | cons c rest =>
      rw [hcalls] at hroot
      cases hroot
      rfl
  unfold isReady
  rw [hmode]
  constructor
  · intro hready
    have hcount := beq_iff_eq.mp (Bool.and_eq_true_iff.mp (Bool.and_eq_true_iff.mp hready).1).1
    unfold CallStack.count at hcount
    rw [hlive, List.length_cons] at hcount
    exact List.length_eq_zero_iff.mp (by omega)
  · intro hnone
    rw [hnone] at hlive
    rcases hs.current with hempty | ⟨before, c, behind, hstands⟩
    · rw [hlive] at hempty
      cases hempty
    · have hparts := hstands.live.symm.trans hlive
      obtain ⟨rfl, hc⟩ : before = [] ∧ c = root := by
        cases before with
        | nil => exact ⟨rfl, (List.cons.inj hparts).1⟩
        | cons b before => simp at hparts
      have hcurrent : s.review.calls.isVerified = true := by
        unfold CallStack.isVerified
        rw [hstands.currentCall, Option.any_some, hc, hverified]
      simp only [CallStack.count, hlive, List.length_singleton, hstands.isRoot, List.isEmpty_nil,
        hcurrent, beq_self_eq_true, Bool.and_self]

/-- With a complete first call, a transaction is ready or waits for a call that can be described,
unless the last field or descriptor left calls that nothing can describe. -/
theorem waits_or_ready_iff (device : Device) (hmode : device.settings.mode = .transaction)
    (ops : List Operation) (root : Call)
    (hroot : (after device ops).review.calls.root = some root)
    (hverified : root.isVerified = true) :
    ((∃ c ∈ (after device ops).others, c.calldata.isSome = true) ∨
      (after device ops).isReady device = true) ↔ ¬ Stranded device ops := by
  obtain ⟨hsound, hstuck⟩ := run_stranding hmode ops
  rw [← hstuck, isReady_iff hmode hsound hroot hverified]
  unfold Stuck others
  constructor
  · rintro (⟨c, hc, hdata⟩ | hnone) ⟨hsome, hlegs⟩
    · rw [hlegs c hc] at hdata
      cases hdata
    · exact hsome hnone
  · intro hfree
    by_cases hnone : (after device ops).review.calls.live.tail = []
    · exact .inr hnone
    · left
      by_contra hlegs
      apply hfree
      refine ⟨hnone, ?_⟩
      intro c hc
      cases hdata : c.calldata with
      | none => rfl
      | some data => exact absurd ⟨c, hc, by rw [hdata]; rfl⟩ hlegs

/-- The only field of a call opens another one that can be described. The first call is complete,
and the session is not ready but waits for the other one. -/
theorem waits_or_ready_iff_nested :
    let device := sampleDevice .transaction
    let ops := [sampleArguments, sampleInfo (Call.fieldsDigest (sampleCall 9)).bytes,
      whole .field (sampleCall 9)]
    (after device ops).isReady device = false ∧
      (∃ c ∈ (after device ops).others, c.calldata.isSome = true) ∧ ¬ Stranded device ops := by
  intro device ops
  have hrun : (after device ops).review.calls.root.any Call.isVerified = true ∧
      (after device ops).isReady device = false ∧
      ∃ c ∈ (after device ops).others, c.calldata.isSome = true := by decide +kernel
  obtain ⟨hverified, hwaits, hnested⟩ := hrun
  obtain ⟨root, hroot, hdigest⟩ := (Option.any_eq_true _ _).mp hverified
  exact ⟨hwaits, hnested,
    (waits_or_ready_iff device rfl ops root hroot hdigest).mp (.inl hnested)⟩

/-- The operation was not a command, or was answered with success. -/
def Succeeds (device : Device) (s : Session) : Operation → Prop
  | .command command mark chunk => (s.run device command mark chunk).1 = .ok
  | _ => True

/-- A field of the only call opens one without arguments: that call is never described, and the
session is not ready. -/
theorem never_described :
    ¬ ∀ (device : Device), device.settings.mode = .transaction →
      ∀ (ops : List Operation) (op : Operation) (root : Call),
        (after device ops).Succeeds device op →
        (after device (ops ++ [op])).review.calls.root = some root → root.isVerified = true →
        (∃ c ∈ (after device (ops ++ [op])).others, c.calldata.isSome = true) ∨
          (after device (ops ++ [op])).isReady device = true := by
  intro h
  let device := sampleDevice .transaction
  let ops := [sampleArguments, sampleInfo (Call.fieldsDigest sampleLeg).bytes]
  let op := whole .field sampleLeg
  have hrun : (after device ops).Succeeds device op ∧
      (after device (ops ++ [op])).review.calls.root.any Call.isVerified = true ∧
      ¬ ((∃ c ∈ (after device (ops ++ [op])).others, c.calldata.isSome = true) ∨
        (after device (ops ++ [op])).isReady device = true) := by
    show (run _ _ _ _ _).1 = StatusWord.ok ∧ _
    decide +kernel
  obtain ⟨hok, hverified, hstuck⟩ := hrun
  obtain ⟨root, hroot, hdigest⟩ := (Option.any_eq_true _ _).mp hverified
  exact hstuck (h device rfl ops op root hok hroot hdigest)

end ClearSign.Session
