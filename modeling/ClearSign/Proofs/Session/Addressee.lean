import ClearSign.Proofs.Session.Attachment

/-!
Which call a descriptor goes to. Of the live calls that it is about it goes to the first, whether
or not that call holds one already, and no other call is touched. So a call that waits for a
descriptor gets it just if no call before it is one that the descriptor is about.
-/

namespace ClearSign

namespace CallStack

variable {s t : CallStack} {cache : Cache} {info : TransactionInfo}

/-- A live call that a descriptor is about. -/
structure Concerns (s : CallStack) (cache : Cache) (info : TransactionInfo) (slot : Nat)
    (c : Call) : Prop where
  call : s.call? slot = some c
  answers : c.answers cache info.contract info.selector info.chain = true

/-- A live call that a descriptor is about, and that holds none yet. -/
structure Awaits (s : CallStack) (cache : Cache) (info : TransactionInfo) (slot : Nat)
    (c : Call) : Prop extends s.Concerns cache info slot c where
  waiting : c.info = none

/-- The first of the live calls that a descriptor is about. -/
structure Heads (s : CallStack) (cache : Cache) (info : TransactionInfo) (slot : Nat)
    (c : Call) : Prop extends s.Concerns cache info slot c where
  first : ∀ i d, s.Concerns cache info i d → slot ≤ i

/-- The calls in all slots but one hold the descriptors that they held. -/
def Leaves (s t : CallStack) (slot : Nat) : Prop :=
  ∀ i d, i ≠ slot → s.call? i = some d → d.info.isSome = true →
    ∃ d', t.call? i = some d' ∧ d'.info = d.info

/-- The calls in all slots but one that hold a descriptor or have arguments stay as they are. -/
def Spares (s t : CallStack) (slot : Nat) : Prop :=
  ∀ i d, i ≠ slot → s.call? i = some d → d.info.isSome = true ∨ d.calldata.isSome = true →
    t.call? i = some d

theorem Spares.leaves {slot : Nat} (h : s.Spares t slot) : s.Leaves t slot :=
  fun i d hi hd hinfo => ⟨d, h i d hi hd (.inl hinfo), rfl⟩

theorem Concerns.calldata {slot : Nat} {c : Call} (h : s.Concerns cache info slot c) :
    c.calldata.isSome = true :=
  isSome_of_answers h.answers

/-- Flushing before the current call takes no call with arguments away. -/
theorem call?_flushedBefore {slot : Nat} {c : Call} (hcall : s.call? slot = some c)
    (hdata : c.calldata.isSome = true) : s.flushedBefore.call? slot = some c := by
  apply (call?_leaveAll_of_notMem ?_).trans hcall
  intro hmem
  rw [calldata_of_mem_emptyRun hmem c hcall] at hdata
  cases hdata

/-- A descriptor is given to the first call that it is about, and no other call with arguments is
touched. -/
theorem given_head {mode : SigningMode} {selected : CallStack}
    (hselect : s.select cache info.contract info.selector info.chain = .ok selected)
    (hattach : selected.flushedBefore.attached mode info = .ok t) :
    ∃ slot c, s.Heads cache info slot c ∧ t.Given info slot c ∧
      ∀ i d, i ≠ slot → s.call? i = some d → d.calldata.isSome = true → t.call? i = some d := by
  obtain ⟨hslots, slot, c, hcurrent, hcall, hanswers⟩ := select_eq_ok hselect
  have hstays {i : Nat} {d : Call} (hd : s.call? i = some d) (hdata : d.calldata.isSome = true) :
      selected.flushedBefore.call? i = some d :=
    call?_flushedBefore ((call?_congr hslots i).trans hd) hdata
  obtain ⟨slot', c', hcurrent', hcall', hgiven, hothers⟩ := attached_call? hattach
  obtain rfl : slot = slot' :=
    Option.some.inj (hcurrent.symm.trans ((current_leaveAll _).symm.trans hcurrent'))
  obtain rfl : c = c' :=
    Option.some.inj ((hstays hcall (isSome_of_answers hanswers)).symm.trans hcall')
  refine ⟨slot, c, ⟨⟨hcall, hanswers⟩, ?_⟩, hgiven, ?_⟩
  · intro i d hd
    exact le_of_select hselect hcurrent hd.call hd.answers
  · intro i d hi hd hdata
    rw [hothers i hi, hstays hd hdata]

/-- A call that stays as it is and holds no descriptor was not given one. -/
theorem not_given_of_call? {slot : Nat} {c : Call} (hcall : t.call? slot = some c)
    (hnone : c.info = none) : ¬ t.Given info slot c := by
  rintro (hheld | ⟨hgone, -⟩)
  · have hinfo := congrArg Call.info (Option.some.inj (hcall.symm.trans hheld))
    rw [hnone] at hinfo
    cases hinfo
  · rw [hcall] at hgone
    cases hgone

/-- What is given to the head of the calls that a descriptor is about is given to a call that
waits just if the head is one. -/
theorem Heads.given_waiting_iff {slot : Nat} {c : Call} (h : s.Heads cache info slot c)
    (hgiven : t.Given info slot c) (hspares : s.Spares t slot) :
    (∃ i d, s.Awaits cache info i d ∧ t.Given info i d ∧ s.Leaves t i) ↔ c.info = none := by
  constructor
  · rintro ⟨i, d, hawaits, hgot, -⟩
    by_cases hi : i = slot
    · subst hi
      obtain rfl : c = d := Option.some.inj (h.call.symm.trans hawaits.call)
      exact hawaits.waiting
    · have hkept := hspares i d hi hawaits.call (.inr hawaits.calldata)
      exact absurd hgot (not_given_of_call? hkept hawaits.waiting)
  · intro hnone
    exact ⟨slot, c, ⟨h.toConcerns, hnone⟩, hgiven, hspares.leaves⟩

end CallStack

namespace Session

open CallStack

/-- A payload that came whole, and whose command was answered with success, was handled. -/
theorem handleInfo_of_accepted {device : Device} {s : Session} {mark : UInt8}
    {chunk payload : Bytes} (hcompleted : s.completed device mark chunk = some payload)
    (haccepted : (s.run device .transactionInfo mark chunk).1 = .ok) :
    ∃ r, (handleInfo device payload).exec { s with reassembly := r } =
      (.ok (), s.step device (.command .transactionInfo mark chunk)) := by
  rcases run_cases device .transactionInfo mark chunk s with ⟨hrefused, -⟩ | ⟨-, hnone, -⟩ |
    ⟨-, -, payload', r, hcompleted', hhandle⟩
  · exact absurd haccepted hrefused
  · rw [hcompleted] at hnone
    cases hnone
  · obtain rfl : payload = payload' := Option.some.inj (hcompleted.symm.trans hcompleted')
    exact ⟨r, hhandle⟩

/-- A live call that holds a descriptor has arguments. -/
theorem calldata_of_info (device : Device) (ops : List Operation) {slot : Nat} {c : Call}
    (hcall : (after device ops).review.calls.call? slot = some c)
    (hinfo : c.info.isSome = true) : c.calldata.isSome = true := by
  obtain ⟨info, hinfo⟩ := Option.isSome_iff_exists.mp hinfo
  obtain ⟨_, _, _, _, -, -, hattaches, -⟩ := attached_run device ops hcall hinfo
  obtain ⟨data, hdata, -⟩ := Call.selector?_eq_some.mp hattaches.selector
  rw [hdata]
  rfl

/-- A descriptor that is accepted while there are calls goes to the first call that it is about,
and every other call that holds a descriptor or has arguments stays as it is. So it is given to a
call that waits for one, with the descriptors of all other calls left in place, just if the first
call that it is about holds none; else the one that this call holds is replaced. -/
theorem given_to_waiting_iff (device : Device) (ops : List Operation) (mark : UInt8)
    (chunk payload : Bytes) (hlive : (after device ops).review.calls.count ≠ 0)
    (hcompleted : (after device ops).completed device mark chunk = some payload)
    (haccepted : ((after device ops).run device .transactionInfo mark chunk).1 = .ok) :
    let s := after device ops
    let t := after device (ops ++ [.command .transactionInfo mark chunk])
    ∃ info slot c, TransactionInfo.parse s.selectorCheck device.verifier payload = .ok info ∧
      s.review.calls.Heads s.cache info slot c ∧ t.review.calls.Given info slot c ∧
      s.review.calls.Spares t.review.calls slot ∧
      ((∃ i d, s.review.calls.Awaits s.cache info i d ∧ t.review.calls.Given info i d ∧
          s.review.calls.Leaves t.review.calls i) ↔ c.info = none) := by
  intro s t
  obtain ⟨r, hhandle⟩ := handleInfo_of_accepted hcompleted haccepted
  obtain ⟨info, calls, selected, hparse, hoffers, hselect, hattach⟩ := handleInfo_answers hhandle
  rcases hoffers with ⟨-, rfl⟩ | ⟨hnone, -⟩
  · obtain ⟨slot, c, hheads, hgiven, hothers⟩ := given_head hselect hattach
    have ht : t = s.step device (.command .transactionInfo mark chunk) := after_concat device ops _
    rw [← ht] at hgiven hothers
    have hspares : s.review.calls.Spares t.review.calls slot := by
      intro i d hi hd hholds
      exact hothers i d hi hd (hholds.elim (calldata_of_info device ops hd) id)
    exact ⟨info, slot, c, hparse, hheads, hgiven, hspares, hheads.given_waiting_iff hgiven hspares⟩
  · exact absurd hnone hlive

/-- A call that calls its own function again. -/
def sampleSelfCall : List Operation :=
  [sampleBegin, sampleInfo (Call.fieldsDigest (sampleCall 7)).bytes,
   whole .field (sampleCall 7)]

/-- A descriptor for the call that is opened, which shows no field. -/
def sampleSecond : Bytes := sampleDescriptor 7 (Call.fieldsDigest []).bytes [98]

/-- The chunk that brings it. -/
def sampleSecondChunk : Bytes := Bytes.ofNat 2 sampleSecond.length ++ sampleSecond

/-- The descriptor is accepted; it is about both calls, of which the second waits for one, and
that call is afterwards as it was. -/
theorem self_call_run :
    let device := sampleDevice .transaction
    let s := after device sampleSelfCall
    let t := after device (sampleSelfCall ++
      [.command .transactionInfo Reassembly.firstMark sampleSecondChunk])
    s.review.calls.count ≠ 0 ∧
      s.completed device Reassembly.firstMark sampleSecondChunk = some sampleSecond ∧
      (s.run device .transactionInfo Reassembly.firstMark sampleSecondChunk).1 = .ok ∧
      ∃ info root nested,
        TransactionInfo.parse s.selectorCheck device.verifier sampleSecond = .ok info ∧
        s.review.calls.slots.length = 2 ∧ s.review.calls.Concerns s.cache info 0 root ∧
        root.info.isSome = true ∧ s.review.calls.Awaits s.cache info 1 nested ∧
        t.review.calls.call? 1 = some nested := by
  intro device s t
  have hrun : s.review.calls.slots.length = 2 ∧
      s.completed device Reassembly.firstMark sampleSecondChunk = some sampleSecond ∧
      (s.run device .transactionInfo Reassembly.firstMark sampleSecondChunk).1 = .ok ∧
      t.review.calls.call? 1 = s.review.calls.call? 1 ∧
      ((TransactionInfo.parse s.selectorCheck device.verifier sampleSecond).toOption.any
        fun info => (s.review.calls.call? 0).any fun root => (s.review.calls.call? 1).any
          fun nested =>
            (root.answers s.cache info.contract info.selector info.chain && root.info.isSome) &&
              (nested.answers s.cache info.contract info.selector info.chain &&
                nested.info.isNone)) = true := by
    show _ ∧ _ ∧ (run _ _ _ _ _).1 = StatusWord.ok ∧ _
    decide +kernel
  clear_value s t
  obtain ⟨hlength, hcompleted, haccepted, hkept, hcalls⟩ := hrun
  cases hparse : TransactionInfo.parse s.selectorCheck device.verifier sampleSecond with
  | error e =>
    rw [hparse] at hcalls
    cases hcalls
  | ok info =>
    rw [hparse] at hcalls
    obtain ⟨_, ⟨⟩, hcalls⟩ := (Option.any_eq_true _ _).mp hcalls
    obtain ⟨root, hroot, hcalls⟩ := (Option.any_eq_true _ _).mp hcalls
    obtain ⟨nested, hnested, hcalls⟩ := (Option.any_eq_true _ _).mp hcalls
    simp only [Bool.and_eq_true, Option.isNone_iff_eq_none] at hcalls
    obtain ⟨⟨hanswers, hdescribed⟩, hanswers', hwaiting⟩ := hcalls
    have hlive : s.review.calls.count ≠ 0 :=
      fun hnone => live_ne_nil hroot (List.length_eq_zero_iff.mp hnone)
    exact ⟨hlive, hcompleted, haccepted, info, root, nested, rfl, hlength, ⟨hroot, hanswers⟩,
      hdescribed, ⟨⟨hnested, hanswers'⟩, hwaiting⟩, hkept.trans hnested⟩

/-- The first call gets the descriptor though it holds one, and no call that waits gets it. -/
theorem given_to_waiting_iff_self_call :
    let device := sampleDevice .transaction
    let s := after device sampleSelfCall
    let t := after device (sampleSelfCall ++
      [.command .transactionInfo Reassembly.firstMark sampleSecondChunk])
    ∃ info slot c, s.review.calls.Heads s.cache info slot c ∧
      t.review.calls.Given info slot c ∧ c.info.isSome = true ∧
      ¬ ∃ i d, s.review.calls.Awaits s.cache info i d ∧ t.review.calls.Given info i d ∧
        s.review.calls.Leaves t.review.calls i := by
  intro device s t
  obtain ⟨hlive, hcompleted, haccepted, info, root, nested, hparse, -, hroot, hdescribed, -⟩ :=
    self_call_run
  obtain ⟨info', slot, c, hparse', hheads, hgiven, -, hiff⟩ :=
    given_to_waiting_iff device sampleSelfCall Reassembly.firstMark sampleSecondChunk sampleSecond
      hlive hcompleted haccepted
  obtain rfl : info = info' := Except.ok.inj (hparse.symm.trans hparse')
  obtain rfl : slot = 0 := Nat.le_zero.mp (hheads.first 0 root hroot)
  obtain rfl : root = c := Option.some.inj (hroot.call.symm.trans hheads.call)
  refine ⟨info, 0, root, hheads, hgiven, hdescribed, ?_⟩
  intro hgranted
  rw [hiff.mp hgranted] at hdescribed
  cases hdescribed

/-- A call that calls its own function again: the descriptor for the second call is given to the
first, which loses its own, and the second still waits. -/
theorem passed_over :
    ¬ ∀ (device : Device) (ops : List Operation) (mark : UInt8) (chunk payload : Bytes),
      (after device ops).review.calls.count ≠ 0 →
      (after device ops).completed device mark chunk = some payload →
      ((after device ops).run device .transactionInfo mark chunk).1 = .ok →
      let s := after device ops
      let t := after device (ops ++ [.command .transactionInfo mark chunk])
      ∃ info, TransactionInfo.parse s.selectorCheck device.verifier payload = .ok info ∧
        ((∃ i d, s.review.calls.Awaits s.cache info i d) →
          ∃ i d, s.review.calls.Awaits s.cache info i d ∧ t.review.calls.Given info i d ∧
            s.review.calls.Leaves t.review.calls i) := by
  intro h
  obtain ⟨hlive, hcompleted, haccepted, info, root, nested, hparse, hlength, hroot, hdescribed,
    hnested, hkept⟩ := self_call_run
  obtain ⟨info', hparse', hgranted⟩ := h (sampleDevice .transaction) sampleSelfCall
    Reassembly.firstMark sampleSecondChunk sampleSecond hlive hcompleted haccepted
  obtain rfl : info = info' := Except.ok.inj (hparse.symm.trans hparse')
  obtain ⟨i, d, hawaits, hgiven, -⟩ := hgranted ⟨1, nested, hnested⟩
  have hi := lt_length hawaits.call
  rw [hlength] at hi
  obtain rfl | rfl : i = 0 ∨ i = 1 := by omega
  · obtain rfl : root = d := Option.some.inj (hroot.call.symm.trans hawaits.call)
    rw [hawaits.waiting] at hdescribed
    cases hdescribed
  · obtain rfl : nested = d := Option.some.inj (hnested.call.symm.trans hawaits.call)
    exact not_given_of_call? hkept hawaits.waiting hgiven

end Session

end ClearSign
