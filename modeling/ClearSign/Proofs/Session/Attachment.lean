import ClearSign.Proofs.Descriptor.SignedBytes
import ClearSign.Proofs.Review.Shedding
import ClearSign.Proofs.Session.Run
import Mathlib.Data.List.Induction

/-!
Which call a descriptor is held by. A live call with a descriptor has all of its arguments, is for
the function and on the chain that the descriptor names, and got it from a payload that was
verified, at a time when the contract named was the one behind the target of the call. Nothing
that happens later changes this.
-/

namespace ClearSign

/-- More arguments leave a complete call complete, and for the function that it was for. -/
theorem Calldata.selector?_append {data data' : Calldata} {bs : Bytes} {selector : Selector}
    (h : data.append bs = .ok data') (hs : data.selector? = .ok selector) :
    data'.selector? = .ok selector := by
  unfold Calldata.append at h
  unfold Calldata.selector? Calldata.isComplete at hs
  split at h
  · rename_i hfits
    cases h
    split at hs
    · rename_i hcomplete
      have hall : data.received = data.expected := by simpa using hcomplete
      have hcomplete' : data.received + bs.length = data.expected := by omega
      unfold Calldata.selector? Calldata.isComplete
      simpa [hcomplete'] using hs
    · cases hs
  · cases h

namespace Call

theorem selector?_eq_some {c : Call} {selector : Selector} :
    c.selector? = some selector ↔
      ∃ data, c.calldata = some data ∧ data.isComplete = true ∧ data.selector = selector := by
  unfold selector? Calldata.selector?
  cases c.calldata with
  | none => simp
  | some data => cases hcomplete : data.isComplete <;> simp [hcomplete, Except.toOption]

/-- A call as it may be later on: from where and to where it goes, what it sends and its chain
stay, and so does its function once all arguments are there. -/
structure Becomes (c c' : Call) : Prop where
  sender : c'.sender = c.sender
  target : c'.target = c.target
  amount : c'.amount = c.amount
  chain : c'.chain = c.chain
  arguments : c'.calldata.isSome = c.calldata.isSome
  selector : ∀ selector, c.selector? = some selector → c'.selector? = some selector

namespace Becomes

variable {c c' c'' : Call}

theorem refl (c : Call) : c.Becomes c := ⟨rfl, rfl, rfl, rfl, rfl, fun _ h => h⟩

theorem trans (h : c.Becomes c') (h' : c'.Becomes c'') : c.Becomes c'' where
  sender := h'.sender.trans h.sender
  target := h'.target.trans h.target
  amount := h'.amount.trans h.amount
  chain := h'.chain.trans h.chain
  arguments := h'.arguments.trans h.arguments
  selector s hs := h'.selector s (h.selector s hs)

theorem destination (h : c.Becomes c') : c'.destination = c.destination := by
  unfold Call.destination
  rw [h.target]

theorem withField (payload : Bytes) (c : Call) : c.Becomes (c.withField payload) :=
  ⟨rfl, rfl, rfl, rfl, rfl, fun _ h => h⟩

theorem withInfo (info : TransactionInfo) (c : Call) : c.Becomes (c.withInfo info) :=
  ⟨rfl, rfl, rfl, rfl, rfl, fun _ h => h⟩

theorem append {data data' : Calldata} {bs : Bytes} (hc : c.calldata = some data)
    (h : data.append bs = .ok data') : c.Becomes { c with calldata := some data' } := by
  refine ⟨rfl, rfl, rfl, rfl, by rw [hc]; rfl, ?_⟩
  intro selector hs
  unfold Call.selector? at hs ⊢
  rw [hc, Option.bind_some] at hs
  have hselector := Refusal.toOption_eq_some.mp hs
  rw [Option.bind_some, Calldata.selector?_append h hselector]
  rfl

end Becomes

end Call

namespace CallStack

variable {s t u : CallStack}

/-- Every call is new or was there before, in the same slot and with the same descriptor. -/
def Carries (s t : CallStack) : Prop :=
  ∀ slot c', t.call? slot = some c' → c'.info = none ∨
    ∃ c, s.call? slot = some c ∧ c.info = c'.info ∧ c.Becomes c'

theorem Carries.trans (hst : Carries s t) (htu : Carries t u) : Carries s u := by
  intro slot c'' hc''
  rcases htu slot c'' hc'' with hnone | ⟨c', hc', hinfo', hbecomes'⟩
  · exact .inl hnone
  · rcases hst slot c' hc' with hnone | ⟨c, hc, hinfo, hbecomes⟩
    · exact .inl (hinfo'.symm.trans hnone)
    · exact .inr ⟨c, hc, hinfo.trans hinfo', hbecomes.trans hbecomes'⟩

/-- A carried call that holds a descriptor held it before. -/
theorem Carries.exists_call (h : Carries s t) {slot : Nat} {c' : Call} {info : TransactionInfo}
    (hc' : t.call? slot = some c') (hinfo : c'.info = some info) :
    ∃ c, s.call? slot = some c ∧ c.info = some info ∧ c.Becomes c' := by
  rcases h slot c' hc' with hnone | ⟨c, hc, hsame, hbecomes⟩
  · rw [hnone] at hinfo
    cases hinfo
  · exact ⟨c, hc, hsame.trans hinfo, hbecomes⟩

theorem carries_of_call? (h : ∀ slot, t.call? slot = s.call? slot) : Carries s t :=
  fun slot c hc => .inr ⟨c, by rw [← h, hc], rfl, .refl c⟩

theorem Sheds.carries (h : Sheds s t) : Carries s t := by
  intro slot c hc
  rcases h.kept slot with hkept | ⟨hgone, -⟩
  · exact .inr ⟨c, by rw [← hkept, hc], rfl, .refl c⟩
  · rw [hgone] at hc
    cases hc

theorem carries_modifyAt {slot : Nat} {f : Call → Call}
    (hf : ∀ c, s.call? slot = some c → (f c).info = c.info ∧ c.Becomes (f c)) :
    Carries s (s.modifyAt slot f) := by
  intro i c' hc'
  rcases call?_modifyAt_cases hc' with ⟨rfl, c, hc, rfl⟩ | ⟨-, hc⟩
  · obtain ⟨hinfo, hbecomes⟩ := hf c hc
    exact .inr ⟨c, hc, hinfo.symm, hbecomes⟩
  · exact .inr ⟨c', hc, rfl, .refl c'⟩

theorem carries_grows {new : List NewCall} {opened : List Call} (h : Field.Grows new s t opened) :
    Carries s t := by
  intro slot c hc
  rw [h.call?] at hc
  split at hc
  · exact .inr ⟨c, hc, rfl, .refl c⟩
  · exact .inl (h.fresh c (List.mem_of_getElem? hc)).1

theorem carries_fresh {c : Call} (hfresh : IsFresh c) (hslots : t.slots = [some c]) :
    Carries s t := by
  intro slot d hd
  obtain ⟨-, rfl⟩ := eq_of_single hslots hd
  exact .inl hfresh.1

/-- The call in a slot has got a descriptor: it holds it, or has left at once as no field is
announced. -/
def Given (t : CallStack) (info : TransactionInfo) (slot : Nat) (c : Call) : Prop :=
  t.call? slot = some (c.withInfo info) ∨
    t.call? slot = none ∧ info.fieldsHash = Call.fieldsDigest []

/-- A descriptor goes to the current call, and no other call is touched. -/
theorem attached_call? {mode : SigningMode} {info : TransactionInfo}
    (h : s.attached mode info = .ok t) : ∃ slot c, s.current = some slot ∧
      s.call? slot = some c ∧ t.Given info slot c ∧ ∀ i, i ≠ slot → t.call? i = s.call? i := by
  unfold attached at h
  obtain ⟨s', hmodify, h⟩ := Refusal.bind_eq_ok.mp h
  obtain ⟨slot, c, hslot, hcall, rfl⟩ := modifyCurrent_eq_ok hmodify
  refine ⟨slot, c, hslot, hcall, ?_⟩
  split at h
  · rename_i hleaves
    have hslot' : (s.modifyAt slot (Call.withInfo info)).current = some slot := hslot
    rw [eq_popped_of_pop h]
    refine ⟨.inr ⟨?_, hleaves.2⟩, ?_⟩
    · rw [call?_popped hslot', if_pos rfl]
    · intro i hi
      rw [call?_popped hslot', if_neg hi, call?_modifyAt, if_neg hi]
  · cases h
    refine ⟨.inl ?_, ?_⟩
    · rw [call?_modifyAt, if_pos rfl, hcall]
      rfl
    · intro i hi
      rw [call?_modifyAt, if_neg hi]

/-- A descriptor goes to the current call; all other calls are carried. -/
theorem attached_cases {mode : SigningMode} {info : TransactionInfo}
    (h : s.attached mode info = .ok t) {slot : Nat} {c' : Call} (hc' : t.call? slot = some c') :
    s.call? slot = some c' ∨
      ∃ c, s.current = some slot ∧ s.call? slot = some c ∧ c' = c.withInfo info := by
  obtain ⟨current, c, hslot, hcall, hgiven, hothers⟩ := attached_call? h
  by_cases hi : slot = current
  · subst hi
    rcases hgiven with hheld | ⟨hgone, -⟩
    · exact .inr ⟨c, hslot, hcall, Option.some.inj (hc'.symm.trans hheld)⟩
    · rw [hgone] at hc'
      cases hc'
  · rw [hothers slot hi] at hc'
    exact .inl hc'

end CallStack

namespace Session

open CallStack

/-- A payload that is handled whole gives a call its descriptor. -/
structure Attaches (device : Device) (s : Session) (payload : Bytes) (info : TransactionInfo)
    (c : Call) : Prop where
  parsed : TransactionInfo.parse s.selectorCheck device.verifier payload = .ok info
  resolved : s.cache.resolve c.chain c.destination info.selector = info.contract
  selector : c.selector? = some info.selector
  chain : c.chain = info.chain

theorem Attaches.becomes {device : Device} {s : Session} {payload : Bytes}
    {info : TransactionInfo} {c c' : Call} (h : s.Attaches device payload info c)
    (hc : c.Becomes c') : s.Attaches device payload info c' where
  parsed := h.parsed
  resolved := by rw [hc.chain, hc.destination, h.resolved]
  selector := hc.selector _ h.selector
  chain := hc.chain.trans h.chain

theorem carries_field {device : Device} {payload : Bytes} {s s' : Session}
    (h : (handleField device payload).exec s = (.ok (), s')) :
    Carries s.review.calls s'.review.calls := by
  obtain ⟨field, slot, c, new, opened, grown, -, -, -, -, hgrows, hcalls⟩ :=
    handleField_answers h
  rw [hcalls]
  have habsorbed : Carries s.review.calls
      (s.review.calls.modifyAt slot (Call.withField payload)) :=
    carries_modifyAt fun c _ => ⟨rfl, .withField payload c⟩
  exact (habsorbed.trans (carries_grows hgrows)).trans (sheds_settled _ _).carries

theorem carries_begin (device : Device) (t : Transaction) (s : Session) :
    Carries s.review.calls ((begin device t).exec s).2.review.calls := by
  rcases hexec : (begin device t).exec s with ⟨e | ⟨⟩, s'⟩
  · rw [begin_refused hexec]
    exact carries_of_call? fun _ => rfl
  · obtain ⟨-, c, hfresh, -, hslots, -⟩ := begin_answers hexec
    exact carries_fresh hfresh hslots

theorem carries_append (bs : Bytes) (s : Session) :
    Carries s.review.calls ((append bs).exec s).2.review.calls := by
  rcases append_review bs s with hsame | ⟨slot, c, data, data', -, hcall, hdata, happend, hchange⟩
  · rw [hsame]
    exact carries_of_call? fun _ => rfl
  · rw [hchange]
    apply carries_modifyAt
    intro d hd
    obtain rfl : c = d := Option.some.inj (hcall.symm.trans hd)
    exact ⟨rfl, .append hdata happend⟩

/-- After a descriptor has been handled, each call with a descriptor had it before, or got it
now. -/
theorem info_cases {device : Device} {payload : Bytes} {s s' : Session}
    (h : (handleInfo device payload).exec s = (.ok (), s')) {slot : Nat} {c' : Call}
    {info : TransactionInfo} (hc' : s'.review.calls.call? slot = some c')
    (hinfo : c'.info = some info) :
    (∃ c, s.review.calls.call? slot = some c ∧ c.info = some info ∧ c.Becomes c') ∨
      s.Attaches device payload info c' := by
  obtain ⟨info', calls, selected, hparse, hoffers, hselect, hattach⟩ := handleInfo_answers h
  obtain ⟨hslots, current, d, hcurrent, hcall, hanswers⟩ := select_eq_ok hselect
  have hoffered : Carries s.review.calls calls := by
    rcases hoffers with ⟨-, rfl⟩ | ⟨-, first, hfresh, -, hfirst, -⟩
    · exact carries_of_call? fun _ => rfl
    · exact carries_fresh hfresh hfirst
  have hselected := call?_congr hslots
  have hflushed : Carries s.review.calls selected.flushedBefore :=
    (hoffered.trans (carries_of_call? hselected)).trans (sheds_flushedBefore selected).carries
  rcases attached_cases hattach hc' with hkept | ⟨c, hslot, hc, rfl⟩
  · exact .inl (hflushed.exists_call hkept hinfo)
  · right
    obtain rfl : info' = info := Option.some.inj hinfo
    have hslot' : selected.flushedBefore.current = some current :=
      (current_leaveAll _).trans hcurrent
    obtain rfl : current = slot := Option.some.inj (hslot'.symm.trans hslot)
    obtain rfl : d = c := by
      rcases (sheds_flushedBefore selected).kept current with hkept | ⟨hgone, -⟩
      · rw [hkept, hselected, hcall] at hc
        exact Option.some.inj hc
      · rw [hgone] at hc
        cases hc
    unfold Call.answers at hanswers
    simp only [Bool.and_eq_true, beq_iff_eq] at hanswers
    obtain ⟨⟨hresolve, hselector⟩, hchain⟩ := hanswers
    refine ⟨hparse, ?_, hselector, hchain⟩
    rw [← hresolve, ← hchain]
    rfl

/-- After one operation, each call with a descriptor had it before, or the operation was the last
chunk of a payload that gave it. -/
theorem step_cases {device : Device} {s : Session} {op : Operation} {slot : Nat} {c' : Call}
    {info : TransactionInfo} (hc' : (s.step device op).review.calls.call? slot = some c')
    (hinfo : c'.info = some info) :
    (∃ c, s.review.calls.call? slot = some c ∧ c.info = some info ∧ c.Becomes c') ∨
      ∃ mark chunk payload, op = .command .transactionInfo mark chunk ∧
        s.completed device mark chunk = some payload ∧ s.Attaches device payload info c' := by
  have of_carries (h : Carries s.review.calls (s.step device op).review.calls) :=
    h.exists_call hc' hinfo
  have of_review (h : (s.step device op).review.calls = s.review.calls) :=
    of_carries (carries_of_call? fun i => by rw [h])
  cases op with
  | begin t => exact .inl (of_carries (carries_begin device t s))
  | park data => exact .inl (of_review rfl)
  | append bs => exact .inl (of_carries (carries_append bs s))
  | command command mark chunk =>
    have hstep : s.step device (.command command mark chunk) =
        (s.run device command mark chunk).2 := rfl
    rcases run_cases device command mark chunk s with ⟨-, challenge, hwiped⟩ |
      ⟨-, -, r, hs'⟩ | ⟨-, -, payload, r, hcompleted, hhandle⟩
    · rw [hstep, hwiped] at hc'
      cases hc'
    · exact .inl (of_review (by rw [hstep, hs']))
    · rw [← hstep] at hhandle
      cases command with
      | field => exact .inl (of_carries (carries_field (s := { s with reassembly := r }) hhandle))
      | transactionInfo =>
        rcases info_cases (s := { s with reassembly := r }) hhandle hc' hinfo with hold | hnew
        · exact .inl hold
        · exact .inr ⟨mark, chunk, payload, rfl, hcompleted,
            ⟨hnew.parsed, hnew.resolved, hnew.selector, hnew.chain⟩⟩
      | proxyBinding =>
        left
        apply of_review
        rw [handle_keeps_review (by simp) (by simp) hhandle]
      | enumLabel =>
        left
        apply of_review
        rw [handle_keeps_review (by simp) (by simp) hhandle]
  | roll => exact .inl (of_review rfl)
  | cleanup => cases hc'

/-- The call in a slot got its descriptor by one operation of a run, and has held it since. -/
def Attached (device : Device) (ops : List Operation) (slot : Nat) (c : Call)
    (info : TransactionInfo) : Prop :=
  ∃ i mark chunk payload, ops[i]? = some (Operation.command .transactionInfo mark chunk) ∧
    (after device (ops.take i)).completed device mark chunk = some payload ∧
    (after device (ops.take i)).Attaches device payload info c ∧
    ∀ n, i < n → n ≤ ops.length → ∃ d,
      (after device (ops.take n)).review.calls.call? slot = some d ∧ d.info = some info ∧
        d.Becomes c

/-- A call that still holds its descriptor after one more operation has held it since. -/
theorem Attached.concat {device : Device} {ops : List Operation} {op : Operation} {slot : Nat}
    {c c' : Call} {info : TransactionInfo} (h : Attached device ops slot c info)
    (hbecomes : c.Becomes c')
    (hcall : (after device (ops ++ [op])).review.calls.call? slot = some c')
    (hinfo : c'.info = some info) : Attached device (ops ++ [op]) slot c' info := by
  obtain ⟨i, mark, chunk, payload, hop, hcompleted, hattaches, hsince⟩ := h
  have hi : i < ops.length := (List.getElem?_eq_some_iff.mp hop).1
  have hbefore : (ops ++ [op]).take i = ops.take i :=
    List.take_append_of_le_length (Nat.le_of_lt hi)
  refine ⟨i, mark, chunk, payload, ?_, ?_, ?_, ?_⟩
  · rw [List.getElem?_append_left hi, hop]
  · rw [hbefore, hcompleted]
  · rw [hbefore]
    exact hattaches.becomes hbecomes
  · intro n hin hn
    rcases take_concat hn with ⟨hold, htake⟩ | ⟨-, htake⟩
    · rw [htake]
      obtain ⟨d, hd, hdinfo, hdbecomes⟩ := hsince n hin hold
      exact ⟨d, hd, hdinfo, hdbecomes.trans hbecomes⟩
    · rw [htake]
      exact ⟨c', hcall, hinfo, .refl c'⟩

/-- A call that gets its descriptor by the last operation of a run holds it at its end. -/
theorem attached_concat {device : Device} {ops : List Operation} {mark : UInt8} {chunk : Bytes}
    {payload : Bytes} {slot : Nat} {c : Call} {info : TransactionInfo}
    (hcompleted : (after device ops).completed device mark chunk = some payload)
    (hattaches : (after device ops).Attaches device payload info c)
    (hcall : (after device
      (ops ++ [.command .transactionInfo mark chunk])).review.calls.call? slot = some c)
    (hinfo : c.info = some info) :
    Attached device (ops ++ [.command .transactionInfo mark chunk]) slot c info := by
  refine ⟨ops.length, mark, chunk, payload, by simp, ?_, ?_, ?_⟩
  · rw [List.take_left, hcompleted]
  · rw [List.take_left]
    exact hattaches
  · intro n hin hn
    rcases take_concat hn with ⟨hold, -⟩ | ⟨-, htake⟩
    · omega
    · rw [htake]
      exact ⟨c, hcall, hinfo, .refl c⟩

/-- Every descriptor that a live call holds after a run was attached to it in the run. -/
theorem attached_run (device : Device) (ops : List Operation) {slot : Nat} {c : Call}
    {info : TransactionInfo} (hcall : (after device ops).review.calls.call? slot = some c)
    (hinfo : c.info = some info) : Attached device ops slot c info := by
  induction ops using List.reverseRecOn generalizing c with
  | nil => cases hcall
  | append_singleton ops op ih =>
    have hstep := hcall
    rw [after_concat] at hstep
    rcases step_cases hstep hinfo with ⟨d, hd, hdinfo, hbecomes⟩ |
      ⟨mark, chunk, payload, rfl, hcompleted, hattaches⟩
    · exact (ih hd hdinfo).concat hbecomes hcall hinfo
    · exact attached_concat hcompleted hattaches hcall hinfo

/-- A live call that holds a descriptor has all of its arguments and is for the function and on the
chain that the descriptor names. The descriptor was read from a payload that the verifier vouched
for, when the contract that it names was the one behind the target of the call; and the call has
held it ever since. -/
theorem described_as_signed (device : Device) (ops : List Operation) (slot : Nat) (c : Call)
    (info : TransactionInfo) (hcall : (after device ops).review.calls.call? slot = some c)
    (hinfo : c.info = some info) :
    (∃ data, c.calldata = some data ∧ data.isComplete = true ∧ data.selector = info.selector) ∧
      c.chain = info.chain ∧
      ∃ i mark chunk payload, ops[i]? = some (Operation.command .transactionInfo mark chunk) ∧
        (let s := after device (ops.take i)
        s.completed device mark chunk = some payload ∧
          TransactionInfo.parse s.selectorCheck device.verifier payload = .ok info ∧
          (∃ a sig b, Envelope.Cut TransactionInfo.signatureTag payload a sig b ∧
            device.verifier .calldata (Sha256.digest (a ++ b)) info.signature = true) ∧
          s.cache.resolve c.chain c.destination info.selector = info.contract) ∧
        ∀ n, i < n → n ≤ ops.length → ∃ d,
          (after device (ops.take n)).review.calls.call? slot = some d ∧ d.info = some info ∧
            d.Becomes c := by
  obtain ⟨i, mark, chunk, payload, hop, hcompleted, hattaches, hsince⟩ :=
    attached_run device ops hcall hinfo
  exact ⟨Call.selector?_eq_some.mp hattaches.selector, hattaches.chain, i, mark, chunk, payload,
    hop, ⟨hcompleted, hattaches.parsed, TransactionInfo.verified_of_parse hattaches.parsed,
      hattaches.resolved⟩, hsince⟩

open Tlv in
/-- A call to a proxy, whose descriptor names the contract behind it. -/
def sampleProxied : List Operation :=
  [whole .proxyBinding <| write 0x01 [0x26] ++ write 0x02 [1] ++ write 0x12 [] ++
     write 0x22 [9] ++ write 0x23 [1] ++ write 0x42 [7] ++ write 0x43 [0] ++ write 0x15 [],
   .begin ⟨some (Fixed.align 20 [9]), none, 1,
     some (Calldata.empty 0 (Fixed.align 4 [1, 2, 3, 4]))⟩,
   sampleInfo [], .append []]

/-- The call to a proxy holds its descriptor, also after more arguments were brought. -/
theorem described_as_signed_proxied :
    ∃ c info, (after (sampleDevice .transaction) sampleProxied).review.calls.call? 0 = some c ∧
      c.info = some info ∧ c.destination ≠ info.contract ∧
      (∃ data, c.calldata = some data ∧ data.isComplete = true ∧ data.selector = info.selector) ∧
      c.chain = info.chain ∧
      ∃ i, (after (sampleDevice .transaction) (sampleProxied.take i)).cache.resolve c.chain
        c.destination info.selector = info.contract := by
  let device := sampleDevice .transaction
  have hheld : (((after device sampleProxied).review.calls.call? 0).any fun c =>
      c.info.any fun info => c.destination != info.contract) = true := by decide +kernel
  obtain ⟨c, hcall, hc⟩ := (Option.any_eq_true _ _).mp hheld
  obtain ⟨info, hinfo, hproxied⟩ := (Option.any_eq_true _ _).mp hc
  obtain ⟨hdata, hchain, i, _, _, _, _, ⟨-, -, -, hresolved⟩, -⟩ :=
    described_as_signed device sampleProxied 0 c info hcall hinfo
  exact ⟨c, info, hcall, hinfo, by simpa using hproxied, hdata, hchain, i, hresolved⟩

end Session

end ClearSign
