import ClearSign.Proofs.Field.NestedCalls
import ClearSign.Proofs.Review.Shedding
import ClearSign.Proofs.Session.Run

/-!
Who sends a call that names no sender. It is opened behind all others and takes the sender over
from the last of them, which need not be the call that it is part of: where calls with a sender of
their own still wait, it comes from that sender.
-/

namespace ClearSign

open Refusal

namespace CallStack

variable {s t : CallStack} {last : Call}

/-- Calls that take over their senders are all sent by the last call before them. -/
theorem Opens.sent_by_last {registry : Registry} {opened : Nat → Address × ChainId → Call → Prop}
    {calls : List Call} (h : Opens registry opened calls s t)
    (hlast : s.live.getLast?.map Call.sender = some last.sender)
    (hinherits : ∀ i from_ c, opened i from_ c → c.sender = from_.1) :
    ∀ c ∈ calls, c.sender = last.sender := by
  have hsent : ∀ (i : Nat) (c : Call), calls[i]? = some c → c.sender = last.sender := by
    intro i
    induction i with
    | zero =>
      intro c hc
      obtain ⟨from_, horigin, hopened⟩ := h.each 0 c hc
      obtain ⟨before, hbefore, hsender⟩ := Option.map_eq_some_iff.mp hlast
      rw [List.take_zero, List.append_nil, origin, hbefore] at horigin
      cases horigin
      exact (hinherits 0 _ c hopened).trans hsender
    | succ i ih =>
      intro c hc
      obtain ⟨from_, horigin, hopened⟩ := h.each (i + 1) c hc
      have hi : i < calls.length :=
        Nat.lt_of_succ_lt (List.getElem?_eq_some_iff.mp hc).choose
      -- the call opened right before this one is the last
      rw [List.take_succ_eq_append_getElem hi, ← List.append_assoc, origin,
        List.getLast?_concat] at horigin
      cases horigin
      exact (hinherits (i + 1) _ c hopened).trans (ih _ (List.getElem?_eq_getElem hi))
  intro c hc
  obtain ⟨i, hi⟩ := List.mem_iff_getElem?.mp hc
  exact hsent i c hi

end CallStack

namespace Session

open CallStack

variable {device : Device} {s : Session} {payload : Bytes} {c : Call} {new : List Call}

/-- A payload is a field that opens calls and names no sender for them. It is formatted to its end
for the current call, and these are the calls that it opens, behind all others. -/
inductive OpensUnnamed (device : Device) (s : Session) (payload : Bytes) : Call → List Call → Prop
  | formatted {field : Field} {p : Param.NestedCall} {slot : Nat} {c : Call} {r : Review}
    {new : List Call} (hparse : Field.parse payload = .ok field)
    (hparam : field.param = .calldata p) (hspender : p.spender = none)
    (hslot : s.review.calls.current = some slot) (hcall : s.review.calls.call? slot = some c)
    (hformat : (field.format device.toHost s.cache).exec
      ⟨s.review.calls.modifyAt slot (Call.withField payload), s.review.table⟩ = (.ok (), r))
    (hslots : r.calls.slots =
      (s.review.calls.modifyAt slot (Call.withField payload)).slots ++ new.map some) :
    OpensUnnamed device s payload c new

theorem OpensUnnamed.sent_by_last (h : OpensUnnamed device s payload c new) :
    ∃ last, s.review.calls.live.getLast? = some last ∧ ∀ d ∈ new, d.sender = last.sender := by
  obtain @⟨field, p, slot, c, r, new, -, hparam, hspender, -, hcall, hformat, hslots⟩ := h
  obtain ⟨last, hlast⟩ := Option.ne_none_iff_exists'.mp
    (List.getLast?_eq_none_iff.not.mpr (live_ne_nil hcall))
  obtain ⟨blobs, opened, -, -, hopens, -, -, -⟩ := Field.opened_of_format hparam hformat
  have hsenders := live_modifyAt s.review.calls slot (Call.withField payload) Call.sender
    fun _ => rfl
  have hnew : new = opened := by
    have hlive := hopens.live
    rw [live, hslots, List.filterMap_append] at hlive
    have hsame := List.append_cancel_left hlive
    simpa using hsame
  refine ⟨last, hlast, hnew ▸ hopens.sent_by_last ?_ ?_⟩
  · rw [← List.getLast?_map, hsenders, List.getLast?_map, hlast, Option.map_some]
  · rintro i from_ d ⟨blob, -, hdescribes⟩
    have hsender := hdescribes.sender
    rw [hspender] at hsender
    exact hsender

/-- A field that completes its payload and is answered well opens its calls; of the calls behind
those that were there, none is another. -/
theorem opensUnnamed_of_run {mark : UInt8} {chunk : Bytes} {field : Field} {p : Param.NestedCall}
    (hpayload : s.completed device mark chunk = some payload)
    (hrun : (s.run device .field mark chunk).1 = .ok) (hparse : Field.parse payload = .ok field)
    (hparam : field.param = .calldata p) (hspender : p.spender = none) :
    ∃ c new, OpensUnnamed device s payload c new ∧
      ∀ slot d, s.review.calls.slots.length ≤ slot →
        (s.run device .field mark chunk).2.review.calls.call? slot = some d → d ∈ new := by
  rcases run_cases device .field mark chunk s with ⟨hrefused, -⟩ | ⟨-, hwaits, -⟩ |
    ⟨-, -, payload', r, hcompleted, hhandle⟩
  · exact absurd hrun hrefused
  · rw [hpayload] at hwaits
    cases hwaits
  · obtain rfl : payload = payload' := Option.some.inj (hpayload.symm.trans hcompleted)
    obtain ⟨field', slot, c, asked, new, -, formatted, hparse', hslot, hcall, -, hformat, hgrows,
      -, hsettle⟩ := handleField_stages hhandle
    obtain rfl : field' = field := Except.ok.inj (hparse'.symm.trans hparse)
    refine ⟨c, new, .formatted hparse hparam hspender hslot hcall hformat hgrows.slots, ?_⟩
    intro i d hi hd
    rw [Review.settle_calls hsettle] at hd
    rcases (sheds_settled _ formatted.calls).kept i with hkept | ⟨hgone, -⟩
    · have hbehind :
          ¬ i < (s.review.calls.modifyAt slot (Call.withField payload)).slots.length := by
        unfold modifyAt
        rw [List.length_modify]
        exact Nat.not_lt.mpr hi
      rw [hkept, hgrows.call?, if_neg hbehind] at hd
      exact List.mem_of_getElem? hd
    · rw [hgone] at hd
      cases hd

/-- The calls of a field that names no sender are sent by the last call that is live when the field
comes. They are sent by the current call's sender just if the last call is, too. -/
theorem sent_by_last_live (device : Device) (ops : List Operation) (mark : UInt8)
    (chunk payload : Bytes) (field : Field) (p : Param.NestedCall) :
    let s := after device ops
    s.completed device mark chunk = some payload → (s.run device .field mark chunk).1 = .ok →
    Field.parse payload = .ok field → field.param = .calldata p → p.spender = none →
    ∃ c last new, OpensUnnamed device s payload c new ∧
      s.review.calls.live.getLast? = some last ∧ (∀ d ∈ new, d.sender = last.sender) ∧
      ((∀ d ∈ new, d.sender = c.sender) ↔ new = [] ∨ last.sender = c.sender) ∧
      ∀ slot d, s.review.calls.slots.length ≤ slot →
        (s.run device .field mark chunk).2.review.calls.call? slot = some d → d ∈ new := by
  intro s hpayload hrun hparse hparam hspender
  obtain ⟨c, new, hopens, hbehind⟩ :=
    opensUnnamed_of_run hpayload hrun hparse hparam hspender
  obtain ⟨last, hlast, hsent⟩ := hopens.sent_by_last
  refine ⟨c, last, new, hopens, hlast, hsent, ?_, hbehind⟩
  constructor
  · intro hall
    cases new with
    | nil => exact .inl rfl
    | cons d new =>
      exact .inr ((hsent d List.mem_cons_self).symm.trans (hall d List.mem_cons_self))
  · rintro (rfl | hsame) d hd
    · cases hd
    · exact (hsent d hd).trans hsame

section

open Tlv

/-- A field that opens a call of a function without arguments, sent by another address. -/
def sampleSent (callee spender : UInt8) : Bytes :=
  write 0 [1] ++ write 1 [97] ++ write 2 [9] ++
    write 3 (write 0 [1] ++ write 1 (sampleValue 7 [1, 2, 3, 4]) ++
      write 2 (sampleValue 5 [callee]) ++ write 6 (sampleValue 5 [spender]))

/-- A call with a descriptor, and a call that it makes for another sender. -/
def sampleSibling : List Operation :=
  [sampleBegin, sampleInfo [], whole .field (sampleSent 8 33)]

end

/-- A field that names no sender, whole in one chunk. -/
theorem sampleSibling_field :
    let device := sampleDevice .transaction
    let s := after device sampleSibling
    let chunk := Bytes.ofNat 2 (sampleCall 9).length ++ sampleCall 9
    s.completed device Reassembly.firstMark chunk = some (sampleCall 9) ∧
      (s.run device .field Reassembly.firstMark chunk).1 = .ok ∧
      ∃ field p, Field.parse (sampleCall 9) = .ok field ∧ field.param = .calldata p ∧
        p.spender = none := by
  intro device s chunk
  have hparse : (Field.parse (sampleCall 9)).toOption = some
      ⟨1, "a", .calldata ⟨1, ⟨1, .bytes, none, .constant [1, 2, 3, 4]⟩,
        ⟨1, .address, none, .constant [9]⟩, none, none, none, none⟩, .always, []⟩ := by
    decide +kernel
  exact ⟨by decide +kernel, by decide +kernel, _, _, toOption_eq_some.mp hparse, rfl, rfl⟩

/-- The first call makes another one, with the other sender's call still waiting: it comes from the
other sender. -/
theorem sent_by_last_live_sibling :
    let device := sampleDevice .transaction
    let s := after device sampleSibling
    let chunk := Bytes.ofNat 2 (sampleCall 9).length ++ sampleCall 9
    s.review.calls.currentCall.map Call.sender = some (Fixed.zero 20) ∧
      ∃ d, (s.run device .field Reassembly.firstMark chunk).2.review.calls.call? 2 = some d ∧
        d.sender = Fixed.align 20 [33] := by
  intro device s chunk
  refine ⟨by decide +kernel, ?_⟩
  obtain ⟨hpayload, hrun, field, p, hparse, hparam, hspender⟩ := sampleSibling_field
  obtain ⟨c, last, new, -, hlast, hsent, -, hbehind⟩ := sent_by_last_live device sampleSibling
    Reassembly.firstMark chunk (sampleCall 9) field p hpayload hrun hparse hparam hspender
  have hopened : ((s.run device .field Reassembly.firstMark chunk).2.review.calls.call? 2).isSome =
      true := by decide +kernel
  have hsender : s.review.calls.live.getLast?.map Call.sender = some (Fixed.align 20 [33]) := by
    decide +kernel
  obtain ⟨d, hd⟩ := Option.isSome_iff_exists.mp hopened
  rw [hlast, Option.map_some, Option.some.injEq] at hsender
  have hslots : s.review.calls.slots.length ≤ 2 := by decide +kernel
  exact ⟨d, hd, (hsent d (hbehind 2 d hslots hd)).trans hsender⟩

/-- A call that names no sender need not be sent by the sender of the call that makes it. -/
theorem not_sent_by_current : ¬ ∀ (device : Device) (ops : List Operation) (mark : UInt8)
    (chunk payload : Bytes) (c : Call) (new : List Call),
    (after device ops).completed device mark chunk = some payload →
    ((after device ops).run device .field mark chunk).1 = .ok →
    OpensUnnamed device (after device ops) payload c new → ∀ d ∈ new, d.sender = c.sender := by
  intro hall
  let device := sampleDevice .transaction
  let s := after device sampleSibling
  let chunk := Bytes.ofNat 2 (sampleCall 9).length ++ sampleCall 9
  obtain ⟨hpayload, hrun, field, p, hparse, hparam, hspender⟩ := sampleSibling_field
  obtain ⟨c, new, hopens, hbehind⟩ := opensUnnamed_of_run hpayload hrun hparse hparam hspender
  obtain ⟨last, hlast, hsent⟩ := hopens.sent_by_last
  have hopened : ((s.run device .field Reassembly.firstMark chunk).2.review.calls.call? 2).isSome =
      true := by decide +kernel
  obtain ⟨d, hd⟩ := Option.isSome_iff_exists.mp hopened
  have hslots : s.review.calls.slots.length ≤ 2 := by decide +kernel
  have hnew := hbehind 2 d hslots hd
  have hcurrent := hall _ _ _ _ _ _ _ hpayload hrun hopens d hnew
  have hsenders : s.review.calls.currentCall.map Call.sender ≠
      s.review.calls.live.getLast?.map Call.sender := by decide +kernel
  obtain ⟨-, -, -, hslot, hcall, -, -⟩ := hopens
  apply hsenders
  unfold CallStack.currentCall
  rw [hlast, hslot, Option.bind_some, hcall, Option.map_some, Option.map_some, ← hcurrent,
    hsent d hnew]

end Session

end ClearSign
