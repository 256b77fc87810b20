import ClearSign.Proofs.Review.Shedding
import ClearSign.Proofs.Session.Run

/-!
What came for each call since all was wiped last: the fields accepted while it was current, and
its descriptors. A session that is ready has covered the fields of every call by the digest of its
last descriptor, unless that descriptor announced no fields: then the call left at once, whatever
had come for it before.
-/

namespace ClearSign.Session

open Refusal

/-- What came for one call. -/
structure CallHistory where
  /-- It was opened with arguments. -/
  arguments : Bool
  /-- The payloads of the fields accepted while it was current. -/
  fields : List Bytes
  infos : List TransactionInfo
  deriving DecidableEq

namespace CallHistory

/-- The last descriptor has the digest of all fields. -/
def Covered (m : CallHistory) : Prop :=
  ∃ info, m.infos.getLast? = some info ∧ Call.fieldsDigest m.fields.flatten = info.fieldsHash

instance (m : CallHistory) : Decidable m.Covered :=
  decidable_of_iff (m.infos.getLast?.any fun info =>
      Call.fieldsDigest m.fields.flatten == info.fieldsHash)
    (by simp [Covered, Option.any_eq_true])

/-- The last descriptor announces no fields, but fields had come. -/
def Dismissed (m : CallHistory) : Prop :=
  ∃ info, m.infos.getLast? = some info ∧ info.fieldsHash = Call.fieldsDigest [] ∧
    Call.fieldsDigest m.fields.flatten ≠ Call.fieldsDigest []

/-- One of the two ways for a call with arguments to leave. -/
def Settled (m : CallHistory) : Prop := m.arguments = true → m.Covered ∨ m.Dismissed

theorem covered_iff_of_settled {m : CallHistory} (h : m.Settled) (hargs : m.arguments = true) :
    m.Covered ↔ ¬ m.Dismissed := by
  constructor
  · rintro ⟨info, hinfo, hdigest⟩ ⟨info', hinfo', hempty, hfields⟩
    rw [hinfo] at hinfo'
    cases hinfo'
    exact hfields (hdigest.trans hempty)
  · intro hnot
    exact (h hargs).resolve_right hnot

end CallHistory

/-- The calls of a run, and which of them have a slot now. -/
structure History where
  /-- Calls whose slots have started over. -/
  past : List CallHistory
  /-- One for each slot. -/
  present : List CallHistory
  deriving DecidableEq

namespace History

def empty : History := ⟨[], []⟩

def calls (h : History) : List CallHistory := h.past ++ h.present

/-- The slots start over. -/
def restarted (h : History) : History := ⟨h.calls, []⟩

/-- Calls open behind all others, with arguments or without. -/
def opened (arguments : List Bool) (h : History) : History :=
  { h with present := h.present ++ arguments.map fun a => ⟨a, [], []⟩ }

def withField (slot : Nat) (payload : Bytes) (h : History) : History :=
  { h with present := h.present.modify slot fun m => { m with fields := m.fields ++ [payload] } }

def withInfo (slot : Nat) (info : TransactionInfo) (h : History) : History :=
  { h with present := h.present.modify slot fun m => { m with infos := m.infos ++ [info] } }

/-- A field goes to the current call and opens calls of its own. -/
def takeField (device : Device) (s : Session) (payload : Bytes) (h : History) : History :=
  match Field.parse payload, s.review.calls.current, s.review.calls.absorb payload with
  | .ok field, some slot, .ok absorbed =>
    match field.opens ⟨device.toHost, s.cache, absorbed.currentCall⟩ with
    | .ok new => (h.withField slot payload).opened (new.map fun c => c.calldata.isSome)
    | .error _ => h
  | _, _, _ => h

/-- A descriptor goes to the call that it selects, or to the one that is opened for it. -/
def takeInfo (device : Device) (s : Session) (payload : Bytes) (h : History) : History :=
  match TransactionInfo.parse s.selectorCheck device.verifier payload with
  | .ok info =>
    if s.review.calls.count = 0 then
      (h.restarted.opened [s.parked.isSome]).withInfo 0 info
    else
      match s.review.calls.select s.cache info.contract info.selector info.chain with
      | .ok selected => (selected.current.elim h fun slot => h.withInfo slot info)
      | .error _ => h
  | .error _ => h

def take (device : Device) (s : Session) (payload : Bytes) (h : History) : Command → History
  | .field => h.takeField device s payload
  | .transactionInfo => h.takeInfo device s payload
  | .proxyBinding | .enumLabel => h

/-- The history after one more operation on a session. A command that fails wipes all. -/
def next (device : Device) (s : Session) (h : History) : Operation → History
  | .begin t =>
    if ((begin device t).exec s).1.toBool then
      h.restarted.opened [(t.calldata.or s.parked).isSome]
    else h
  | .command command mark chunk =>
    if (s.run device command mark chunk).1 = .ok then
      (s.completed device mark chunk).elim h fun payload => h.take device s payload command
    else empty
  | .cleanup => empty
  | .park _ | .append _ | .roll => h

end History

/-- A run, with what came for its calls. -/
def recorded (device : Device) (ops : List Operation) : Session × History :=
  noted device (fun s h op => h.next device s op) History.empty ops

/-- What came for the calls of a run since all was wiped last. -/
def history (device : Device) (ops : List Operation) : History := (recorded device ops).2

/-- What came for a complete call is covered. -/
theorem CallHistory.covered_of_verified {m : CallHistory} {c : Call} (h : c.isVerified = true)
    (hfields : m.fields.flatten = c.absorbed) (hinfos : m.infos.getLast? = c.info) :
    m.Covered := by
  unfold Call.isVerified at h
  cases hinfo : c.info with
  | none => simp [hinfo] at h
  | some info =>
    simp only [hinfo, beq_iff_eq] at h
    exact ⟨info, by rw [hinfos, hinfo], by rw [hfields, h]⟩

/-- A history is that of the calls in a stack: a live call holds what its history says, and a call
that left was settled. -/
structure Faithful (s : CallStack) (h : History) : Prop where
  length : h.present.length = s.slots.length
  live : ∀ slot c, s.call? slot = some c → ∃ m, h.present[slot]? = some m ∧
    m.arguments = c.calldata.isSome ∧ m.fields.flatten = c.absorbed ∧ m.infos.getLast? = c.info
  left : ∀ slot m, h.present[slot]? = some m → s.call? slot = none → m.Settled
  past : ∀ m ∈ h.past, m.Settled

namespace Faithful

open CallStack

variable {s t : CallStack} {h : History}

/-- Where no call is live, every call of the history was settled. -/
theorem settled_of_none (hf : Faithful s h) (hnone : s.count = 0) :
    ∀ m ∈ h.calls, m.Settled := by
  intro m hm
  rcases List.mem_append.mp hm with hm | hm
  · exact hf.past m hm
  · obtain ⟨slot, hslot, hget⟩ := List.getElem_of_mem hm
    refine hf.left slot m (by rw [List.getElem?_eq_getElem hslot, hget]) ?_
    cases hcall : s.call? slot with
    | none => rfl
    | some c => exact absurd (List.length_eq_zero_iff.mp hnone) (live_ne_nil hcall)

theorem empty_slots (hslots : s.slots = []) (hpast : ∀ m ∈ h.past, m.Settled)
    (hpresent : h.present = []) : Faithful s h := by
  have hcall : ∀ slot, s.call? slot = none := by
    intro slot
    unfold call?
    rw [hslots]
    rfl
  refine ⟨by rw [hslots, hpresent]; rfl, ?_, ?_, hpast⟩
  · intro slot c hc
    rw [hcall] at hc
    cases hc
  · intro slot m hm
    rw [hpresent] at hm
    cases hm

/-- The first call after all others have left. -/
theorem restarted (hf : Faithful s h) (hnone : s.count = 0) {c : Call} (hfresh : IsFresh c)
    (hslots : t.slots = [some c]) :
    Faithful t (h.restarted.opened [c.calldata.isSome]) := by
  refine ⟨by rw [hslots]; rfl, ?_, ?_, hf.settled_of_none hnone⟩
  · intro slot d hd
    obtain ⟨rfl, rfl⟩ := eq_of_single hslots hd
    exact ⟨⟨c.calldata.isSome, [], []⟩, rfl, rfl, hfresh.2.symm, hfresh.1.symm⟩
  · intro slot m hm hd
    unfold call? at hd
    rw [hslots] at hd
    cases slot with
    | zero => cases hd
    | succ slot => cases hm

theorem sheds (hf : Faithful s h) (hst : Sheds s t) : Faithful t h := by
  refine ⟨hf.length.trans hst.length.symm, ?_, ?_, hf.past⟩
  · intro slot c hc
    rcases hst.kept slot with hkept | ⟨hgone, -⟩
    · exact hf.live slot c (by rw [← hkept, hc])
    · rw [hgone] at hc
      cases hc
  · intro slot m hm hc
    rcases hst.kept slot with hkept | ⟨-, hmay⟩
    · exact hf.left slot m hm (by rw [← hkept, hc])
    · cases hcall : s.call? slot with
      | none => exact hf.left slot m hm hcall
      | some c =>
        obtain ⟨m', hm', hargs, hfields, hinfos⟩ := hf.live slot c hcall
        rw [hm] at hm'
        cases hm'
        intro harguments
        rcases hmay c hcall with hnone | hverified
        · rw [hargs, hnone] at harguments
          cases harguments
        · exact .inl (CallHistory.covered_of_verified hverified hfields hinfos)

/-- One call changes, and its history with it. -/
theorem modifyAt (hf : Faithful s h) {slot : Nat} {c : Call} (hcall : s.call? slot = some c)
    (f : Call → Call) (g : CallHistory → CallHistory)
    (hfg : ∀ m : CallHistory, m.arguments = c.calldata.isSome → m.fields.flatten = c.absorbed →
      m.infos.getLast? = c.info → (g m).arguments = (f c).calldata.isSome ∧
        (g m).fields.flatten = (f c).absorbed ∧ (g m).infos.getLast? = (f c).info) :
    Faithful (s.modifyAt slot f) { h with present := h.present.modify slot g } := by
  refine ⟨?_, ?_, ?_, hf.past⟩
  · show (h.present.modify slot g).length = (s.slots.modify slot _).length
    rw [List.length_modify, List.length_modify, hf.length]
  · intro i d hd
    rw [call?_modifyAt] at hd
    by_cases hi : i = slot
    · subst hi
      rw [if_pos rfl, hcall, Option.map_some, Option.some.injEq] at hd
      subst hd
      obtain ⟨m, hm, hargs, hfields, hinfos⟩ := hf.live i c hcall
      refine ⟨g m, ?_, hfg m hargs hfields hinfos⟩
      rw [List.getElem?_modify, hm]
      simp
    · rw [if_neg hi] at hd
      obtain ⟨m, hm, hrest⟩ := hf.live i d hd
      refine ⟨m, ?_, hrest⟩
      rw [List.getElem?_modify, hm]
      simp [Ne.symm hi]
  · intro i m hm hd
    rw [call?_modifyAt] at hd
    by_cases hi : i = slot
    · subst hi
      rw [if_pos rfl, hcall] at hd
      cases hd
    · rw [if_neg hi] at hd
      refine hf.left i m ?_ hd
      rw [List.getElem?_modify] at hm
      simpa [Ne.symm hi] using hm

theorem of_slots (hf : Faithful s h) (hslots : t.slots = s.slots) : Faithful t h := by
  have hcall := call?_congr hslots
  refine ⟨by rw [hslots, hf.length], ?_, ?_, hf.past⟩
  · intro slot c hc
    exact hf.live slot c (by rw [← hcall, hc])
  · intro slot m hm hc
    exact hf.left slot m hm (by rw [← hcall, hc])

theorem grows (hf : Faithful s h) {new : List NewCall} {opened : List Call}
    (hg : Field.Grows new s t opened) :
    Faithful t (h.opened (new.map fun c => c.calldata.isSome)) := by
  have hpresent : (h.opened (new.map fun c => c.calldata.isSome)).present =
      h.present ++ opened.map fun c => ⟨c.calldata.isSome, [], []⟩ := by
    have hflags := congrArg (List.map fun o => (⟨o.isSome, [], []⟩ : CallHistory)) hg.calldata
    rw [List.map_map, List.map_map] at hflags
    show h.present ++ _ = _
    rw [List.map_map]
    exact congrArg (h.present ++ ·) hflags.symm
  refine ⟨?_, ?_, ?_, hf.past⟩
  · rw [hpresent, hg.slots, List.length_append, List.length_append, List.length_map,
      List.length_map, hf.length]
  · intro slot c hc
    rw [hg.call?] at hc
    rw [hpresent, List.getElem?_append, hf.length]
    by_cases hold : slot < s.slots.length
    · rw [if_pos hold] at hc ⊢
      exact hf.live slot c hc
    · rw [if_neg hold] at hc ⊢
      have hfresh := hg.fresh c (List.mem_of_getElem? hc)
      rw [List.getElem?_map, hc]
      exact ⟨_, rfl, rfl, hfresh.2.symm, hfresh.1.symm⟩
  · intro slot m hm hc
    rw [hg.call?] at hc
    rw [hpresent, List.getElem?_append, hf.length] at hm
    by_cases hold : slot < s.slots.length
    · rw [if_pos hold] at hc hm
      exact hf.left slot m hm hc
    · rw [if_neg hold] at hc hm
      rw [List.getElem?_map, hc] at hm
      cases hm

theorem popped (hf : Faithful s h) {slot : Nat} (hslot : s.current = some slot)
    (hsettled : ∀ m, h.present[slot]? = some m → m.Settled) : Faithful s.popped h := by
  refine ⟨hf.length.trans (length_popped s).symm, ?_, ?_, hf.past⟩
  · intro i c hc
    rw [call?_popped hslot] at hc
    split at hc
    · cases hc
    · exact hf.live i c hc
  · intro i m hm hc
    rw [call?_popped hslot] at hc
    by_cases hi : i = slot
    · subst hi
      exact hsettled m hm
    · rw [if_neg hi] at hc
      exact hf.left i m hm hc

/-- A descriptor without fields settles its call, whatever had come for it. -/
theorem attached (hf : Faithful s h) {mode : SigningMode} {info : TransactionInfo}
    (ht : s.attached mode info = .ok t) :
    ∃ slot, s.current = some slot ∧ Faithful t (h.withInfo slot info) := by
  unfold CallStack.attached at ht
  obtain ⟨s', hmodify, ht⟩ := bind_eq_ok.mp ht
  obtain ⟨slot, c, hslot, hcall, rfl⟩ := modifyCurrent_eq_ok hmodify
  have hf' : Faithful (s.modifyAt slot (Call.withInfo info))
      (h.withInfo slot info) := by
    apply hf.modifyAt hcall
    intro m hargs hfields _
    exact ⟨hargs, hfields, by simp [Call.withInfo]⟩
  refine ⟨slot, hslot, ?_⟩
  split at ht
  · rename_i hleaves
    rw [eq_popped_of_pop ht]
    apply hf'.popped hslot
    intro m hm _
    obtain ⟨m', -, rfl⟩ : ∃ m', h.present[slot]? = some m' ∧
        { m' with infos := m'.infos ++ [info] } = m := by
      have hm' : (h.present.modify slot _)[slot]? = some m := hm
      rw [List.getElem?_modify] at hm'
      simpa using hm'
    by_cases hfields : Call.fieldsDigest m'.fields.flatten = Call.fieldsDigest []
    · exact .inl ⟨info, by simp, hfields.trans hleaves.2.symm⟩
    · exact .inr ⟨info, by simp, hleaves.2, hfields⟩
  · cases ht
    exact hf'

end Faithful

open CallStack in
theorem faithful_takeField {device : Device} {payload : Bytes} {s s' : Session} {h : History}
    (hf : Faithful s.review.calls h) (hs : (handleField device payload).exec s = (.ok (), s')) :
    Faithful s'.review.calls (h.takeField device s payload) := by
  obtain ⟨field, slot, c, new, opened, grown, hparse, hslot, hcall, hopens, hgrows, hcalls⟩ :=
    handleField_answers hs
  have habsorb := absorb_eq hslot hcall payload
  have hcurrent := currentCall_modifyAt hslot hcall (Call.withField payload)
  have htake : h.takeField device s payload =
      (h.withField slot payload).opened (new.map fun c => c.calldata.isSome) := by
    unfold History.takeField
    simp only [hparse, hslot, habsorb, hcurrent, hopens]
  have habsorbed : Faithful (s.review.calls.modifyAt slot (Call.withField payload))
      (h.withField slot payload) := by
    apply hf.modifyAt hcall
    intro m hargs hfields hinfos
    exact ⟨hargs, by simp [hfields, Call.withField], hinfos⟩
  rw [htake, hcalls]
  exact (habsorbed.grows hgrows).sheds (sheds_settled _ _)

open CallStack in
theorem faithful_takeInfo {device : Device} {payload : Bytes} {s s' : Session} {h : History}
    (hf : Faithful s.review.calls h) (hs : (handleInfo device payload).exec s = (.ok (), s')) :
    Faithful s'.review.calls (h.takeInfo device s payload) := by
  obtain ⟨info, calls, selected, hparse, hoffers, hselect, hattach⟩ := handleInfo_answers hs
  obtain ⟨hslots, slot, c', hslot, hcall, -⟩ := select_eq_ok hselect
  have hflush : selected.flushedBefore.current = some slot :=
    (current_leaveAll _).trans hslot
  rcases hoffers with ⟨hsome, rfl⟩ | ⟨hnone, c, hfresh, hdata, hroot, -⟩
  · have hf' := (hf.of_slots hslots).sheds (sheds_flushedBefore selected)
    obtain ⟨slot', hslot', hattached⟩ := hf'.attached hattach
    obtain rfl : slot = slot' := Option.some.inj (hflush.symm.trans hslot')
    unfold History.takeInfo
    simpa only [hparse, if_neg hsome, hselect, hslot, Option.elim_some] using hattached
  · have hf' := ((hf.restarted hnone hfresh hroot).of_slots hslots).sheds
      (sheds_flushedBefore selected)
    obtain ⟨slot', hslot', hattached⟩ := hf'.attached hattach
    obtain rfl : slot = slot' := Option.some.inj (hflush.symm.trans hslot')
    obtain rfl : slot = 0 := by
      have hplace := mem_places.mpr ⟨c', hcall⟩
      simpa [places, call?, hroot, List.range_succ] using hplace
    unfold History.takeInfo
    simpa only [hparse, if_pos hnone, ← hdata] using hattached

/-- One operation keeps the history that of the calls. -/
theorem faithful_step (device : Device) (op : Operation) {s : Session} {h : History}
    (hf : Faithful s.review.calls h) :
    Faithful (s.step device op).review.calls (h.next device s op) := by
  cases op with
  | begin t =>
    unfold step History.next
    rcases hexec : (begin device t).exec s with ⟨e | ⟨⟩, s'⟩
    · have hsame := begin_refused hexec
      simpa [hexec, Except.toBool, hsame] using hf
    · obtain ⟨hnone, c, hfresh, hdata, hslots, -⟩ := begin_answers hexec
      simpa [hexec, Except.toBool, ← hdata] using hf.restarted hnone hfresh hslots
  | park data => exact hf
  | append bs =>
    show Faithful ((append bs).exec s).2.review.calls h
    rcases append_review bs s with hsame | ⟨slot, c, old, data, -, hcall, hdata, -, hchange⟩
    · rwa [hsame]
    · rw [hchange]
      have hf' := hf.modifyAt hcall (fun c => { c with calldata := some data }) id
        fun m hargs hfields hinfos => ⟨by simp [hargs, hdata], hfields, hinfos⟩
      simpa using hf'
  | command command mark chunk =>
    show Faithful (s.run device command mark chunk).2.review.calls
      (if (s.run device command mark chunk).1 = .ok then _ else _)
    rcases run_cases device command mark chunk s with ⟨hrefused, challenge, hwiped⟩ |
      ⟨hok, hwaits, r, hs'⟩ | ⟨hok, hallowed, payload, r, hcompleted, hhandle⟩
    · rw [if_neg hrefused, hwiped]
      exact .empty_slots rfl (by simp [History.empty]) rfl
    · rw [if_pos hok, hwaits, hs']
      exact hf
    · rw [if_pos hok, hcompleted]
      cases command with
      | field => exact faithful_takeField (s := { s with reassembly := r }) hf hhandle
      | transactionInfo => exact faithful_takeInfo (s := { s with reassembly := r }) hf hhandle
      | proxyBinding =>
        rw [handle_keeps_review (by simp) (by simp) hhandle]
        exact hf
      | enumLabel =>
        rw [handle_keeps_review (by simp) (by simp) hhandle]
        exact hf
  | roll => exact hf
  | cleanup => exact .empty_slots rfl (by simp [History.next, History.empty]) rfl

/-- The history of a run is that of the calls it holds. -/
theorem faithful_run (device : Device) (ops : List Operation) :
    Faithful (after device ops).review.calls (history device ops) := by
  apply noted_keeps fun s h => Faithful s.review.calls h
  · exact .empty_slots rfl (by simp [History.empty]) rfl
  · intro s h op hf
    exact faithful_step device op hf

/-- Where one call is live and current and complete, every other one has left. -/
theorem settled_of_alone {s : CallStack} {h : History} (hf : Faithful s h) (hcount : s.count = 1)
    (hroot : s.isRoot = true) (hverified : s.isVerified = true) : ∀ m ∈ h.calls, m.Settled := by
  intro m hm
  rcases List.mem_append.mp hm with hm | hm
  · exact hf.past m hm
  · obtain ⟨slot, hslot, hget⟩ := List.getElem_of_mem hm
    have hm : h.present[slot]? = some m := by rw [List.getElem?_eq_getElem hslot, hget]
    cases hcall : s.call? slot with
    | none => exact hf.left slot m hm hcall
    | some c =>
      have hplace := CallStack.mem_places.mpr ⟨c, hcall⟩
      obtain ⟨only, honly⟩ := List.length_eq_one_iff.mp (s.length_places.trans hcount)
      rw [honly, List.mem_singleton] at hplace
      subst hplace
      have hcurrent : s.current = some slot := by
        have := (Bool.and_eq_true_iff.mp hroot).2
        rwa [honly, List.head?_cons, beq_iff_eq] at this
      unfold CallStack.isVerified CallStack.currentCall at hverified
      rw [hcurrent, Option.bind_some, hcall, Option.any_some] at hverified
      obtain ⟨m', hm', -, hfields, hinfos⟩ := hf.live slot c hcall
      rw [hm] at hm'
      cases hm'
      intro _
      exact .inl (CallHistory.covered_of_verified hverified hfields hinfos)

/-- A session that is ready has covered the fields of every call that was opened with arguments,
but for those that a descriptor without fields sent away after fields had come. -/
theorem ready_covered_iff (device : Device) (ops : List Operation)
    (hready : (after device ops).isReady device = true) :
    ∀ m ∈ (history device ops).calls, m.arguments = true → (m.Covered ↔ ¬ m.Dismissed) := by
  intro m hm hargs
  refine CallHistory.covered_iff_of_settled ?_ hargs
  have hf := faithful_run device ops
  unfold isReady at hready
  split at hready
  · obtain ⟨halone, hverified⟩ := Bool.and_eq_true_iff.mp hready
    obtain ⟨hcount, hroot⟩ := Bool.and_eq_true_iff.mp halone
    exact settled_of_alone hf (beq_iff_eq.mp hcount) hroot hverified m hm
  · obtain ⟨hcount, -⟩ := Bool.and_eq_true_iff.mp hready
    exact hf.settled_of_none (beq_iff_eq.mp hcount) m hm

/-- A call is announced with one digest, gets a field, and may be announced again. -/
def sampleHistory (digest : Bytes) (again : List Operation) : List Operation :=
  [sampleArguments, sampleInfo digest, whole .field sampleField] ++ again

/-- A call that is announced with the digest of its one field. -/
theorem ready_covered_iff_one_field :
    let ops := sampleHistory (Call.fieldsDigest sampleField).bytes []
    (after (sampleDevice .transaction) ops).isReady (sampleDevice .transaction) = true ∧
      ∀ m ∈ (history (sampleDevice .transaction) ops).calls,
        m.arguments = true → (m.Covered ↔ ¬ m.Dismissed) := by
  intro ops
  have hready : (after (sampleDevice .transaction) ops).isReady (sampleDevice .transaction) =
      true := by decide +kernel
  exact ⟨hready, ready_covered_iff _ _ hready⟩

/-- A field of which no digest was checked, and a second descriptor that announces none: the
session is ready though nothing covers the field. -/
theorem ready_uncovered :
    ¬ ∀ (device : Device) (ops : List Operation), (after device ops).isReady device = true →
      ∀ m ∈ (history device ops).calls, m.arguments = true → m.Covered := by
  intro h
  let device := sampleDevice .typedData
  let ops := sampleHistory [] [sampleInfo (Call.fieldsDigest []).bytes]
  have hrun : (recorded device ops).1.isReady device = true ∧
      ¬ ∀ m ∈ (recorded device ops).2.calls, m.arguments = true → m.Covered := by decide +kernel
  obtain ⟨hready, huncovered⟩ := hrun
  rw [recorded, noted_session] at hready
  exact huncovered (h device ops hready)

end ClearSign.Session
