import ClearSign.Proofs.Review.Departure
import ClearSign.Session.Command

/-!
Runs of a session. The host begins transactions, brings arguments and sends commands in any order
and in chunks of any size; a command that is not answered with success leaves nothing behind, so
what a run holds was made by payloads that came whole and were handled to the end.
-/

namespace ClearSign.Session

open Refusal ClearSign.Action

/-- What the host may ask of a session. -/
inductive Operation
  | begin (t : Transaction)
  | park (data : Calldata)
  | append (bs : Bytes)
  | command (command : Command) (mark : UInt8) (chunk : Bytes)
  | roll
  | cleanup

def step (device : Device) (s : Session) : Operation → Session
  | .begin t => ((begin device t).exec s).2
  | .park data => s.park data
  | .append bs => ((append bs).exec s).2
  | .command command mark chunk => (s.run device command mark chunk).2
  | .roll => s.rollChallenge device
  | .cleanup => s.wipe

def after (device : Device) (ops : List Operation) : Session :=
  ops.foldl (step device) (start device)

theorem after_concat (device : Device) (ops : List Operation) (op : Operation) :
    after device (ops ++ [op]) = (after device ops).step device op := by
  unfold after
  rw [List.foldl_append]
  rfl

/-- The first operations of a run are those of the run without its last operation, or all. -/
theorem take_concat {ops : List Operation} {op : Operation} {n : Nat}
    (hn : n ≤ (ops ++ [op]).length) :
    (n ≤ ops.length ∧ (ops ++ [op]).take n = ops.take n) ∨
      (ops.length < n ∧ (ops ++ [op]).take n = ops ++ [op]) := by
  by_cases hold : n ≤ ops.length
  · exact .inl ⟨hold, List.take_append_of_le_length hold⟩
  · rw [List.length_append, List.length_singleton] at hn
    refine .inr ⟨Nat.lt_of_not_le hold, List.take_of_length_le ?_⟩
    rw [List.length_append, List.length_singleton]
    omega

/-- A run, with what is noted down along it. -/
def noted {α : Type} (device : Device) (note : Session → α → Operation → α) (a : α)
    (ops : List Operation) : Session × α :=
  ops.foldl (fun p op => (p.1.step device op, note p.1 p.2 op)) (start device, a)

section

variable {α : Type} {device : Device} {note : Session → α → Operation → α} {a : α}

theorem noted_session (ops : List Operation) :
    (noted device note a ops).1 = after device ops :=
  (List.foldl_hom Prod.fst fun _ _ => rfl).symm

/-- What every operation keeps between the session and the notes holds after every run. -/
theorem noted_keeps (Keeps : Session → α → Prop) (hstart : Keeps (start device) a)
    (hstep : ∀ s b op, Keeps s b → Keeps (s.step device op) (note s b op))
    (ops : List Operation) : Keeps (after device ops) (noted device note a ops).2 := by
  have hrun : ∀ (ops : List Operation) (s : Session) (b : α), Keeps s b →
      Keeps (ops.foldl (step device) s)
        (ops.foldl (fun p op => (p.1.step device op, note p.1 p.2 op)) (s, b)).2 := by
    intro ops
    induction ops with
    | nil =>
      intro s b h
      exact h
    | cons op ops ih =>
      intro s b h
      exact ih _ _ (hstep s b op h)
  exact hrun ops _ _ hstart

end

/-- The payload that a chunk completes. -/
def completed (device : Device) (mark : UInt8) (chunk : Bytes) (s : Session) : Option Bytes :=
  match s.reassembly.accept device.settings.maxPayload mark chunk with
  | .ok (payload, _) => payload
  | .error _ => none

/-- A command is refused and all is wiped, or its payload has not come whole, or its payload is
handled to the end. -/
theorem run_cases (device : Device) (command : Command) (mark : UInt8) (chunk : Bytes)
    (s : Session) :
    ((s.run device command mark chunk).1 ≠ .ok ∧
      ∃ challenge, (s.run device command mark chunk).2 = idle challenge) ∨
    ((s.run device command mark chunk).1 = .ok ∧ s.completed device mark chunk = none ∧
      ∃ r, (s.run device command mark chunk).2 = { s with reassembly := r }) ∨
    ((s.run device command mark chunk).1 = .ok ∧ s.isAllowed command = true ∧
      ∃ payload r, s.completed device mark chunk = some payload ∧
        (handle device command payload).exec { s with reassembly := r } =
          (.ok (), (s.run device command mark chunk).2)) := by
  unfold run
  by_cases hallowed : s.isAllowed command = true
  · rw [if_pos hallowed]
    split
    · rename_i s' htake
      unfold takeChunk at htake
      simp only [bind_answers, onPart_answers] at htake
      obtain ⟨payload?, _, ⟨r, hfeed, rfl⟩, htake⟩ := htake
      unfold Reassembly.feed at hfeed
      rw [exec_get_bind] at hfeed
      split at hfeed
      · rename_i payload?' r' haccept
        rw [exec_set_bind, exec_pure, Prod.mk.injEq, Except.ok.injEq] at hfeed
        obtain ⟨rfl, rfl⟩ := hfeed
        have hcompleted : s.completed device mark chunk = payload?' := by
          unfold completed
          rw [haccept]
        cases payload?' with
        | none =>
          cases htake
          exact .inr (.inl ⟨rfl, hcompleted, r', rfl⟩)
        | some payload => exact .inr (.inr ⟨rfl, hallowed, payload, r', hcompleted, htake⟩)
      · rw [exec_set_bind] at hfeed
        cases hfeed
    · rename_i e s' _
      exact .inl ⟨StatusWord.ofError_ne_ok e, s'.challenge, s'.wipe_eq_idle⟩
  · rw [if_neg hallowed]
    exact .inl ⟨StatusWord.ofError_ne_ok .commandNotAllowed, s.challenge, s.wipe_eq_idle⟩

/-- The call that a transaction is, sent from a wallet. -/
def Transaction.call (t : Transaction) (wallet : Address) : Call :=
  ⟨none, t.calldata, wallet, t.target, t.amount, t.chain, []⟩

section

variable {device : Device} {s : Session} {r : Review} {new : NewCall} {slot : Nat}

/-- A call opened where none is comes from the device, and has the first slot to itself. -/
theorem selectRoot_openCall (hnone : s.review.calls.count = 0)
    (h : (Review.openCall device.toHost new).exec s.review = (.ok slot, r)) :
    ∃ wallet, device.registry.wallet = .ok wallet ∧
      r.calls.slots = [some (new.opened (wallet, 0))] ∧
      r.calls.selectRoot = .ok { r.calls with current := some 0 } := by
  have hempty : s.review.calls.live = [] := List.length_eq_zero_iff.mp hnone
  obtain ⟨calls, hpush, rfl⟩ := Review.openCall_answers h
  obtain ⟨from_, horigin, hslots, -⟩ := CallStack.push_eq_ok hpush
  rw [hempty] at horigin hslots
  obtain ⟨wallet, hwallet, rfl⟩ := CallStack.origin_nil horigin
  simp only [List.isEmpty_nil, if_true, List.nil_append] at hslots
  have hplaces : calls.places = [0] := by
    simp [CallStack.places, CallStack.call?, hslots, List.range_succ]
  refine ⟨wallet, hwallet, hslots, ?_⟩
  unfold CallStack.selectRoot
  simp only [hplaces, List.head?_cons]

end

/-- Opening the first call leaves it alone in its slot, or changes nothing under review. -/
theorem openRoot_cases (device : Device) (t : Transaction) {s : Session}
    (hnone : s.review.calls.count = 0) :
    (∃ e s', (openRoot device t).exec s = (.error e, s') ∧ s'.review = s.review) ∨
    ∃ s', (openRoot device t).exec s = (.ok (), s') ∧ s'.cache = s.cache ∧
      (s'.review.table = s.review.table ∨ device.settings.mode = .transaction) ∧
      ∃ wallet, device.registry.wallet = .ok wallet ∧
        s'.review.calls.slots = [some (t.call wallet)] ∧ s'.review.calls.current = some 0 := by
  unfold openRoot onReview
  rw [exec_bind, exec_onPart]
  rcases hopen : (Review.openCall device.toHost
    ⟨t.calldata, none, t.target, t.amount, some t.chain⟩).exec s.review with ⟨e | slot, r⟩
  · exact .inl ⟨e, _, rfl, Review.openCall_refused hopen⟩
  · obtain ⟨wallet, hwallet, hslots, hselect⟩ := selectRoot_openCall hnone hopen
    obtain ⟨calls, -, rfl⟩ := Review.openCall_answers hopen
    right
    simp only [exec_bind, exec_onPart, Review.onCalls, exec_update, hselect]
    by_cases hmode : device.settings.mode = .transaction
    · rw [if_pos hmode]
      exact ⟨_, rfl, rfl, .inr hmode, wallet, hwallet, hslots, rfl⟩
    · rw [if_neg hmode]
      exact ⟨_, rfl, rfl, .inl rfl, wallet, hwallet, hslots, rfl⟩

/-- The only call after the first one was opened. -/
theorem openRoot_answers {device : Device} {t : Transaction} {s s' : Session}
    (hnone : s.review.calls.count = 0) (h : (openRoot device t).exec s = (.ok (), s')) :
    ∃ wallet, device.registry.wallet = .ok wallet ∧
      s'.review.calls.slots = [some (t.call wallet)] ∧ s'.review.calls.current = some 0 ∧
      s'.cache = s.cache ∧
      (s'.review.table = s.review.table ∨ device.settings.mode = .transaction) := by
  rcases openRoot_cases device t hnone with ⟨e, t, ht, -⟩ |
    ⟨t, ht, hcache, htable, wallet, hwallet, hslots, hcurrent⟩
  · rw [h] at ht
    cases ht
  · rw [h] at ht
    cases ht
    exact ⟨wallet, hwallet, hslots, hcurrent, hcache, htable⟩

/-- A transaction that is begun opens the first call, with the parked arguments if it has none of
its own. -/
theorem begin_opens {device : Device} {t : Transaction} {s s' : Session}
    (h : (begin device t).exec s = (.ok (), s')) :
    s.review.calls.count = 0 ∧ ∃ s₁, s₁.review = s.review ∧
      (openRoot device { t with calldata := t.calldata.or s.parked }).exec s₁ = (.ok (), s') := by
  unfold begin at h
  rw [exec_get_bind] at h
  by_cases hnone : s.review.calls.count = 0
  · refine ⟨hnone, ?_⟩
    simp only [hnone, ne_eq, not_true, if_false] at h
    cases hdata : t.calldata with
    | some data =>
      simp only [hdata] at h
      refine ⟨s, rfl, ?_⟩
      rw [Option.some_or, ← hdata]
      exact h
    | none =>
      simp only [hdata, unpark, bind_answers] at h
      obtain ⟨parked, _, ⟨_, _, hget, ⟨⟩, _, hset, hparked⟩, h⟩ := h
      cases hget
      cases hset
      cases hparked
      refine ⟨{ s with parked := none }, rfl, ?_⟩
      rw [Option.none_or]
      exact h
  · simp only [ne_eq, hnone, not_false_eq_true, if_true, bind_answers] at h
    obtain ⟨_, _, hthrow, -⟩ := h
    cases hthrow

/-- A transaction that is begun is the only call. -/
theorem begin_answers {device : Device} {t : Transaction} {s s' : Session}
    (h : (begin device t).exec s = (.ok (), s')) :
    s.review.calls.count = 0 ∧ ∃ c : Call, CallStack.IsFresh c ∧
      c.calldata = t.calldata.or s.parked ∧ s'.review.calls.slots = [some c] ∧
      s'.review.calls.current = some 0 ∧
      (s'.review.table = s.review.table ∨ device.settings.mode = .transaction) := by
  obtain ⟨hnone, s₁, hreview, hopen⟩ := begin_opens h
  obtain ⟨wallet, -, hslots, hcurrent, -, htable⟩ :=
    openRoot_answers (by rw [hreview, hnone]) hopen
  rw [hreview] at htable
  exact ⟨hnone, _, ⟨rfl, rfl⟩, rfl, hslots, hcurrent, htable⟩

/-- A transaction that is refused changes nothing under review. -/
theorem begin_refused {device : Device} {t : Transaction} {s s' : Session} {e : Error}
    (h : (begin device t).exec s = (.error e, s')) : s'.review = s.review := by
  have refused {t : Transaction} {s : Session} (hnone : s.review.calls.count = 0)
      (h : (openRoot device t).exec s = (.error e, s')) : s'.review = s.review := by
    rcases openRoot_cases device t hnone with ⟨e', s₁, hopen, hsame⟩ | ⟨s₁, hopen, -⟩
    · rw [h] at hopen
      cases hopen
      exact hsame
    · rw [h] at hopen
      cases hopen
  unfold begin at h
  rw [exec_get_bind] at h
  by_cases hnone : s.review.calls.count = 0
  · simp only [hnone, ne_eq, not_true, if_false] at h
    cases hdata : t.calldata with
    | some data =>
      simp only [hdata] at h
      exact refused hnone h
    | none =>
      simp only [hdata, unpark, exec_bind, exec_get, exec_modify, exec_pure] at h
      exact refused (s := { s with parked := none }) hnone h
  · simp only [ne_eq, hnone, not_false_eq_true, if_true, exec_bind, exec_throw] at h
    cases h
    rfl

/-- Arguments that are brought go to the first call, to the parked ones, or nowhere. -/
theorem append_review (bs : Bytes) (s : Session) :
    ((append bs).exec s).2.review = s.review ∨
    ∃ slot c data data', s.review.calls.places.head? = some slot ∧
      s.review.calls.call? slot = some c ∧ c.calldata = some data ∧ data.append bs = .ok data' ∧
      ((append bs).exec s).2.review =
        ⟨s.review.calls.modifyAt slot fun c => { c with calldata := some data' },
          s.review.table⟩ := by
  unfold append
  rw [exec_get_bind]
  by_cases hnone : s.review.calls.count = 0
  · left
    rw [if_pos hnone]
    cases hparked : s.parked with
    | none => rfl
    | some data =>
      simp only [exec_bind, exec_ofExcept]
      cases data.append bs <;> rfl
  · rw [if_neg hnone]
    unfold onReview Review.onCalls
    simp only [exec_onPart, exec_update]
    unfold CallStack.appendRoot
    cases hplace : s.review.calls.places.head? with
    | none =>
      left
      rfl
    | some slot =>
      cases hroot : s.review.calls.rootCalldata? with
      | none =>
        left
        rfl
      | some data =>
        cases hdata : data.append bs with
        | error e =>
          left
          simp [hdata, bind, Except.bind]
        | ok data' =>
          right
          unfold CallStack.rootCalldata? at hroot
          rw [CallStack.root_eq hplace, Option.bind_eq_some_iff] at hroot
          obtain ⟨c, hcall, hcalldata⟩ := hroot
          exact ⟨slot, c, data, data', rfl, hcall, hcalldata, hdata,
            by simp [hdata, bind, Except.bind, pure, Except.pure]⟩

/-- A field that is handled is counted for the current call and formatted, and complete calls
leave; what it opens comes behind all calls. -/
theorem handleField_stages {device : Device} {payload : Bytes} {s s' : Session}
    (h : (handleField device payload).exec s = (.ok (), s')) :
    ∃ field slot c new opened rows formatted, Field.parse payload = .ok field ∧
      s.review.calls.current = some slot ∧ s.review.calls.call? slot = some c ∧
      field.opens ⟨device.toHost, s.cache, some (c.withField payload)⟩ = .ok new ∧
      (field.format device.toHost s.cache).exec
        ⟨s.review.calls.modifyAt slot (Call.withField payload), s.review.table⟩ =
          (.ok (), formatted) ∧
      Field.Grows new (s.review.calls.modifyAt slot (Call.withField payload)) formatted.calls
        opened ∧
      formatted.table = s.review.table ++ rows ∧
      (Review.settle device.toHost).exec formatted = (.ok (), s'.review) := by
  unfold handleField onReview at h
  simp only [bind_answers, ofExcept_answers, onPart_answers, Review.onCalls_answers] at h
  obtain ⟨field, _, ⟨hparse, rfl⟩, ⟨⟩, _, ⟨_, ⟨absorbed, habsorb, rfl⟩, rfl⟩, _, _, hget, ⟨⟩, _,
    ⟨formatted, hformat, rfl⟩, settled, hsettle, rfl⟩ := h
  cases hget
  obtain ⟨slot, c, hslot, hcall, -⟩ := CallStack.modifyCurrent_eq_ok habsorb
  obtain rfl : s.review.calls.modifyAt slot (Call.withField payload) = absorbed :=
    Except.ok.inj ((CallStack.absorb_eq hslot hcall payload).symm.trans habsorb)
  have hlive : (s.review.calls.modifyAt slot (Call.withField payload)).live ≠ [] := by
    have hcall' := CallStack.call?_modifyAt s.review.calls slot (Call.withField payload) slot
    rw [if_pos rfl, hcall] at hcall'
    exact CallStack.live_ne_nil hcall'
  obtain ⟨new, opened, rows, hnew, hgrows, htable⟩ := Field.format_answers hlive hformat
  refine ⟨field, slot, c, new, opened, rows, formatted, hparse, hslot, hcall, ?_, hformat, hgrows,
    htable, hsettle⟩
  rw [← hnew, ← CallStack.currentCall_modifyAt hslot hcall]

/-- A field that is handled goes to the current call; what it opens comes behind all calls, and
the complete calls leave. -/
theorem handleField_answers {device : Device} {payload : Bytes} {s s' : Session}
    (h : (handleField device payload).exec s = (.ok (), s')) :
    ∃ field slot c new opened grown, Field.parse payload = .ok field ∧
      s.review.calls.current = some slot ∧ s.review.calls.call? slot = some c ∧
      field.opens ⟨device.toHost, s.cache, some (c.withField payload)⟩ = .ok new ∧
      Field.Grows new (s.review.calls.modifyAt slot (Call.withField payload)) grown opened ∧
      s'.review.calls = grown.settled device.settings.mode := by
  obtain ⟨field, slot, c, new, opened, -, formatted, hparse, hslot, hcall, hopens, -, hgrows, -,
    hsettle⟩ := handleField_stages h
  exact ⟨field, slot, c, new, opened, formatted.calls, hparse, hslot, hcall, hopens, hgrows,
    Review.settle_calls hsettle⟩

theorem attach_stages {device : Device} {cache : Cache} {info : TransactionInfo}
    {s s' : Session}
    (h : (onReview do
      Review.onCalls (CallStack.select cache info.contract info.selector info.chain)
      Review.flushBefore device.toHost
      Review.attach device.toHost info).exec s = (.ok (), s')) :
    ∃ selected flushed, s.review.calls.select cache info.contract info.selector info.chain =
        .ok selected ∧
      (Review.flushBefore device.toHost).exec { s.review with calls := selected } =
        (.ok (), flushed) ∧
      (Review.attach device.toHost info).exec flushed = (.ok (), s'.review) := by
  unfold onReview at h
  simp only [onPart_answers, bind_answers, Review.onCalls_answers] at h
  obtain ⟨_, ⟨⟨⟩, _, ⟨selected, hselect, rfl⟩, ⟨⟩, flushed, hflush, hattach⟩, rfl⟩ := h
  exact ⟨selected, flushed, hselect, hflush, hattach⟩

/-- The calls that a descriptor is held against: those that are there, or one for the parked
arguments. -/
def Offers (s : Session) (calls : CallStack) : Prop :=
  (s.review.calls.count ≠ 0 ∧ calls = s.review.calls) ∨
  (s.review.calls.count = 0 ∧ ∃ c : Call, CallStack.IsFresh c ∧ c.calldata = s.parked ∧
    calls.slots = [some c] ∧ calls.current = some 0)

/-- A descriptor that is handled is held against the calls that are there. Where none is live, the
parked arguments have become the first one by then. -/
theorem handleInfo_opens {device : Device} {payload : Bytes} {s s' : Session}
    (h : (handleInfo device payload).exec s = (.ok (), s')) :
    ∃ info s₁, TransactionInfo.parse s.selectorCheck device.verifier payload = .ok info ∧
      (s.review.calls.count ≠ 0 ∧ s₁ = s ∨
        s.review.calls.count = 0 ∧
          (openRoot device ⟨some info.contract, none, info.chain, s.parked⟩).exec
            { s with parked := none } = (.ok (), s₁)) ∧
      (onReview do
        Review.onCalls (CallStack.select s₁.cache info.contract info.selector info.chain)
        Review.flushBefore device.toHost
        Review.attach device.toHost info).exec s₁ = (.ok (), s') := by
  unfold handleInfo at h
  rw [exec_get_bind] at h
  simp only [bind_answers, ofExcept_answers] at h
  obtain ⟨info, _, ⟨hparse, rfl⟩, h⟩ := h
  by_cases hnone : s.review.calls.count = 0
  · simp only [hnone, if_true, bind_answers, unpark] at h
    obtain ⟨parked, _, ⟨_, _, hget, ⟨⟩, _, hset, hparked⟩, ⟨⟩, s₁, hopen, _, _, hcache, h⟩ := h
    cases hget
    cases hset
    cases hparked
    cases hcache
    exact ⟨info, s₁, hparse, .inr ⟨hnone, hopen⟩, h⟩
  · simp only [hnone, if_false] at h
    rw [exec_get_bind] at h
    exact ⟨info, s, hparse, .inl ⟨hnone, rfl⟩, h⟩

/-- A descriptor that is handled selects the first call that it is about, calls without arguments
right before that call leave, and the call gets the descriptor. -/
theorem handleInfo_stages {device : Device} {payload : Bytes} {s s' : Session}
    (h : (handleInfo device payload).exec s = (.ok (), s')) :
    ∃ (info : TransactionInfo) (offered : Review) (selected : CallStack) (flushed : Review),
      TransactionInfo.parse s.selectorCheck device.verifier payload = .ok info ∧
      s.Offers offered.calls ∧
      (offered.table = s.review.table ∨
        s.review.calls.count = 0 ∧ device.settings.mode = .transaction) ∧
      offered.calls.select s.cache info.contract info.selector info.chain = .ok selected ∧
      (Review.flushBefore device.toHost).exec { offered with calls := selected } =
        (.ok (), flushed) ∧
      (Review.attach device.toHost info).exec flushed = (.ok (), s'.review) := by
  obtain ⟨info, s₁, hparse, ⟨hlive, rfl⟩ | ⟨hnone, hopen⟩, hstages⟩ := handleInfo_opens h
  · obtain ⟨selected, flushed, hselect, hflush, hattach⟩ := attach_stages hstages
    exact ⟨info, s₁.review, selected, flushed, hparse, .inl ⟨hlive, rfl⟩, .inl rfl, hselect,
      hflush, hattach⟩
  · obtain ⟨wallet, -, hslots, hcurrent, hcache, htable⟩ :=
      openRoot_answers (by exact hnone) hopen
    rw [hcache] at hstages
    obtain ⟨selected, flushed, hselect, hflush, hattach⟩ := attach_stages hstages
    exact ⟨info, s₁.review, selected, flushed, hparse,
      .inr ⟨hnone, _, ⟨rfl, rfl⟩, rfl, hslots, hcurrent⟩,
      htable.imp_right fun hmode => ⟨hnone, hmode⟩, hselect, hflush, hattach⟩

/-- A descriptor that is handled goes to the first call that it is about. -/
theorem handleInfo_answers {device : Device} {payload : Bytes} {s s' : Session}
    (h : (handleInfo device payload).exec s = (.ok (), s')) :
    ∃ info calls selected,
      TransactionInfo.parse s.selectorCheck device.verifier payload = .ok info ∧
      s.Offers calls ∧
      calls.select s.cache info.contract info.selector info.chain = .ok selected ∧
      selected.flushedBefore.attached device.settings.mode info = .ok s'.review.calls := by
  obtain ⟨info, offered, selected, flushed, hparse, hoffers, -, hselect, hflush, hattach⟩ :=
    handleInfo_stages h
  have hcalls := (Review.attach_answers hattach).1
  rw [Review.flushBefore_calls hflush] at hcalls
  exact ⟨info, offered.calls, selected, hparse, hoffers, hselect, hcalls⟩

/-- The other commands leave the calls alone. -/
theorem handle_keeps_review {device : Device} {command : Command} {payload : Bytes}
    {s s' : Session} (hfield : command ≠ .field) (hinfo : command ≠ .transactionInfo)
    (h : (handle device command payload).exec s = (.ok (), s')) : s'.review = s.review := by
  cases command with
  | field => exact absurd rfl hfield
  | transactionInfo => exact absurd rfl hinfo
  | proxyBinding =>
    simp only [handle, handleBinding] at h
    rw [exec_get_bind, exec_modify_bind, bind_answers] at h
    obtain ⟨binding, _, hparsed, h⟩ := h
    obtain ⟨-, rfl⟩ := ofExcept_answers.mp hparsed
    cases h
    rfl
  | enumLabel =>
    simp only [handle, handleLabel] at h
    rw [bind_answers] at h
    obtain ⟨label, _, hparsed, h⟩ := h
    obtain ⟨-, rfl⟩ := ofExcept_answers.mp hparsed
    cases h
    rfl

section

open Tlv

/-- A device that knows nothing and trusts every signature. -/
def sampleDevice (mode : SigningMode) : Device where
  registry := ⟨.ok (Fixed.zero 20), fun _ => 0, fun _ _ => none, fun _ _ => none,
    fun _ _ _ _ => none, fun _ => none, fun _ => none⟩
  settings := { Settings.default with mode := mode }
  verifier := fun _ _ _ => true

/-- A command whose payload comes in one chunk. -/
def whole (command : Command) (payload : Bytes) : Operation :=
  .command command Reassembly.firstMark (Bytes.ofNat 2 payload.length ++ payload)

/-- Arguments of a call that takes none. -/
def sampleArguments : Operation := .park (Calldata.empty 0 ⟨[1, 2, 3, 4], rfl⟩)

/-- The same call, with its target known from the start. -/
def sampleBegin : Operation :=
  .begin ⟨some (Fixed.align 20 [7]), none, 1, some (Calldata.empty 0 (Fixed.align 4 [1, 2, 3, 4]))⟩

/-- A descriptor of that call, with the digest of its fields. -/
def sampleInfo (digest : Bytes) : Operation :=
  whole .transactionInfo <| write 0 [1] ++ write 1 [1] ++ write 2 [7] ++ write 3 [1, 2, 3, 4] ++
    write 4 digest ++ write 5 [] ++ write 0xff []

/-- The same call with words as arguments, and its descriptor. -/
def sampleWords (words : List Nat) (digest : Bytes) : List Operation :=
  [.begin ⟨some (Fixed.align 20 [7]), none, 1,
      some (Calldata.empty (32 * words.length) (Fixed.align 4 [1, 2, 3, 4]))⟩,
   .append (words.flatMap (Bytes.ofNat 32)), sampleInfo digest]

/-- The numbers of a list, which stands behind so many words of the arguments. -/
def sampleNumbers (family : TypeFamily) (skip : UInt16) : Value :=
  ⟨1, family, none, .arguments ⟨1, [.tuple skip, .array 1 ⟨none, none⟩, .leaf .static]⟩⟩

/-- A constant of a type family. -/
def sampleValue (family : UInt8) (bs : Bytes) : Bytes :=
  write 0 [1] ++ write 1 [family] ++ write 5 bs

/-- A field that shows the number one. -/
def sampleField : Bytes :=
  write 0 [1] ++ write 1 [97] ++ write 2 [0] ++ write 3 (write 0 [1] ++ write 1 (sampleValue 1 [1]))

/-- A field that opens a call without arguments. -/
def sampleLeg : Bytes :=
  write 0 [1] ++ write 1 [97] ++ write 2 [9] ++
    write 3 (write 0 [1] ++ write 1 (sampleValue 7 []) ++ write 2 (sampleValue 5 [7]))

/-- A field that opens a call of the same function, which takes no arguments, at an address. -/
def sampleCall (callee : UInt8) : Bytes :=
  write 0 [1] ++ write 1 [97] ++ write 2 [9] ++
    write 3 (write 0 [1] ++ write 1 (sampleValue 7 [1, 2, 3, 4]) ++
      write 2 (sampleValue 5 [callee]))

/-- A descriptor of a call to an address, with the digest of its fields and what it does. -/
def sampleDescriptor (contract : UInt8) (digest operation : Bytes) : Bytes :=
  write 0 [1] ++ write 1 [1] ++ write 2 [contract] ++ write 3 [1, 2, 3, 4] ++ write 4 digest ++
    write 5 operation ++ write 0xff []

end

end ClearSign.Session
