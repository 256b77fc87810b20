import ClearSign.Proofs.Calldata.Buffer
import ClearSign.Proofs.Review.Line

/-!
The calls that a field opens. The values of the field are read apart from each other, one list for
the blobs and one for each other part of a call; a call takes what stands at the place of its blob
in each list, and what no list is given for, from the call that is opened before it.
-/

namespace ClearSign

open Refusal

namespace Calldata

/-- The bytes that have come. -/
def contents (c : Calldata) : Bytes := c.words.flatMap (fun w => w.unpack.bytes) ++ c.staging

theorem unpack_packAll {count : Nat} {bs : Bytes} (h : 32 * count ≤ bs.length) :
    (packAll count bs).1.flatMap (fun w => w.unpack.bytes) = bs.take (32 * count) := by
  induction count generalizing bs with
  | zero => rfl
  | succ count ih =>
    have hword : (bs.take 32).length = 32 := by
      rw [List.length_take]
      omega
    have hrest : 32 * count ≤ (bs.drop 32).length := by
      rw [List.length_drop]
      omega
    have halign : Bytes.alignRight 32 (bs.take 32) = bs.take 32 := by
      unfold Bytes.alignRight
      rw [hword]
      rfl
    simp only [packAll, List.flatMap_cons, ih hrest, PackedWord.unpack_pack]
    show Bytes.alignRight 32 (bs.take 32) ++ _ = _
    rw [halign, show 32 * (count + 1) = 32 + 32 * count by omega, List.take_add]

theorem contents_holding (expected : Nat) (selector : Selector) (bs : Bytes) :
    (holding expected selector bs).contents = bs := by
  unfold contents holding
  simp only [packAll_rest]
  rw [unpack_packAll (by omega), List.take_append_drop]

/-- A store of some bytes is complete, and holds them. -/
theorem ofBytes_eq (selector : Selector) (bs : Bytes) :
    ofBytes selector bs = .ok (holding bs.length selector bs) := by
  unfold ofBytes
  rw [← holding_nil, append_holding, if_pos (by simp), List.nil_append]

end Calldata

namespace Param.NestedCall

/-- A blob that is split is a call without arguments if it is empty; else it is all arguments if
the selector is given, and starts with the selector if not. -/
theorem split_eq_ok {blob : Bytes} {selector : Option Bytes} {data? : Option Calldata}
    (h : split blob selector = .ok data?) :
    (data? = none ↔ blob = []) ∧ ∀ data, data? = some data → data.isComplete = true ∧
      (∀ given, selector = some given →
        data.selector = Fixed.align 4 given ∧ data.contents = blob) ∧
      (selector = none → 4 ≤ blob.length ∧ blob = data.selector.bytes ++ data.contents) := by
  unfold split at h
  by_cases hempty : blob = []
  · subst hempty
    cases h
    exact ⟨by simp, by simp⟩
  · rw [if_neg (by simpa using hempty)] at h
    cases selector with
    | some given =>
      simp only [Calldata.ofBytes_eq] at h
      cases h
      refine ⟨by simp [hempty], ?_⟩
      rintro _ ⟨⟩
      refine ⟨Calldata.isComplete_holding rfl, ?_, by simp⟩
      rintro _ ⟨⟩
      exact ⟨rfl, Calldata.contents_holding ..⟩
    | none =>
      by_cases hshort : blob.length < 4
      · simp only [if_pos hshort] at h
        cases h
      · simp only [if_neg hshort, Calldata.ofBytes_eq] at h
        cases h
        refine ⟨by simp [hempty], ?_⟩
        rintro _ ⟨⟩
        refine ⟨Calldata.isComplete_holding rfl, by simp, fun _ => ⟨Nat.le_of_not_lt hshort, ?_⟩⟩
        rw [Calldata.contents_holding]
        have hhead : (blob.take 4).length = 4 := by
          rw [List.length_take]
          omega
        show blob = Bytes.alignRight 4 (blob.take 4) ++ blob.drop 4
        unfold Bytes.alignRight
        rw [hhead]
        exact (List.take_append_drop 4 blob).symm

/-- The byte string that a value stands for at one place. -/
def At (scope : Scope) (v : Value) (i : Nat) (bs : Bytes) : Prop :=
  ∃ captures capture, scope.resolve v = .ok captures ∧ captures[i]? = some capture ∧
    capture.bytes = bs

/-- The values that the field gives besides the blobs. -/
def companions (p : NestedCall) : List Value :=
  p.callee :: [p.chain, p.selector, p.amount, p.spender].filterMap id

theorem sized_eq {scope : Scope} {size : Nat} {v : Value} {captures : Captures}
    (h : scope.resolve v = .ok captures) :
    sized scope size v = if captures.length = size then .ok captures else .error .invalidValue := by
  unfold sized
  rw [h]
  rfl

theorem sized_eq_ok {scope : Scope} {size : Nat} {v : Value} {captures : Captures}
    (h : sized scope size v = .ok captures) :
    scope.resolve v = .ok captures ∧ captures.length = size := by
  obtain ⟨captures', hresolve, -⟩ := bind_eq_ok.mp h
  rw [sized_eq hresolve] at h
  split at h
  · cases h
    exact ⟨hresolve, ‹_›⟩
  · cases h

/-- At the place of a blob: what holds of the byte string that a value stands for if the value is
given, and what holds if it is not. -/
def Given (scope : Scope) (i : Nat) (holds : Bytes → Prop) (otherwise : Prop) :
    Option Value → Prop
  | some v => ∃ bs, At scope v i bs ∧ holds bs
  | none => otherwise

theorem given_of_sized? {scope : Scope} {size i : Nat} {v? : Option Value}
    {captures? : Option Captures} {holds : Bytes → Prop} {otherwise : Prop}
    (h : sized? scope size v? = .ok captures?) (hi : i < size)
    (hsome : ∀ capture, (captures?.bind fun cs => cs[i]?) = some capture → holds capture.bytes)
    (hnone : (captures?.bind fun cs => cs[i]?) = none → otherwise) :
    Given scope i holds otherwise v? := by
  cases v? with
  | none =>
    cases h
    exact hnone rfl
  | some v =>
    have h : (some <$> sized scope size v) = .ok captures? := h
    cases hsized : sized scope size v with
    | error e =>
      rw [hsized] at h
      cases h
    | ok captures =>
      rw [hsized] at h
      cases h
      obtain ⟨hresolve, rfl⟩ := sized_eq_ok hsized
      have hget : captures[i]? = some captures[i] := List.getElem?_eq_getElem hi
      exact ⟨_, ⟨captures, captures[i], hresolve, hget, rfl⟩, hsome _ hget⟩

/-- What is read off the place of a blob comes from the value, or is what stands for no value. -/
theorem given_of_read {α : Type} {scope : Scope} {size i : Nat} {v? : Option Value}
    {captures? : Option Captures} (read : Option Capture → α) (taken : Bytes → α)
    (htaken : ∀ capture, read (some capture) = taken capture.bytes)
    (h : sized? scope size v? = .ok captures?) (hi : i < size) :
    Given scope i (fun bs => read (captures?.bind fun cs => cs[i]?) = taken bs)
      (read (captures?.bind fun cs => cs[i]?) = read none) v? := by
  refine given_of_sized? h hi ?_ ?_
  · intro capture hcapture
    rw [hcapture, htaken]
  · intro hmissing
    rw [hmissing]

/-- The values that are given are all resolved, to as many byte strings as there are blobs. -/
structure Sized (p : NestedCall) (scope : Scope) (r : Resolved) : Prop where
  calldata : scope.resolve p.calldata = .ok r.calldata
  callee : scope.resolve p.callee = .ok r.callee ∧ r.callee.length = r.calldata.length
  chain : sized? scope r.calldata.length p.chain = .ok r.chain
  selector : sized? scope r.calldata.length p.selector = .ok r.selector
  amount : sized? scope r.calldata.length p.amount = .ok r.amount
  spender : sized? scope r.calldata.length p.spender = .ok r.spender

theorem sized_of_resolve {p : NestedCall} {scope : Scope} {r : Resolved}
    (h : p.resolve scope = .ok r) : p.Sized scope r := by
  unfold resolve at h
  simp only [bind_eq_ok, pure_eq_ok] at h
  obtain ⟨calldata, hcalldata, callee, hcallee, chain, hchain, selector, hselector, amount,
    hamount, spender, hspender, rfl⟩ := h
  exact ⟨hcalldata, sized_eq_ok hcallee, hchain, hselector, hamount, hspender⟩

theorem sized?_resolve {scope : Scope} {size : Nat} {v : Value} {captures? : Option Captures}
    (h : sized? scope size (some v) = .ok captures?) :
    ∃ captures, scope.resolve v = .ok captures ∧ captures.length = size := by
  have h : (some <$> sized scope size v) = .ok captures? := h
  cases hsized : sized scope size v with
  | error e =>
    rw [hsized] at h
    cases h
  | ok captures => exact ⟨captures, sized_eq_ok hsized⟩

/-- Each value that is given stands for as many byte strings as there are blobs. -/
theorem Sized.companion {p : NestedCall} {scope : Scope} {r : Resolved} (h : p.Sized scope r)
    {v : Value} (hv : v ∈ p.companions) :
    ∃ captures, scope.resolve v = .ok captures ∧ captures.length = r.calldata.length := by
  unfold companions at hv
  simp only [List.mem_cons, List.mem_filterMap, List.not_mem_nil, or_false, id] at hv
  rcases hv with rfl | ⟨v?, hv | hv | hv | hv, hsome⟩
  · exact ⟨r.callee, h.callee⟩
  · exact sized?_resolve (hsome ▸ hv ▸ h.chain)
  · exact sized?_resolve (hsome ▸ hv ▸ h.selector)
  · exact sized?_resolve (hsome ▸ hv ▸ h.amount)
  · exact sized?_resolve (hsome ▸ hv ▸ h.spender)

theorem sized_error {scope : Scope} {size : Nat} {v : Value} {e : Error}
    (h : sized scope size v = .error e) (hv : ∃ captures, scope.resolve v = .ok captures) :
    e = .invalidValue := by
  obtain ⟨captures, hcaptures⟩ := hv
  rw [sized_eq hcaptures] at h
  split at h
  · cases h
  · exact (Except.error.inj h).symm

theorem sized?_error {scope : Scope} {size : Nat} {v? : Option Value} {e : Error}
    (h : sized? scope size v? = .error e)
    (hv : ∀ v, v? = some v → ∃ captures, scope.resolve v = .ok captures) : e = .invalidValue := by
  cases v? with
  | none => cases h
  | some v =>
    have h : (some <$> sized scope size v) = .error e := h
    cases hsized : sized scope size v with
    | ok captures =>
      rw [hsized] at h
      cases h
    | error e' =>
      rw [hsized] at h
      cases h
      exact sized_error hsized (hv v rfl)

/-- Where all values that are given are resolved, the field is refused for nothing but their
number. -/
theorem resolve_error {p : NestedCall} {scope : Scope} {blobs : Captures} {e : Error}
    (hblobs : scope.resolve p.calldata = .ok blobs)
    (hall : ∀ v ∈ p.companions, ∃ captures, scope.resolve v = .ok captures)
    (h : p.resolve scope = .error e) : e = .invalidValue := by
  have hgiven (v? : Option Value) (hv : v? ∈ [p.chain, p.selector, p.amount, p.spender]) :
      ∀ v, v? = some v → ∃ captures, scope.resolve v = .ok captures := by
    rintro v rfl
    exact hall v (List.mem_cons_of_mem _ (List.mem_filterMap.mpr ⟨some v, hv, rfl⟩))
  unfold resolve at h
  rw [hblobs] at h
  simp only [bind_eq_error] at h
  rcases h with h | ⟨calldata, -, h | ⟨callee, -, h | ⟨chain, -, h | ⟨selector, -, h |
    ⟨amount, -, h | ⟨spender, -, h⟩⟩⟩⟩⟩⟩
  · cases h
  · exact sized_error h (hall _ List.mem_cons_self)
  · exact sized?_error h (hgiven _ (by simp))
  · exact sized?_error h (hgiven _ (by simp))
  · exact sized?_error h (hgiven _ (by simp))
  · exact sized?_error h (hgiven _ (by simp))
  · cases h

/-- A field is refused if a value stands for more or fewer byte strings than there are blobs. -/
theorem resolve_refused {p : NestedCall} {scope : Scope} {blobs captures : Captures} {v : Value}
    (hblobs : scope.resolve p.calldata = .ok blobs) (hv : v ∈ p.companions)
    (hcaptures : scope.resolve v = .ok captures) (hsize : captures.length ≠ blobs.length) :
    ∃ e, p.resolve scope = .error e := by
  cases h : p.resolve scope with
  | error e => exact ⟨e, rfl⟩
  | ok r =>
    have hsized := sized_of_resolve h
    obtain rfl : blobs = r.calldata := Except.ok.inj (hblobs.symm.trans hsized.calldata)
    obtain ⟨captures', hcaptures', hlength⟩ := hsized.companion hv
    obtain rfl : captures = captures' := Except.ok.inj (hcaptures.symm.trans hcaptures')
    exact absurd hlength hsize

/-- A call that is opened for a blob: its arguments are the blob, its other parts are what the
values stand for at the place of the blob; what no value is given for is left out, or taken over
from the call before it. -/
structure Describes (p : NestedCall) (scope : Scope) (i : Nat) (blob : Bytes)
    (from_ : Address × ChainId) (c : Call) : Prop where
  no_arguments : c.calldata = none ↔ blob = []
  arguments : ∀ data, c.calldata = some data → data.isComplete = true ∧
    Given scope i (fun bs => data.selector = Fixed.align 4 bs ∧ data.contents = blob)
      (4 ≤ blob.length ∧ blob = data.selector.bytes ++ data.contents) p.selector
  target : ∃ bs, At scope p.callee i bs ∧ c.target = some (Fixed.align 20 bs)
  amount : Given scope i (fun bs => c.amount = some (Fixed.align 32 bs)) (c.amount = none) p.amount
  sender : Given scope i (fun bs => c.sender = Fixed.align 20 bs) (c.sender = from_.1) p.spender
  chain : Given scope i (fun bs => c.chain = bs.toUInt64) (c.chain = from_.2) p.chain
  info : c.info = none
  absorbed : c.absorbed = []

theorem describes_opened {p : NestedCall} {scope : Scope} {r : Resolved} {i : Nat}
    {blob : Capture} {new : NewCall} (hsized : p.Sized scope r)
    (hblob : r.calldata[i]? = some blob) (h : call r i blob = .ok new)
    (from_ : Address × ChainId) : p.Describes scope i blob.bytes from_ (new.opened from_) := by
  obtain ⟨hi, -⟩ := List.getElem?_eq_some_iff.mp hblob
  unfold call at h
  simp only [bind_eq_ok, pure_eq_ok] at h
  obtain ⟨data?, hsplit, rfl⟩ := h
  obtain ⟨hnone, hdata⟩ := split_eq_ok hsplit
  obtain ⟨hcallee, hcalleeSize⟩ := hsized.callee
  have hcalleeAt : r.callee[i]? = some r.callee[i] := List.getElem?_eq_getElem (hcalleeSize ▸ hi)
  refine ⟨hnone, ?_, ?_, ?_, ?_, ?_, rfl, rfl⟩
  · intro data hsome
    obtain ⟨hcomplete, hgiven, hstarts⟩ := hdata data hsome
    refine ⟨hcomplete, given_of_sized? hsized.selector hi ?_ ?_⟩
    · intro capture hcapture
      exact hgiven capture.bytes (by rw [hcapture]; rfl)
    · intro hmissing
      exact hstarts (by rw [hmissing]; rfl)
  · refine ⟨_, ⟨r.callee, r.callee[i], hcallee, hcalleeAt, rfl⟩, ?_⟩
    simp only [NewCall.opened, hcalleeAt]
    rfl
  · exact given_of_read (Option.map fun capture => Fixed.align 32 capture.bytes)
      (fun bs => some (Fixed.align 32 bs)) (fun _ => rfl) hsized.amount hi
  · exact given_of_read (fun capture? => (capture?.map Capture.toAddress).getD from_.1)
      (Fixed.align 20) (fun _ => rfl) hsized.spender hi
  · exact given_of_read (fun capture? => (capture?.map Capture.toUInt64).getD from_.2)
      Bytes.toUInt64 (fun _ => rfl) hsized.chain hi

end Param.NestedCall

namespace CallStack

variable {registry : Registry} {s t u : CallStack}

/-- Calls are opened behind all others, each with what it may take over from the call before it; no
other call has changed, nor which is current. -/
structure Opens (registry : Registry) (opened : Nat → Address × ChainId → Call → Prop)
    (calls : List Call) (s t : CallStack) : Prop where
  live : t.live = s.live ++ calls
  each : ∀ i c, calls[i]? = some c →
    ∃ from_, origin registry (s.live ++ calls.take i) = some from_ ∧ opened i from_ c
  kept : ∀ slot c, s.call? slot = some c → t.call? slot = some c
  current : ∀ slot c, s.current = some slot → s.call? slot = some c → t.current = some slot
  no_current : s.current = none → t.current = none

theorem Opens.nil {opened : Nat → Address × ChainId → Call → Prop} (s : CallStack) :
    Opens registry opened [] s s where
  live := (List.append_nil _).symm
  each := by simp
  kept _ _ := id
  current _ _ h _ := h
  no_current := id

theorem Opens.cons {opened : Nat → Address × ChainId → Call → Prop} {c : Call}
    {calls : List Call} (hfirst : Opens registry opened [c] s t)
    (hrest : Opens registry (fun i => opened (i + 1)) calls t u) :
    Opens registry opened (c :: calls) s u where
  live := by rw [hrest.live, hfirst.live, List.append_assoc, List.singleton_append]
  each := by
    intro i d hd
    cases i with
    | zero =>
      obtain rfl : c = d := Option.some.inj hd
      simpa using hfirst.each 0 c rfl
    | succ i =>
      obtain ⟨from_, horigin, hopened⟩ := hrest.each i d hd
      rw [hfirst.live, List.append_assoc, List.singleton_append] at horigin
      exact ⟨from_, horigin, hopened⟩
  kept slot d hd := hrest.kept slot d (hfirst.kept slot d hd)
  current slot d hslot hd :=
    hrest.current slot d (hfirst.current slot d hslot hd) (hfirst.kept slot d hd)
  no_current h := hrest.no_current (hfirst.no_current h)

theorem opens_push {settings : Settings} {new : NewCall} {slot : Nat}
    {opened : Nat → Address × ChainId → Call → Prop}
    (hopened : ∀ from_, opened 0 from_ (new.opened from_))
    (h : s.push settings registry new = .ok (slot, t)) :
    ∃ c, Opens registry opened [c] s t := by
  obtain ⟨from_, horigin, hslots, hcurrent⟩ := push_eq_ok h
  have hlive : t.live = s.live ++ [new.opened from_] := by
    unfold live at hslots ⊢
    rw [hslots, List.filterMap_append]
    split
    · rename_i hempty
      rw [List.isEmpty_iff.mp hempty]
      rfl
    · rfl
  have hkept : ∀ slot c, s.call? slot = some c → t.call? slot = some c := by
    intro slot c hc
    rw [if_neg (by simpa using live_ne_nil hc)] at hslots
    unfold call? at hc ⊢
    rw [hslots, List.getElem?_append_left (lt_length hc), hc]
  refine ⟨new.opened from_, hlive, ?_, hkept, ?_, ?_⟩
  · intro i c hc
    cases i with
    | zero =>
      cases hc
      exact ⟨from_, by simpa using horigin, hopened from_⟩
    | succ i => cases hc
  · intro slot c hslot hc
    rw [hcurrent, if_neg (by simpa using live_ne_nil hc), hslot]
  · intro hnone
    rw [hcurrent, hnone, ite_self]

end CallStack

namespace Field

open ClearSign.Action Param.NestedCall

variable {host : Host} {cache : Cache} {r r' : Review}

/-- Opens one call of a field. -/
def openOne (host : Host) (call : Except Error NewCall) : Action Review Unit := do
  let _ ← Review.openCall host (← Action.ofExcept call)

theorem exec_openCalls (calls : List (Except Error NewCall)) : (openCalls host calls).exec r =
    (calls.forM (openOne host)).exec { r with calls := r.calls.announce calls.length } := by
  unfold openCalls Review.onCalls
  rw [exec_bind, exec_update]
  rfl

/-- A call is refused, and nothing has changed, or it is opened. -/
theorem openOne_cases (host : Host) (call : Except Error NewCall) (r : Review) :
    (∃ e, (openOne host call).exec r = (.error e, r)) ∨
      ∃ new slot s, call = .ok new ∧
        r.calls.push host.settings host.registry new = .ok (slot, s) ∧
        (openOne host call).exec r = (.ok (), { r with calls := s }) := by
  unfold openOne
  cases call with
  | error e => exact .inl ⟨e, rfl⟩
  | ok new =>
    rcases hopen : (Review.openCall host new).exec r with ⟨e | slot, r'⟩
    · obtain rfl := Review.openCall_refused hopen
      refine .inl ⟨e, ?_⟩
      simp only [exec_bind, exec_ofExcept, hopen]
    · obtain ⟨s, hpush, rfl⟩ := Review.openCall_answers hopen
      refine .inr ⟨new, slot, s, rfl, hpush, ?_⟩
      simp only [exec_bind, exec_ofExcept, hopen]
      rfl

/-- Calls are opened one by one, up to the first that is refused. -/
theorem opens_forM {calls : List (Except Error NewCall)} {answer : Except Error Unit}
    (opened : Nat → Address × ChainId → Call → Prop)
    (hopened : ∀ i new from_, calls[i]? = some (.ok new) → opened i from_ (new.opened from_))
    (h : (calls.forM (openOne host)).exec r = (answer, r')) :
    r'.table = r.table ∧ r'.calls.batchTotal = r.calls.batchTotal ∧
      r'.calls.batchSize = r.calls.batchSize ∧ ∃ new, new.length ≤ calls.length ∧
        (answer = .ok () → new.length = calls.length) ∧
        CallStack.Opens host.registry opened new r.calls r'.calls := by
  induction calls generalizing r opened with
  | nil =>
    cases h
    exact ⟨rfl, rfl, rfl, [], Nat.le_refl _, fun _ => rfl, .nil _⟩
  | cons call calls ih =>
    have hfirst : (call :: calls).forM (openOne host) =
        openOne host call >>= fun _ => calls.forM (openOne host) := rfl
    rw [hfirst, exec_bind] at h
    rcases openOne_cases host call r with ⟨e, hrefused⟩ | ⟨new, slot, s, rfl, hpush, hopen⟩
    · rw [hrefused] at h
      cases h
      exact ⟨rfl, rfl, rfl, [], Nat.zero_le _, fun hok => (by cases hok), .nil _⟩
    · rw [hopen] at h
      obtain ⟨c, hnext⟩ := CallStack.opens_push (fun from_ => hopened 0 new from_ rfl) hpush
      obtain ⟨htotal, hsize⟩ := CallStack.push_batch hpush
      obtain ⟨htable, htotal', hsize', rest, hlength, hall, hrest⟩ :=
        ih _ (fun i => hopened (i + 1)) h
      exact ⟨htable, htotal'.trans htotal, hsize'.trans hsize, c :: rest,
        Nat.succ_le_succ hlength, fun hok => congrArg Nat.succ (hall hok), hnext.cons hrest⟩

/-- Calls that are opened one by one, each if it is not refused. -/
theorem opens_of_forM {calls : List (Except Error NewCall)}
    (opened : Nat → Address × ChainId → Call → Prop)
    (hopened : ∀ i new from_, calls[i]? = some (.ok new) → opened i from_ (new.opened from_))
    (h : (calls.forM fun call => do
      let _ ← Review.openCall host (← Action.ofExcept call)).exec r = (.ok (), r')) :
    r'.table = r.table ∧ r'.calls.batchTotal = r.calls.batchTotal ∧
      r'.calls.batchSize = r.calls.batchSize ∧ ∃ new, new.length = calls.length ∧
        CallStack.Opens host.registry opened new r.calls r'.calls := by
  obtain ⟨htable, htotal, hsize, new, -, hall, hnew⟩ := opens_forM opened hopened h
  exact ⟨htable, htotal, hsize, new, hall rfl, hnew⟩

theorem exec_format_calldata {field : Field} {p : Param.NestedCall}
    (hparam : field.param = .calldata p) : (field.format host cache).exec r =
      match p.resolve ⟨host, cache, r.calls.currentCall⟩ with
      | .ok resolved => (openCalls host (calls resolved)).exec r
      | .error e => (.error e, r) := by
  unfold format
  rw [exec_get_bind]
  simp only [hparam, exec_bind, exec_ofExcept]
  cases p.resolve ⟨host, cache, r.calls.currentCall⟩ <;> rfl

/-- What is given for one call of a field, if it is not refused. -/
theorem describes_of_calls {p : Param.NestedCall} {scope : Scope} {resolved : Resolved}
    (hsized : p.Sized scope resolved) {i : Nat} {new : NewCall}
    (h : (calls resolved)[i]? = some (.ok new)) (from_ : Address × ChainId) :
    ∃ blob, resolved.calldata[i]? = some blob ∧
      p.Describes scope i blob.bytes from_ (new.opened from_) := by
  unfold calls at h
  rw [List.getElem?_mapIdx] at h
  obtain ⟨blob, hblob, hcall⟩ := Option.map_eq_some_iff.mp h
  exact ⟨blob, hblob, describes_opened hsized hblob hcall from_⟩

/-- A field that is formatted opens a call for each blob, with what is given at its place. -/
theorem opened_of_format {field : Field} {p : Param.NestedCall}
    (hparam : field.param = .calldata p) (h : (field.format host cache).exec r = (.ok (), r')) :
    ∃ blobs new, (Scope.mk host cache r.calls.currentCall).resolve p.calldata = .ok blobs ∧
      new.length = blobs.length ∧
      CallStack.Opens host.registry (fun i from_ c => ∃ blob, blobs[i]? = some blob ∧
        p.Describes ⟨host, cache, r.calls.currentCall⟩ i blob.bytes from_ c)
        new r.calls r'.calls ∧
      r'.table = r.table ∧ r'.calls.batchSize = blobs.length ∧
      r'.calls.batchTotal = r.calls.batchTotal +
        if 1 < blobs.length then UInt64.ofNat blobs.length else 0 := by
  rw [exec_format_calldata hparam] at h
  cases hresolve : p.resolve ⟨host, cache, r.calls.currentCall⟩ with
  | error e =>
    rw [hresolve] at h
    cases h
  | ok resolved =>
    rw [hresolve] at h
    have hsized := sized_of_resolve hresolve
    have hcount : (calls resolved).length = resolved.calldata.length := by simp [calls]
    simp only [openCalls, bind_answers, Review.onCalls_answers] at h
    obtain ⟨⟨⟩, _, ⟨s, hannounce, rfl⟩, h⟩ := h
    cases hannounce
    obtain ⟨htable, htotal, hsize, new, hlength, hnew⟩ := opens_of_forM
      (fun i from_ c => ∃ blob, resolved.calldata[i]? = some blob ∧
        p.Describes ⟨host, cache, r.calls.currentCall⟩ i blob.bytes from_ c)
      (fun i new from_ hi => describes_of_calls hsized hi from_) h
    refine ⟨resolved.calldata, new, hsized.calldata, hlength.trans hcount,
      ⟨hnew.live, hnew.each, hnew.kept, hnew.current, hnew.no_current⟩, htable,
      hsize.trans hcount, ?_⟩
    rw [htotal]
    unfold CallStack.announce
    rw [hcount]
    by_cases hbatch : 1 < resolved.calldata.length
    · simp only [if_pos hbatch]
    · simp only [if_neg hbatch, UInt64.add_zero]

/-- A field that opens calls opens one for each blob, in the order of the blobs and behind all
others, with the parts that its values give at the place of the blob. It shows nothing and changes
no other call, nor which is current; of the calls that come in batches it counts those of a batch of
more than one. If a value stands for more or fewer byte strings than there are blobs, the field is
refused before anything has changed. -/
theorem calls_opened_exactly (host : Host) (cache : Cache) (r : Review) (field : Field)
    (p : Param.NestedCall) (hparam : field.param = .calldata p) :
    let scope : Scope := ⟨host, cache, r.calls.currentCall⟩
    (∀ r', (field.format host cache).exec r = (.ok (), r') →
      ∃ blobs new, scope.resolve p.calldata = .ok blobs ∧ new.length = blobs.length ∧
        CallStack.Opens host.registry (fun i from_ c => ∃ blob, blobs[i]? = some blob ∧
          p.Describes scope i blob.bytes from_ c) new r.calls r'.calls ∧
        r'.table = r.table ∧ r'.calls.batchSize = blobs.length ∧
        r'.calls.batchTotal = r.calls.batchTotal +
          if 1 < blobs.length then UInt64.ofNat blobs.length else 0) ∧
    ∀ blobs v captures, scope.resolve p.calldata = .ok blobs → v ∈ p.companions →
      scope.resolve v = .ok captures → captures.length ≠ blobs.length →
      ∃ e, (field.format host cache).exec r = (.error e, r) ∧
        ((∀ w ∈ p.companions, ∃ captures, scope.resolve w = .ok captures) → e = .invalidValue) := by
  intro scope
  refine ⟨fun r' h => opened_of_format hparam h, ?_⟩
  intro blobs v captures hblobs hv hcaptures hsize
  obtain ⟨e, he⟩ := resolve_refused hblobs hv hcaptures hsize
  refine ⟨e, ?_, fun hall => resolve_error hblobs hall he⟩
  rw [exec_format_calldata hparam, he]

/-- The arguments of `f([17, 34], [0x01020304, ""])`. -/
def sampleTwo : Bytes :=
  [64, 160, 2, 17, 34, 2, 64, 128, 4].flatMap (fun n => Bytes.alignRight 32 [n]) ++
    [1, 2, 3, 4] ++ List.replicate 60 0

/-- One call for each element of the second of these arguments. -/
def sampleBatch (callee : Value) : Param.NestedCall where
  version := 1
  calldata := ⟨1, .bytes, none, .arguments ⟨1,
    [.tuple 1, .ref, .array 1 ⟨none, none⟩, .ref, .leaf .dynamic]⟩⟩
  callee := callee
  chain := none
  selector := none
  amount := none
  spender := none

/-- Two calls are opened, one with arguments and one without, if they go to the elements of the
first argument; none is, if they go to one address. -/
theorem calls_opened_exactly_batch :
    let targets : Value := ⟨1, .address, none, .arguments ⟨1,
      [.ref, .array 1 ⟨none, none⟩, .leaf .static]⟩⟩
    let field (callee : Value) : Field := ⟨1, "a", .calldata (sampleBatch callee), .always, []⟩
    let data := Calldata.holding 352 (Fixed.align 4 [9]) sampleTwo
    let call : Call := ⟨none, some data, Fixed.zero 20, none, none, 1, []⟩
    let r : Review := ⟨⟨[some call], some 0, 0, 0⟩, []⟩
    let scope : Scope := ⟨Review.sampleHost, Cache.empty, some call⟩
    (∃ r' first second, ((field targets).format Review.sampleHost Cache.empty).exec r =
        (.ok (), r') ∧ r'.calls.live = [call, first, second] ∧
      (sampleBatch targets).Describes scope 0 [1, 2, 3, 4] (Fixed.zero 20, 1) first ∧
      (sampleBatch targets).Describes scope 1 [] (first.sender, first.chain) second ∧
      r'.calls.batchTotal = 2) ∧
    ((field (Value.constant .address [17])).format Review.sampleHost Cache.empty).exec r =
      (.error .invalidValue, r) := by
  intro targets field data call r scope
  have hrun : (((field targets).format Review.sampleHost Cache.empty).exec r).1 = .ok () := by
    decide +kernel
  have hblobs : scope.resolve (sampleBatch targets).calldata =
      .ok [Capture.whole [1, 2, 3, 4], Capture.whole []] := by decide +kernel
  refine ⟨?_, ?_⟩
  · obtain ⟨blobs, new, hblobs', hlength, hopens, -, -, htotal⟩ :=
      (calls_opened_exactly Review.sampleHost Cache.empty r (field targets) _ rfl).1 _
        (Prod.ext hrun rfl)
    obtain rfl : blobs = [Capture.whole [1, 2, 3, 4], Capture.whole []] :=
      Except.ok.inj (hblobs'.symm.trans hblobs)
    obtain ⟨first, second, rfl⟩ := List.length_eq_two.mp hlength
    obtain ⟨from₀, horigin₀, blob, hblob, hfirst⟩ := hopens.each 0 first rfl
    cases hblob
    cases horigin₀
    obtain ⟨from₁, horigin₁, blob, hblob, hsecond⟩ := hopens.each 1 second rfl
    cases hblob
    cases horigin₁
    exact ⟨_, first, second, Prod.ext hrun rfl, hopens.live, hfirst, hsecond,
      htotal⟩
  · have hcompanions : (sampleBatch (Value.constant .address [17])).companions =
        [Value.constant .address [17]] := rfl
    obtain ⟨e, hexec, he⟩ :=
      (calls_opened_exactly Review.sampleHost Cache.empty r
        (field (Value.constant .address [17])) _ rfl).2 _ (Value.constant .address [17])
        [Capture.whole [17]] hblobs (by simp [hcompanions]) rfl (by simp)
    obtain rfl : e = .invalidValue := he (by
      rw [hcompanions]
      intro w hw
      obtain rfl := List.mem_singleton.mp hw
      exact ⟨_, rfl⟩)
    exact hexec

end Field
end ClearSign
