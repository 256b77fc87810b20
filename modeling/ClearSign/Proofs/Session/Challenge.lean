import ClearSign.Proofs.Descriptor.Shape
import ClearSign.Proofs.Session.Chunking
import ClearSign.Proofs.Session.Reset

/-!
Challenges are used once. Each binding that comes whole is held against the challenge that was drawn
last, and the next one is drawn whatever becomes of it; so no two bindings of a run are held against
the same draw, and where no number is drawn twice no binding is accepted twice.
-/

namespace ClearSign

open Tlv Refusal Shape Envelope

namespace ProxyBinding

/-- A payload answers a challenge: the one record with that tag says the number, and the signature
over all other bytes is valid for trusted names. -/
structure Answers (challenge : UInt32) (verifier : Verifier) (payload : Bytes) : Prop where
  record : ∃ r ∈ (records payload).1, r.tag = 0x12 ∧ r.asUInt32 = .ok challenge ∧
    ∀ r' ∈ (records payload).1, r'.tag = 0x12 → r' = r
  verified : ∃ a s b, Cut signatureTag payload a s b ∧
    verifier .trustedName (Sha256.digest (a ++ b)) s.value = true

variable {challenge challenge' : UInt32} {verifier : Verifier} {payload : Bytes}

/-- A payload answers no other challenge. -/
theorem Answers.unique (h : Answers challenge verifier payload)
    (h' : Answers challenge' verifier payload) : challenge' = challenge := by
  obtain ⟨r, hr, htag, hvalue, -⟩ := h.record
  obtain ⟨r', -, -, hvalue', honly⟩ := h'.record
  obtain rfl := honly r hr htag
  exact Except.ok.inj (hvalue'.symm.trans hvalue)

/-- What is read as a binding answers the challenge that it was held against. -/
theorem answers_of_parse {b : ProxyBinding} (h : parse challenge verifier payload = .ok b) :
    Answers challenge verifier payload := by
  obtain ⟨e, hparse, -⟩ := bind_eq_ok.mp h
  obtain ⟨hformed, hpresent, hverified⟩ :=
    (isSigned_iff (takes challenge) (by decide)).mp ⟨e, hparse⟩
  refine ⟨?_, hverified⟩
  obtain ⟨r, hr, htag⟩ := List.mem_map.mp (hpresent 0x12 (by decide))
  refine ⟨r, hr, htag, ?_, ?_⟩
  · have hnumber : isNumber 4 challenge r.value = true := hformed.fits_under hr htag
    rw [← Record.any_asUInt32] at hnumber
    obtain ⟨n, hread, hsame⟩ := (Option.any_eq_true _ _).mp hnumber
    obtain rfl : n = challenge := of_decide_eq_true hsame
    exact toOption_eq_some.mp hread
  · intro r' hr' htag'
    exact List.inj_on_of_nodup_map hformed.distinct hr' hr (htag'.trans htag.symm)

end ProxyBinding

/-- Nothing of a payload stays once it has come whole. -/
theorem Reassembly.idle_of_accept {limit : Nat} {r r' : Reassembly} {mark : UInt8}
    {chunk payload : Bytes} (h : r.accept limit mark chunk = .ok (some payload, r')) :
    r' = idle := by
  unfold accept at h
  obtain ⟨⟨p, data⟩, -, hrest⟩ := bind_eq_ok.mp h
  by_cases hover : p.announced < (p.bytes ++ data).length
  · simp only [if_pos hover, bind_eq_ok, throw_ne_ok, false_and, exists_false] at hrest
  · by_cases hmissing : (p.bytes ++ data).length < p.announced
    · simp only [if_neg hover, if_pos hmissing, pure_eq_ok, Prod.mk.injEq, reduceCtorEq,
        false_and] at hrest
    · simp only [if_neg hover, if_neg hmissing, pure_eq_ok, Prod.mk.injEq] at hrest
      exact hrest.2.symm

namespace Session

open ClearSign.Action

section

variable {device : Device} {s : Session} {mark : UInt8} {chunk payload : Bytes}

/-- A chunk that completes a payload is answered as the payload is. -/
theorem run_completed {command : Command} (hallowed : s.isAllowed command = true)
    (h : s.completed device mark chunk = some payload) :
    s.run device command mark chunk = s.finish device command payload := by
  unfold completed at h
  unfold run takeChunk Reassembly.feed
  rw [if_pos hallowed, exec_bind, exec_onPart, exec_get_bind]
  cases haccept : s.reassembly.accept device.settings.maxPayload mark chunk with
  | error e => simp [haccept] at h
  | ok accepted =>
    obtain ⟨payload?, r⟩ := accepted
    obtain rfl : payload? = some payload := by simpa [haccept] using h
    obtain rfl := Reassembly.idle_of_accept haccept
    simp only [exec_set_bind]
    rfl

/-- A binding that came whole is held against the challenge, and the next one is drawn. -/
theorem finish_binding (s : Session) (payload : Bytes) :
    s.finish device .proxyBinding payload =
      match ProxyBinding.parse s.challenge.value device.verifier payload with
      | .ok b => (.ok, { s with
          reassembly := Reassembly.idle
          challenge := s.challenge.roll device.registry
          cache := s.cache.addBinding b })
      | .error e => (StatusWord.ofError e, idle (s.challenge.roll device.registry)) := by
  unfold finish handle handleBinding
  rw [exec_get_bind, exec_modify_bind, exec_bind, exec_ofExcept]
  cases ProxyBinding.parse s.challenge.value device.verifier payload <;> rfl

/-- All that an operation does to the bindings: it leaves them, drops them all, or is the chunk that
completes a binding which is accepted. -/
theorem step_bindings (s : Session) (op : Operation) :
    (s.step device op).cache.bindings = s.cache.bindings ∨
    (s.step device op).cache.bindings = [] ∨
    ∃ mark chunk payload b, op = .command .proxyBinding mark chunk ∧
      s.completed device mark chunk = some payload ∧
      ProxyBinding.parse s.challenge.value device.verifier payload = .ok b ∧
      (s.step device op).cache.bindings = (s.cache.addBinding b).bindings := by
  let part : Session → List ProxyBinding := fun s => s.cache.bindings
  have hpart : ∀ s review parked, part { s with review := review, parked := parked } = part s :=
    fun _ _ _ => rfl
  cases op with
  | begin t => exact .inl (keeps_begin hpart t s)
  | park data => exact .inl rfl
  | append bs => exact .inl (keeps_append hpart bs s)
  | roll => exact .inl rfl
  | cleanup => exact .inr (.inl rfl)
  | command command mark chunk =>
    show part (s.run device command mark chunk).2 = part s ∨
      part (s.run device command mark chunk).2 = [] ∨ _
    obtain ⟨-, challenge, hwiped⟩ | ⟨-, -, r, hsame⟩ |
      ⟨-, hallowed, payload, r, hcompleted, hdone⟩ := run_cases device command mark chunk s
    · rw [hwiped]
      exact .inr (.inl rfl)
    · rw [hsame]
      exact .inl rfl
    · have hkept (hkeeps : Keeps part (handle device command payload)) :
          part (s.run device command mark chunk).2 = part s := by
        have h := hkeeps { s with reassembly := r }
        rwa [hdone] at h
      cases command with
      | field => exact .inl (hkept (keeps_handleField hpart payload))
      | transactionInfo => exact .inl (hkept (keeps_handleInfo hpart payload))
      | enumLabel => exact .inl (hkept (keeps_handleLabel (fun _ _ => rfl) payload))
      | proxyBinding =>
        have hrun := run_completed hallowed hcompleted
        rw [finish_binding] at hrun
        cases hparse : ProxyBinding.parse s.challenge.value device.verifier payload with
        | error e =>
          rw [hrun, hparse]
          exact .inr (.inl rfl)
        | ok b =>
          refine .inr (.inr ⟨mark, chunk, payload, b, rfl, hcompleted, hparse, ?_⟩)
          show part (s.run device .proxyBinding mark chunk).2 = _
          rw [hrun, hparse]

/-- The challenge is the number drawn last. -/
theorem challenge_drawn (device : Device) (ops : List Operation) :
    ∃ n, (after device ops).challenge = ⟨device.registry.draw n, n + 1⟩ := by
  induction ops using List.reverseRecOn with
  | nil => exact ⟨0, rfl⟩
  | append_singleton ops op ih =>
    obtain ⟨n, hn⟩ := ih
    rw [after_concat]
    rcases step_challenge (after device ops) op with hkept | hrolled
    · exact ⟨n, hkept.trans hn⟩
    · exact ⟨n + 1, by rw [hrolled, hn]; rfl⟩

/-- The numbers drawn in a run, in the order they were drawn in. -/
def drawn (device : Device) (ops : List Operation) : List UInt32 :=
  (List.range (after device ops).challenge.draws).map device.registry.draw

theorem length_drawn (device : Device) (ops : List Operation) :
    (drawn device ops).length = (after device ops).challenge.draws := by
  rw [drawn, List.length_map, List.length_range]

theorem getLast?_drawn (device : Device) (ops : List Operation) :
    (drawn device ops).getLast? = some (after device ops).challenge.value := by
  obtain ⟨n, hn⟩ := challenge_drawn device ops
  unfold drawn
  rw [hn, List.range_succ, List.map_append, List.map_singleton, List.getLast?_concat]

/-- No fewer numbers are drawn in more operations. -/
theorem draws_mono (device : Device) (ops : List Operation) {i j : Nat} (h : i ≤ j) :
    (after device (ops.take i)).challenge.draws ≤ (after device (ops.take j)).challenge.draws := by
  induction h with
  | refl => exact Nat.le_refl _
  | @step j _ ih =>
    refine Nat.le_trans ih ?_
    rw [List.take_add_one]
    cases ops[j]? with
    | none => simp
    | some op =>
      rw [Option.toList_some, after_concat]
      rcases step_challenge (after device (ops.take j)) op with hkept | hrolled
      · exact Nat.le_of_eq (congrArg Challenge.draws hkept).symm
      · rw [hrolled]
        exact Nat.le_succ _

/-- Operation `i` of a run brings a binding to its end. -/
def Presented (device : Device) (ops : List Operation) (i : Nat) (payload : Bytes) : Prop :=
  ∃ mark chunk, ops[i]? = some (.command .proxyBinding mark chunk) ∧
    (after device (ops.take i)).completed device mark chunk = some payload

/-- Operation `i` of a run brings a binding to its end, and is answered with success. -/
def Accepted (device : Device) (ops : List Operation) (i : Nat) (payload : Bytes) : Prop :=
  ∃ mark chunk, ops[i]? = some (.command .proxyBinding mark chunk) ∧
    (after device (ops.take i)).completed device mark chunk = some payload ∧
    ((after device (ops.take i)).run device .proxyBinding mark chunk).1 = .ok

section

variable {ops : List Operation} {i j : Nat}

theorem Accepted.presented (h : Accepted device ops i payload) : Presented device ops i payload := by
  obtain ⟨mark, chunk, hop, hcompleted, -⟩ := h
  exact ⟨mark, chunk, hop, hcompleted⟩

theorem after_take_succ {op : Operation} (h : ops[i]? = some op) :
    after device (ops.take (i + 1)) = (after device (ops.take i)).step device op := by
  rw [List.take_add_one, h, Option.toList_some, after_concat]

/-- A binding is accepted just if it can be read with the challenge at hand. -/
theorem Presented.accepted_iff (h : Presented device ops i payload) :
    Accepted device ops i payload ↔
      ∃ b, ProxyBinding.parse (after device (ops.take i)).challenge.value device.verifier payload =
        .ok b := by
  obtain ⟨mark, chunk, hop, hcompleted⟩ := h
  have hrun : (after device (ops.take i)).run device .proxyBinding mark chunk =
      (after device (ops.take i)).finish device .proxyBinding payload :=
    run_completed rfl hcompleted
  rw [finish_binding] at hrun
  constructor
  · rintro ⟨mark', chunk', hop', -, hok⟩
    obtain ⟨rfl, rfl⟩ : mark = mark' ∧ chunk = chunk' := by simpa [hop] using hop'
    cases hparse : ProxyBinding.parse (after device (ops.take i)).challenge.value device.verifier
      payload with
    | error e =>
      rw [hrun, hparse] at hok
      exact absurd hok (StatusWord.ofError_ne_ok e)
    | ok b => exact ⟨b, rfl⟩
  · rintro ⟨b, hparse⟩
    refine ⟨mark, chunk, hop, hcompleted, ?_⟩
    rw [hrun, hparse]

theorem Presented.rolls (h : Presented device ops i payload) :
    (after device (ops.take (i + 1))).challenge =
      (after device (ops.take i)).challenge.roll device.registry := by
  obtain ⟨mark, chunk, hop, hcompleted⟩ := h
  rw [after_take_succ hop]
  show ((after device (ops.take i)).run device .proxyBinding mark chunk).2.challenge = _
  rw [run_challenge, if_pos ⟨rfl, by rw [hcompleted]; rfl⟩]

/-- No two bindings are held against the same draw. -/
theorem Presented.draws_lt (h : Presented device ops i payload) (hij : i < j) :
    (after device (ops.take i)).challenge.draws < (after device (ops.take j)).challenge.draws := by
  have hnext := draws_mono device ops hij
  rw [h.rolls] at hnext
  exact hnext

end

/-- What is accepted answers the number drawn last. -/
theorem Accepted.answers (h : Accepted device ops i payload) :
    ∃ n, (after device (ops.take i)).challenge.draws = n + 1 ∧
      n < (after device ops).challenge.draws ∧
      ProxyBinding.Answers (device.registry.draw n) device.verifier payload := by
  obtain ⟨n, hn⟩ := challenge_drawn device (ops.take i)
  obtain ⟨b, hparse⟩ := h.presented.accepted_iff.mp h
  rw [hn] at hparse ⊢
  refine ⟨n, rfl, ?_, ProxyBinding.answers_of_parse hparse⟩
  obtain ⟨mark, chunk, hop, -⟩ := h
  have hle := draws_mono device ops (Nat.le_of_lt (List.getElem?_eq_some_iff.mp hop).1)
  rw [List.take_length, hn] at hle
  exact hle

/-- A payload that is accepted twice answers one number that was drawn twice. -/
theorem Accepted.eq (h : Accepted device ops i payload) (h' : Accepted device ops j payload)
    (hdistinct : (drawn device ops).Nodup) : i = j := by
  obtain ⟨n, hdraws, hn, hanswers⟩ := h.answers
  obtain ⟨n', hdraws', hn', hanswers'⟩ := h'.answers
  have hsame : n' = n :=
    List.inj_on_of_nodup_map hdistinct (List.mem_range.mpr hn') (List.mem_range.mpr hn)
      (hanswers.unique hanswers')
  rcases Nat.lt_trichotomy i j with hlt | heq | hgt
  · have := h.presented.draws_lt hlt
    omega
  · exact heq
  · have := h'.presented.draws_lt hgt
    omega

/-- The bindings that are kept come from payloads that were accepted, and answered the challenge. -/
theorem bindings_answer (ops : List Operation) (i : Nat) :
    (after device (ops.take (i + 1))).cache.bindings = (after device (ops.take i)).cache.bindings ∨
    (after device (ops.take (i + 1))).cache.bindings = [] ∨
    ∃ payload b, Accepted device ops i payload ∧
      ProxyBinding.parse (after device (ops.take i)).challenge.value device.verifier payload =
        .ok b ∧
      ProxyBinding.Answers (after device (ops.take i)).challenge.value device.verifier payload ∧
      (after device (ops.take (i + 1))).cache.bindings =
        ((after device (ops.take i)).cache.addBinding b).bindings := by
  cases hop : ops[i]? with
  | none =>
    left
    rw [List.take_add_one, hop, Option.toList_none, List.append_nil]
  | some op =>
    rw [after_take_succ hop]
    obtain hsame | hnone | ⟨mark, chunk, payload, b, rfl, hcompleted, hparse, hadded⟩ :=
      @step_bindings device (after device (ops.take i)) op
    · exact .inl hsame
    · exact .inr (.inl hnone)
    · have hpresented : Presented device ops i payload := ⟨mark, chunk, hop, hcompleted⟩
      exact .inr (.inr ⟨payload, b, hpresented.accepted_iff.mpr ⟨b, hparse⟩, hparse,
        ProxyBinding.answers_of_parse hparse, hadded⟩)

end

/-- Challenges are used once. A binding that comes whole is held against the number drawn last, and
is accepted just if it is signed for trusted names and answers it; either way one more number is
drawn. Only such bindings are kept. No two bindings of a run are held against the same draw, and
where no number is drawn twice no payload is accepted twice. -/
theorem challenge_used_once (device : Device) (ops : List Operation) :
    (∀ i payload, Presented device ops i payload →
      let s := after device (ops.take i)
      let s' := after device (ops.take (i + 1))
      (drawn device (ops.take i)).getLast? = some s.challenge.value ∧
      drawn device (ops.take (i + 1)) = drawn device (ops.take i) ++ [s'.challenge.value] ∧
      (Accepted device ops i payload ↔
        ∃ b, ProxyBinding.parse s.challenge.value device.verifier payload = .ok b)) ∧
    (∀ i, let s := after device (ops.take i)
      let s' := after device (ops.take (i + 1))
      s'.cache.bindings = s.cache.bindings ∨ s'.cache.bindings = [] ∨
      ∃ payload b, Accepted device ops i payload ∧
        ProxyBinding.parse s.challenge.value device.verifier payload = .ok b ∧
        ProxyBinding.Answers s.challenge.value device.verifier payload ∧
        s'.cache.bindings = (s.cache.addBinding b).bindings) ∧
    (∀ i j payload payload', Presented device ops i payload → Presented device ops j payload' →
      i < j → (drawn device (ops.take i)).length < (drawn device (ops.take j)).length) ∧
    ((drawn device ops).Nodup → ∀ i j payload, Accepted device ops i payload →
      Accepted device ops j payload → i = j) := by
  refine ⟨?_, fun i => bindings_answer ops i, ?_, ?_⟩
  · intro i payload h s s'
    refine ⟨getLast?_drawn device (ops.take i), ?_, h.accepted_iff⟩
    obtain ⟨n, hn⟩ := challenge_drawn device (ops.take i)
    have hnext : s'.challenge = ⟨device.registry.draw (n + 1), n + 2⟩ := by
      rw [h.rolls, hn]
      rfl
    unfold drawn
    rw [hnext, hn, List.range_succ, List.map_append]
    rfl
  · intro i j _ _ h _ hij
    rw [length_drawn, length_drawn]
    exact h.draws_lt hij
  · exact fun hdistinct i j payload h h' => h.eq h' hdistinct

open Tlv in
/-- A binding of the contract at 7 to that at 8, in answer to a challenge. -/
def sampleBinding (challenge : UInt8) : Bytes :=
  write 0x01 [ProxyBinding.structureType] ++ write 0x02 [1] ++ write 0x12 [challenge] ++
    write 0x22 [7] ++ write 0x23 [1] ++ write 0x42 [8] ++ write 0x43 [0] ++ write 0x15 []

/-- A binding that was accepted is sent again once all has been dropped, and is refused. -/
theorem challenge_used_once_dropped :
    let sample := sampleDevice .transaction
    let device := { sample with registry := { sample.registry with draw := UInt32.ofNat } }
    let ops := [whole .proxyBinding (sampleBinding 0), .cleanup,
      whole .proxyBinding (sampleBinding 0)]
    Accepted device ops 0 (sampleBinding 0) ∧ Presented device ops 2 (sampleBinding 0) ∧
      ¬ Accepted device ops 2 (sampleBinding 0) := by
  intro sample device ops
  have hfirst : Accepted device ops 0 (sampleBinding 0) :=
    ⟨_, _, rfl, by decide +kernel, by decide +kernel⟩
  refine ⟨hfirst, ⟨_, _, rfl, by decide +kernel⟩, ?_⟩
  intro hagain
  obtain ⟨-, -, -, honce⟩ := challenge_used_once device ops
  have hsame := honce (by decide +kernel) 0 2 _ hfirst hagain
  cases hsame

end Session

end ClearSign
