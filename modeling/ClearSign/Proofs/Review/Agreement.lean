import ClearSign.Proofs.Review.Neighbours

/-!
What can be told from two stacks of calls that use the same slots. Where their calls differ only in
slots that a step of a review does not look at, the step answers the same, shows the same rows, and
leaves stacks that again differ in no other slots.
-/

namespace ClearSign

open Refusal

namespace CallStack

/-- The same slots are in use and the same call is current; in the slots that are known, the calls
are the same too. -/
structure Alike (known : Nat → Prop) (s t : CallStack) : Prop where
  used : s.slots.map Option.isSome = t.slots.map Option.isSome
  current : s.current = t.current
  batchTotal : s.batchTotal = t.batchTotal
  batchSize : s.batchSize = t.batchSize
  calls : ∀ slot, known slot → s.call? slot = t.call? slot

namespace Alike

variable {known : Nat → Prop} {s t : CallStack} {mode : SigningMode}

theorem length (h : s.Alike known t) : s.slots.length = t.slots.length := by
  simpa using congrArg List.length h.used

theorem isSome_call? (h : s.Alike known t) (slot : Nat) :
    (s.call? slot).isSome = (t.call? slot).isSome := by
  have hused (s : CallStack) :
      (s.call? slot).isSome = ((s.slots.map Option.isSome)[slot]?).getD false := by
    unfold call?
    rw [List.getElem?_map]
    rcases s.slots[slot]? with _ | ⟨_ | c⟩ <;> rfl
  rw [hused s, hused t, h.used]

theorem places (h : s.Alike known t) : s.places = t.places := by
  unfold CallStack.places
  rw [h.length]
  exact List.filter_congr fun slot _ => h.isSome_call? slot

theorem count (h : s.Alike known t) : s.count = t.count := by
  rw [← length_places, ← length_places, h.places]

theorem isEmpty_live (h : s.Alike known t) : s.live.isEmpty = t.live.isEmpty := by
  have hcount := h.count
  unfold CallStack.count at hcount
  rw [Bool.eq_iff_iff, List.isEmpty_iff, List.isEmpty_iff, ← List.length_eq_zero_iff,
    ← List.length_eq_zero_iff, hcount]

theorem placesBefore (h : s.Alike known t) (slot : Nat) :
    s.placesBefore slot = t.placesBefore slot := by
  unfold CallStack.placesBefore
  rw [h.places]

theorem placesAfter (h : s.Alike known t) (slot : Nat) :
    s.placesAfter slot = t.placesAfter slot := by
  unfold CallStack.placesAfter
  rw [h.places]

theorem isHashed (h : s.Alike known t) : s.isHashed mode = t.isHashed mode := by
  unfold CallStack.isHashed isRoot
  rw [h.current, h.places]

/-- A slot that is found in one of the stacks, and is known, has the same call in the other. -/
theorem bind_call? (h : s.Alike known t) {found : Option Nat} (hknown : ∀ slot ∈ found, known slot) :
    found.bind s.call? = found.bind t.call? := by
  cases found with
  | none => rfl
  | some slot => exact h.calls slot (hknown slot rfl)

theorem currentCall (h : s.Alike known t) (hknown : ∀ slot ∈ s.current, known slot) :
    s.currentCall = t.currentCall := by
  unfold CallStack.currentCall
  rw [h.bind_call? hknown, h.current]

theorem root (h : s.Alike known t) (hknown : ∀ slot ∈ s.places.head?, known slot) :
    s.root = t.root := by
  rw [root_eq_bind, root_eq_bind, h.bind_call? hknown, h.places]

theorem getLast?_live (h : s.Alike known t) (hknown : ∀ slot ∈ s.places.getLast?, known slot) :
    s.live.getLast? = t.live.getLast? := by
  rw [CallStack.getLast?_live, CallStack.getLast?_live, h.bind_call? hknown, h.places]

/-- Calls next to the current one can be told apart if those on that side are known. -/
theorem emptyRun (h : s.Alike known t) {around : CallStack → Nat → List Nat}
    (haround : ∀ slot, around s slot = around t slot)
    (hknown : ∀ slot ∈ s.current, ∀ i ∈ around s slot, known i) :
    s.emptyRun (around s) = t.emptyRun (around t) := by
  unfold CallStack.emptyRun
  rw [← h.current]
  cases hslot : s.current with
  | none => rfl
  | some slot =>
    simp only
    rw [← haround slot]
    apply takeWhile_congr
    intro i hi
    rw [h.calls i (hknown slot hslot i hi)]

theorem modifyAt (h : s.Alike known t) (slot : Nat) (f : Call → Call) :
    (s.modifyAt slot f).Alike known (t.modifyAt slot f) where
  used := by
    have hused (s : CallStack) :
        (s.modifyAt slot f).slots.map Option.isSome = s.slots.map Option.isSome := by
      apply List.ext_getElem?
      intro i
      unfold CallStack.modifyAt
      rw [List.getElem?_map, List.getElem?_modify, List.getElem?_map]
      split <;> rcases s.slots[i]? with _ | ⟨_ | c⟩ <;> rfl
    rw [hused s, hused t, h.used]
  current := h.current
  batchTotal := h.batchTotal
  batchSize := h.batchSize
  calls i hi := by rw [call?_modifyAt, call?_modifyAt, h.calls i hi]

theorem leave (h : s.Alike known t) (slot : Nat) : (s.leave slot).Alike known (t.leave slot) where
  used := by
    have hused (s : CallStack) :
        (s.leave slot).slots.map Option.isSome = (s.slots.map Option.isSome).set slot false :=
      List.map_set
    rw [hused s, hused t, h.used]
  current := h.current
  batchTotal := h.batchTotal
  batchSize := h.batchSize
  calls i hi := by rw [call?_leave, call?_leave, h.calls i hi]

/-- The mark of the current call can be moved in both. -/
theorem withCurrent (h : s.Alike known t) (current : Option Nat) :
    { s with current := current }.Alike known { t with current := current } :=
  { h with current := rfl }

theorem modifyCurrent (h : s.Alike known t) (f : Call → Call) :
    Matched (Alike known) (s.modifyCurrent f) (t.modifyCurrent f) := by
  unfold CallStack.modifyCurrent CallStack.currentCall
  rw [← h.current]
  cases s.current with
  | none => exact .refused _
  | some slot =>
    have hsome := h.isSome_call? slot
    rw [Option.bind_some, Option.bind_some]
    cases hs : s.call? slot <;> cases ht : t.call? slot <;> rw [hs, ht] at hsome
    · exact .refused _
    · cases hsome
    · cases hsome
    · exact .answered (h.modifyAt slot f)

theorem pop (h : s.Alike known t) : Matched (Alike known) s.pop t.pop := by
  unfold CallStack.pop
  rw [← h.current]
  cases s.current with
  | none => exact .refused _
  | some slot =>
    simp only
    rw [← h.placesBefore]
    exact .answered ((h.leave slot).withCurrent _)

theorem selectRoot (h : s.Alike known t) : Matched (Alike known) s.selectRoot t.selectRoot := by
  unfold CallStack.selectRoot
  rw [← h.places]
  cases s.places.head? with
  | none => exact .refused _
  | some slot => exact .answered (h.withCurrent _)

/-- The first call that a descriptor is about can be told if all calls are known. -/
theorem select (h : s.Alike known t) (hknown : ∀ slot ∈ s.places, known slot) (cache : Cache)
    (contract : Address) (selector : Selector) (chain : ChainId) :
    Matched (Alike known) (s.select cache contract selector chain)
      (t.select cache contract selector chain) := by
  have hfind : s.places.find? (fun i => (s.call? i).any (·.answers cache contract selector chain)) =
      t.places.find? fun i => (t.call? i).any (·.answers cache contract selector chain) := by
    rw [← List.head?_filter, ← List.head?_filter, ← h.places]
    congr 1
    apply List.filter_congr
    intro i hi
    rw [h.calls i (hknown i hi)]
  unfold CallStack.select
  rw [← hfind]
  split
  · exact .refused _
  · exact .answered (h.withCurrent _)

theorem restarted (h : s.Alike known t) :
    { s with slots := [], current := none }.Alike known { t with slots := [], current := none } :=
  { h with used := rfl, current := rfl, calls := fun _ _ => rfl }

theorem opened (h : s.Alike known t) (c : Call) :
    { s with slots := s.slots ++ [some c] }.Alike known { t with slots := t.slots ++ [some c] } where
  used := by rw [List.map_append, List.map_append, h.used]
  current := h.current
  batchTotal := h.batchTotal
  batchSize := h.batchSize
  calls i hi := by
    show (s.slots ++ [some c])[i]?.join = (t.slots ++ [some c])[i]?.join
    rw [List.getElem?_append, List.getElem?_append, ← h.length]
    split
    · exact h.calls i hi
    · rfl

/-- What a new call takes over can be told if the last one is known. -/
theorem push (h : s.Alike known t) (hknown : ∀ slot ∈ s.places.getLast?, known slot)
    (settings : Settings) (registry : Registry) (new : NewCall) :
    Matched (fun p q => p.1 = q.1 ∧ p.2.Alike known q.2) (s.push settings registry new)
      (t.push settings registry new) := by
  unfold CallStack.push
  rw [← h.count, ← h.getLast?_live hknown, ← h.isEmpty_live]
  by_cases hfull : settings.maxCalls ≤ s.count
  · simp only [if_pos hfull]
    exact .refused _
  · simp only [if_neg hfull]
    have hopened (c : Call) : Matched (fun p q : Nat × CallStack => p.1 = q.1 ∧ p.2.Alike known q.2)
        (.ok (let s := if s.live.isEmpty then { s with slots := [], current := none } else s
          (s.slots.length, { s with slots := s.slots ++ [some c] })))
        (.ok (let t := if s.live.isEmpty then { t with slots := [], current := none } else t
          (t.slots.length, { t with slots := t.slots ++ [some c] }))) := by
      by_cases hnone : s.live.isEmpty = true
      · rw [if_pos hnone, if_pos hnone]
        exact .answered ⟨rfl, h.restarted.opened c⟩
      · rw [if_neg hnone, if_neg hnone]
        exact .answered ⟨h.length, h.opened c⟩
    cases s.live.getLast? with
    | some last => exact hopened _
    | none =>
      cases registry.wallet with
      | error e => exact .refused e
      | ok wallet => exact hopened _

end Alike

end CallStack

namespace Review

open ClearSign.Action

/-- The same rows, and stacks of calls that differ in no slot that is known. -/
structure Alike (known : Nat → Prop) (r r' : Review) : Prop where
  calls : r.calls.Alike known r'.calls
  table : r.table = r'.table

/-- Reviews that are alike, with something that holds of the calls. -/
def Tied (known : Nat → Prop) (I : CallStack → Prop) (r r' : Review) : Prop :=
  r.Alike known r' ∧ I r.calls

section

variable {known : Nat → Prop} {I : CallStack → Prop} {host : Host}

/-- A row depends on the calls by whether the current one is complete. -/
theorem parallel_addRow (hcurrent : ∀ s, I s → ∀ slot ∈ s.current, known slot) (kind : RowKind)
    (key value : String) (extra : Option Extra) :
    Parallel (Tied known I) (addRow host kind key value extra)
      (addRow host kind key value extra) := by
  apply Parallel.update
  rintro r r' ⟨halike, hr⟩
  have hverified : r.calls.isVerified = r'.calls.isVerified := by
    unfold CallStack.isVerified
    rw [halike.calls.currentCall (hcurrent _ hr)]
  dsimp only
  rw [← hverified, ← halike.table]
  cases r.table.add host.settings.maxRows (Row.make kind key value extra r.calls.isVerified) with
  | error e => exact .refused e
  | ok table => exact .answered ⟨⟨halike.calls, rfl⟩, hr⟩

theorem parallel_addIntent (hcurrent : ∀ s, I s → ∀ slot ∈ s.current, known slot)
    (operation : String) :
    Parallel (Tied known I) (addIntent host operation) (addIntent host operation) := by
  refine .get_bind fun r r' h => ?_
  rw [← h.1.calls.batchSize]
  exact parallel_addRow hcurrent _ _ _ _

theorem parallel_addDestination (hcurrent : ∀ s, I s → ∀ slot ∈ s.current, known slot) (c : Call) :
    Parallel (Tied known I) (addDestination host c) (addDestination host c) := by
  unfold addDestination
  split
  · exact parallel_addRow hcurrent _ _ _ _
  · exact parallel_addRow hcurrent _ _ _ _

/-- A call is described by what is known of it, of the current call and of the first one. -/
theorem parallel_describe (hcurrent : ∀ s, I s → ∀ slot ∈ s.current, known slot)
    (hroot : ∀ s, I s → ∀ slot ∈ s.places.head?, known slot) {slot : Nat} (hslot : known slot)
    (hleave : ∀ s, I s → I (s.leave slot)) :
    Parallel (Tied known I) (describe host slot) (describe host slot) := by
  refine .get_bind fun r r' h => ?_
  rw [← h.1.calls.calls slot hslot]
  cases r.calls.call? slot with
  | none => exact .throw _
  | some c =>
    refine .bind (.set ⟨⟨h.1.calls.leave slot, h.1.table⟩, hleave _ h.2⟩) fun _ => ?_
    cases hamount : c.amount with
    | none => exact .bind (parallel_addIntent hcurrent _) fun _ => parallel_addDestination hcurrent c
    | some amount =>
      refine .get_bind fun u u' h => ?_
      rw [← h.1.calls.root (hroot _ h.2)]
      exact .bind (.ofExcept _) fun _ => .bind (parallel_addIntent hcurrent _) fun _ =>
        .bind (parallel_addRow hcurrent _ _ _ _) fun _ => parallel_addDestination hcurrent c

end

section

variable {known : Nat → Prop} {host : Host} {r r' : Review}

/-- The current call is known, and so are the calls up to one that is live. -/
structure Overlooks (known : Nat → Prop) (mark : Nat) (s : CallStack) : Prop where
  current : ∀ slot ∈ s.current, known slot
  mark_mem : mark ∈ s.places
  upTo : ∀ slot ∈ s.places, slot ≤ mark → known slot

theorem Overlooks.root {mark : Nat} {s : CallStack} (h : Overlooks known mark s) :
    ∀ slot ∈ s.places.head?, known slot := by
  intro slot hslot
  exact h.upTo slot (List.mem_of_mem_head? hslot) (CallStack.head?_places_le hslot h.mark_mem)

theorem Overlooks.leave {mark slot : Nat} {s : CallStack} (h : Overlooks known mark s)
    (hslot : slot ≠ mark) : Overlooks known mark (s.leave slot) := by
  have hplaces (i : Nat) : i ∈ (s.leave slot).places ↔ i ≠ slot ∧ i ∈ s.places := by
    rw [CallStack.mem_places, CallStack.mem_places, CallStack.call?_leave]
    by_cases hi : i = slot <;> simp [hi]
  exact ⟨h.current, (hplaces mark).mpr ⟨hslot.symm, h.mark_mem⟩,
    fun i hi => h.upTo i ((hplaces i).mp hi).2⟩

/-- An action answers two reviews alike, and leaves them alike. -/
structure ActsAlike (known : Nat → Prop) (a : Action Review Unit) (r r' : Review) : Prop where
  answer : (a.exec r).1 = (a.exec r').1
  left : (a.exec r).2.Alike known (a.exec r').2

theorem actsAlike_of_parallel {I : CallStack → Prop} {a : Action Review Unit}
    (ha : Parallel (Tied known I) a a) (h : r.Alike known r') (hI : I r.calls) :
    ActsAlike known a r r' := by
  obtain ⟨hanswer, hleft, -⟩ := ha r r' ⟨h, hI⟩
  exact ⟨hanswer, hleft⟩

/-- Calls that are known, other than one that stays, are described alike. -/
theorem actsAlike_forM_describe {mark : Nat} {slots : List Nat} (h : r.Alike known r')
    (hslots : ∀ slot ∈ slots, known slot) (hmark : mark ∉ slots)
    (hover : Overlooks known mark r.calls) :
    ActsAlike known (slots.forM (describe host)) r r' := by
  refine actsAlike_of_parallel (I := Overlooks known mark) (Parallel.forM ?_) h hover
  intro slot hslot
  apply parallel_describe (fun s h => h.current) (fun s h => h.root) (hslots slot hslot)
  intro s h
  apply h.leave
  rintro rfl
  exact hmark hslot

/-- What an action sees of either review first decides alike what it does. -/
theorem ActsAlike.get_bind {f : Review → Action Review Unit} (hf : f r = f r')
    (h : ActsAlike known (f r) r r') : ActsAlike known (get >>= f) r r' := by
  constructor
  · rw [exec_get_bind, exec_get_bind, ← hf]
    exact h.answer
  · rw [exec_get_bind, exec_get_bind, ← hf]
    exact h.left

/-- Calls without arguments on one side of the current one leave, among calls that are known. -/
theorem actsAlike_flush (around : CallStack → Nat → List Nat) (h : r.Alike known r')
    (haround : ∀ slot, around r.calls slot = around r'.calls slot)
    (hknown : ∀ slot ∈ r.calls.current, ∀ i ∈ around r.calls slot, known i)
    (hover : ∀ slot ∈ r.calls.current,
      ∃ mark, mark ∉ around r.calls slot ∧ Overlooks known mark r.calls) :
    ActsAlike known
      (get >>= fun r => (r.calls.emptyRun (around r.calls)).forM (describe host)) r r' := by
  apply ActsAlike.get_bind
  · rw [h.calls.emptyRun haround hknown]
  · cases hslot : r.calls.current with
    | none =>
      have hnone : r.calls.emptyRun (around r.calls) = [] := by
        unfold CallStack.emptyRun
        rw [hslot]
      rw [hnone]
      exact ⟨rfl, h⟩
    | some slot =>
      obtain ⟨mark, hmark, hover⟩ := hover slot hslot
      apply actsAlike_forM_describe h _ _ hover
      · intro i hi
        exact hknown slot hslot i (CallStack.mem_of_mem_emptyRun hslot hi)
      · intro hmem
        exact hmark (CallStack.mem_of_mem_emptyRun hslot hmem)

theorem actsAlike_flushBefore (h : r.Alike known r')
    (hplaced : ∀ slot ∈ r.calls.current, slot ∈ r.calls.places)
    (hcurrent : ∀ slot ∈ r.calls.current, known slot)
    (hbefore : ∀ slot ∈ r.calls.current, ∀ i ∈ r.calls.placesBefore slot, known i) :
    ActsAlike known (flushBefore host) r r' := by
  apply actsAlike_flush CallStack.placesBefore h h.calls.placesBefore hbefore
  intro slot hslot
  refine ⟨slot, by simp [CallStack.placesBefore], hcurrent, hplaced slot hslot, ?_⟩
  intro i hi hle
  rcases Nat.eq_or_lt_of_le hle with rfl | hlt
  · exact hcurrent i hslot
  · apply hbefore slot hslot
    simp [CallStack.placesBefore, hi, hlt]

theorem actsAlike_flushAfter (h : r.Alike known r')
    (hplaced : ∀ slot ∈ r.calls.current, slot ∈ r.calls.places)
    (hcurrent : ∀ slot ∈ r.calls.current, known slot)
    (hroot : ∀ slot ∈ r.calls.places.head?, known slot)
    (hafter : ∀ slot ∈ r.calls.current, ∀ i ∈ r.calls.placesAfter slot, known i) :
    ActsAlike known (flushAfter host) r r' := by
  apply actsAlike_flush CallStack.placesAfter h h.calls.placesAfter hafter
  intro slot hslot
  have hlive := hplaced slot hslot
  obtain ⟨first, hfirst⟩ := Option.ne_none_iff_exists'.mp
    (mt List.head?_eq_none_iff.mp (List.ne_nil_of_mem hlive))
  have hle : first ≤ slot := CallStack.head?_places_le hfirst hlive
  refine ⟨first, by simp [CallStack.placesAfter, hle], hcurrent, List.mem_of_mem_head? hfirst, ?_⟩
  intro i hi hsame
  obtain rfl : i = first := Nat.le_antisymm hsame (CallStack.head?_places_le hfirst hi)
  exact hroot i hfirst

/-- What comes behind an action starts from what the action left. -/
theorem ActsAlike.bind {a b : Action Review Unit} (ha : ActsAlike known a r r')
    (hb : ∀ mid mid', a.exec r = (.ok (), mid) → mid.Alike known mid' →
      ActsAlike known b mid mid') : ActsAlike known (a >>= fun _ => b) r r' := by
  have htied := exec_bind_tied (f := fun _ => b) (g := fun _ => b) ⟨ha.answer, ha.left⟩
    fun _ mid mid' hr hmid => ⟨(hb mid mid' hr hmid).answer, (hb mid mid' hr hmid).left⟩
  exact ⟨htied.1, htied.2⟩

theorem actsAlike_onCalls {f : CallStack → Except Error CallStack} (h : r.Alike known r')
    (hf : Matched (CallStack.Alike known) (f r.calls) (f r'.calls)) :
    ActsAlike known (onCalls f) r r' := by
  let change (r : Review) : Except Error Review := do return { r with calls := ← f r.calls }
  have hmatched : Matched (Alike known) (change r) (change r') := by
    unfold change
    generalize f r.calls = x at hf ⊢
    generalize f r'.calls = y at hf ⊢
    cases hf with
    | refused e => exact .refused e
    | answered hcalls => exact .answered ⟨hcalls, h.table⟩
  obtain ⟨hanswer, hleft⟩ := exec_update_matched (f := change) (g := change) h hmatched
  exact ⟨hanswer, hleft⟩

/-- A new call takes over from the last one, which is known. -/
theorem actsAlike_openCall (h : r.Alike known r')
    (hlast : ∀ slot ∈ r.calls.places.getLast?, known slot) (new : NewCall) :
    ActsAlike known (do let _ ← openCall host new) r r' := by
  have hexec (r : Review) : (do let _ ← openCall host new : Action Review Unit).exec r =
      (onCalls fun s => (s.push host.settings host.registry new).map Prod.snd).exec r := by
    unfold openCall onCalls
    simp only [exec_bind, exec_get, exec_ofExcept, exec_update]
    cases r.calls.push host.settings host.registry new <;> rfl
  have hpush : Matched (CallStack.Alike known)
      ((r.calls.push host.settings host.registry new).map Prod.snd)
      ((r'.calls.push host.settings host.registry new).map Prod.snd) := by
    have hmatched := h.calls.push hlast host.settings host.registry new
    generalize r.calls.push host.settings host.registry new = x at hmatched ⊢
    generalize r'.calls.push host.settings host.registry new = y at hmatched ⊢
    cases hmatched with
    | refused e => exact .refused e
    | answered hopened => exact .answered hopened.2
  obtain ⟨hanswer, hleft⟩ := actsAlike_onCalls
    (f := fun s => (s.push host.settings host.registry new).map Prod.snd) h hpush
  constructor
  · rwa [hexec, hexec]
  · rwa [hexec, hexec]

/-- The descriptor that the current call gets is announced, by a row that closes an intent or not
as the call is then complete or not. -/
theorem actsAlike_attach (h : r.Alike known r') (hcurrent : ∀ slot ∈ r.calls.current, known slot)
    (info : TransactionInfo) : ActsAlike known (attach host info) r r' := by
  apply ActsAlike.get_bind
  · rw [h.calls.isHashed]
  · apply (actsAlike_onCalls h (h.calls.modifyCurrent _)).bind
    intro mid mid' hmodify hmid
    have hstill : ∀ slot ∈ mid.calls.current, known slot := by
      obtain ⟨s, hs, rfl⟩ := onCalls_answers.mp hmodify
      obtain ⟨slot, c, -, -, rfl⟩ := CallStack.modifyCurrent_eq_ok hs
      exact hcurrent
    split
    · apply (actsAlike_of_parallel (parallel_addIntent (fun s hs => hs) _) hmid hstill).bind
      intro u u' _ hu
      split
      · exact actsAlike_onCalls hu hu.calls.pop
      · exact ⟨rfl, hu⟩
    · exact ⟨rfl, hmid⟩

end

end Review

end ClearSign
