import ClearSign.Proofs.Review.Order
import ClearSign.Proofs.Review.Telling

/-!
How the first call of a transaction keeps its place. It is in the first slot. Flushing behind a
call and settling only touch slots behind that one: a call that is held to its digest is not the
first, so a call is left before each one that leaves. Flushing before a call stops at the first
one, which has arguments unless it is alone.
-/

namespace ClearSign

namespace Call

/-- The same call later on: from where and to where it goes, what it sends, its chain and the
function that it calls. -/
structure Remains (c c' : Call) : Prop where
  sender : c'.sender = c.sender
  target : c'.target = c.target
  amount : c'.amount = c.amount
  chain : c'.chain = c.chain
  selector : c'.calldata.map Calldata.selector = c.calldata.map Calldata.selector

namespace Remains

variable {c c' c'' : Call}

theorem refl (c : Call) : c.Remains c := ⟨rfl, rfl, rfl, rfl, rfl⟩

theorem trans (h : c.Remains c') (h' : c'.Remains c'') : c.Remains c'' where
  sender := h'.sender.trans h.sender
  target := h'.target.trans h.target
  amount := h'.amount.trans h.amount
  chain := h'.chain.trans h.chain
  selector := h'.selector.trans h.selector

theorem withField (payload : Bytes) (c : Call) : c.Remains (c.withField payload) :=
  ⟨rfl, rfl, rfl, rfl, rfl⟩

theorem withInfo (info : TransactionInfo) (c : Call) : c.Remains (c.withInfo info) :=
  ⟨rfl, rfl, rfl, rfl, rfl⟩

theorem append {data data' : Calldata} {bs : Bytes} (hc : c.calldata = some data)
    (h : data.append bs = .ok data') : c.Remains { c with calldata := some data' } := by
  refine ⟨rfl, rfl, rfl, rfl, ?_⟩
  unfold Calldata.append at h
  split at h
  · cases h
    rw [hc]
    rfl
  · cases h

end Remains

end Call

namespace CallStack

theorem not_isRoot_of_isHashed {s : CallStack} (h : s.isHashed .transaction = true) :
    s.isRoot = false := by
  unfold isHashed at h
  simpa using h

/-- The first of the live calls is in the first slot, and is the one that was opened there; some
live call is current. -/
structure Pinned (root : Call) (s : CallStack) : Prop where
  root : ∃ c, s.root = some c ∧ s.call? 0 = some c ∧ root.Remains c
  current : s.currentCall.isSome = true

namespace Pinned

variable {s t : CallStack} {root : Call}

theorem of_call? {c : Call} (hcall : s.call? 0 = some c) (hroot : root.Remains c)
    (hcurrent : s.currentCall.isSome = true) : s.Pinned root :=
  ⟨⟨c, (root_eq (head?_places hcall)).trans hcall, hcall, hroot⟩, hcurrent⟩

/-- A call alone in the first slot. -/
theorem alone (hslots : s.slots = [some root]) (hcurrent : s.current = some 0) :
    s.Pinned root := by
  have hcall : s.call? 0 = some root := by
    unfold call?
    rw [hslots]
    rfl
  refine .of_call? hcall (.refl root) ?_
  unfold currentCall
  rw [hcurrent, Option.bind_some, hcall]
  rfl

theorem count_ne_zero (h : s.Pinned root) : s.count ≠ 0 := by
  obtain ⟨c, -, hcall, -⟩ := h.root
  exact fun hnone => live_ne_nil hcall (List.length_eq_zero_iff.mp hnone)

theorem exists_current (h : s.Pinned root) :
    ∃ slot c, s.current = some slot ∧ s.call? slot = some c := by
  obtain ⟨c, hc⟩ := Option.isSome_iff_exists.mp h.current
  obtain ⟨slot, hslot, hcall⟩ := Option.bind_eq_some_iff.mp hc
  exact ⟨slot, c, hslot, hcall⟩

theorem isRoot_iff (h : s.Pinned root) : s.isRoot = true ↔ s.current = some 0 := by
  obtain ⟨c, -, hcall, -⟩ := h.root
  unfold isRoot
  rw [head?_places hcall, Bool.and_eq_true_iff, beq_iff_eq, and_iff_right_iff_imp]
  intro hslot
  rw [hslot]
  rfl

/-- What neither touches the first slot nor the current call. -/
theorem congr (h : s.Pinned root) (hfirst : t.call? 0 = s.call? 0)
    (hcurrent : t.currentCall.isSome = true) : t.Pinned root := by
  obtain ⟨c, -, hcall, hroot⟩ := h.root
  exact .of_call? (hfirst.trans hcall) hroot hcurrent

theorem modifyAt {slot : Nat} {f : Call → Call} (h : s.Pinned root)
    (hf : ∀ c, s.call? slot = some c → c.Remains (f c)) : (s.modifyAt slot f).Pinned root := by
  obtain ⟨c, -, hcall, hroot⟩ := h.root
  obtain ⟨current, d, hslot, hd⟩ := h.exists_current
  have hcurrent : (s.modifyAt slot f).currentCall.isSome = true := by
    show (s.current.bind (s.modifyAt slot f).call?).isSome = true
    rw [hslot, Option.bind_some, call?_modifyAt, hd]
    split <;> rfl
  by_cases hzero : 0 = slot
  · subst hzero
    refine .of_call? ?_ (hroot.trans (hf c hcall)) hcurrent
    rw [call?_modifyAt, if_pos rfl, hcall]
    rfl
  · apply h.congr ?_ hcurrent
    rw [call?_modifyAt, if_neg hzero]

theorem absorb {payload : Bytes} (h : s.Pinned root) (ht : s.absorb payload = .ok t) :
    t.Pinned root := by
  obtain ⟨slot, c, -, -, rfl⟩ := modifyCurrent_eq_ok ht
  exact h.modifyAt fun d _ => .withField payload d

theorem grows {new : List NewCall} {opened : List Call} (h : s.Pinned root)
    (hg : Field.Grows new s t opened) : t.Pinned root := by
  have hold {slot : Nat} {c : Call} (hc : s.call? slot = some c) : t.call? slot = some c := by
    rw [hg.call?, if_pos (lt_length hc), hc]
  obtain ⟨c, -, hcall, hroot⟩ := h.root
  obtain ⟨slot, d, hslot, hd⟩ := h.exists_current
  refine .of_call? (hold hcall) hroot ?_
  unfold currentCall
  rw [hg.current, hslot, Option.bind_some, hold hd]
  rfl

theorem flushedAfter (h : s.Pinned root) : s.flushedAfter.Pinned root := by
  obtain ⟨slot, c, hslot, -⟩ := h.exists_current
  apply h.congr
  · apply call?_leaveAll_of_notMem
    intro hmem
    have hbehind := mem_of_mem_emptyRun hslot hmem
    simp [placesAfter] at hbehind
  · rw [currentCall_flushedAfter]
    exact h.current

/-- Where another call than the first is current, the first has arguments, and is not flushed. -/
theorem flushedBefore (h : s.Pinned root)
    (hfirst : ∀ c others, s.live = c :: others → others ≠ [] → c.calldata.isSome = true) :
    s.flushedBefore.Pinned root := by
  obtain ⟨c, hroot, hcall, -⟩ := h.root
  obtain ⟨slot, d, hslot, hd⟩ := h.exists_current
  apply h.congr
  · apply call?_leaveAll_of_notMem
    intro hmem
    have hnone : c.calldata = none := calldata_of_mem_emptyRun hmem c hcall
    have hbefore : 0 < slot := by
      have hplace := List.mem_reverse.mp (mem_of_mem_emptyRun hslot hmem)
      exact of_decide_eq_true (List.mem_filter.mp hplace).2
    obtain ⟨others, hlive⟩ := List.head?_eq_some_iff.mp hroot
    have hsome : others ≠ [] := by
      rintro rfl
      have hcount : s.count = 1 := by
        unfold count
        rw [hlive]
        rfl
      have hsame := eq_of_count_one hcount hcall hd
      omega
    have hdata := hfirst c others hlive hsome
    rw [hnone] at hdata
    cases hdata
  · rw [currentCall_flushedBefore]
    exact h.current

/-- A descriptor selects a call, and calls right before that one leave. -/
theorem selected {cache : Cache} {contract : Address} {selector : Selector} {chain : ChainId}
    (h : s.Pinned root)
    (hfirst : ∀ c others, s.live = c :: others → others ≠ [] → c.calldata.isSome = true)
    (ht : s.select cache contract selector chain = .ok t) : t.flushedBefore.Pinned root := by
  obtain ⟨hslots, slot, c, hslot, hcall, -⟩ := select_eq_ok ht
  have hlive : t.live = s.live := by
    unfold live
    rw [hslots]
  have hpinned : t.Pinned root := by
    apply h.congr (call?_congr hslots 0)
    unfold currentCall
    rw [hslot, Option.bind_some, call?_congr hslots, hcall]
    rfl
  apply hpinned.flushedBefore
  rwa [hlive]

/-- When a call besides the first leaves, the one before it is live and current. -/
theorem popped (h : s.Pinned root) (hnested : s.isRoot = false) : s.popped.Pinned root := by
  obtain ⟨slot, c, hslot, hcall⟩ := h.exists_current
  obtain ⟨before, behind, hstands⟩ := stands_of_call? hslot hcall
  rw [hstands.isRoot] at hnested
  obtain ⟨front, p, rfl⟩ : ∃ front p, before = front ++ [p] := by
    have hbefore : before ≠ [] := by
      rintro rfl
      cases hnested
    exact ⟨_, _, (List.dropLast_concat_getLast hbefore).symm⟩
  apply h.congr
  · rw [call?_popped hslot, if_neg]
    rintro rfl
    rw [← hstands.isRoot, h.isRoot_iff.mpr hslot] at hnested
    cases hnested
  · rw [hstands.popped.currentCall]
    rfl

theorem settledFor (rounds : Nat) (h : s.Pinned root) :
    (s.settledFor .transaction rounds).Pinned root := by
  induction rounds generalizing s with
  | zero => exact h
  | succ rounds ih =>
    unfold CallStack.settledFor
    by_cases hdone : s.isDone .transaction = true
    · rw [if_pos hdone]
      have hnested := not_isRoot_of_isHashed (Bool.and_eq_true_iff.mp hdone).1
      have hflushed : s.flushedAfter.isRoot = false := by
        rw [Bool.eq_false_iff, ne_eq, h.flushedAfter.isRoot_iff]
        intro hslot
        rw [h.isRoot_iff.mpr ((current_leaveAll _).symm.trans hslot)] at hnested
        cases hnested
      exact ih (h.flushedAfter.popped hflushed)
    · rw [if_neg hdone]
      exact h

theorem attached {info : TransactionInfo} (h : s.Pinned root)
    (ht : s.attached .transaction info = .ok t) : t.Pinned root := by
  unfold CallStack.attached at ht
  obtain ⟨s', hmodify, ht⟩ := Refusal.bind_eq_ok.mp ht
  obtain ⟨slot, c, hslot, -, rfl⟩ := modifyCurrent_eq_ok hmodify
  have hheld : (s.modifyAt slot (Call.withInfo info)).Pinned root :=
    h.modifyAt fun d _ => .withInfo info d
  split at ht
  · rename_i hleaves
    rw [eq_popped_of_pop ht]
    apply hheld.popped
    rw [Bool.eq_false_iff, ne_eq, hheld.isRoot_iff]
    intro hfirst
    have hnested := not_isRoot_of_isHashed hleaves.1
    rw [h.isRoot_iff.mpr hfirst] at hnested
    cases hnested
  · cases ht
    exact hheld

end Pinned

end CallStack

end ClearSign
