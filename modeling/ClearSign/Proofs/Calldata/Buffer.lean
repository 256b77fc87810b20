import ClearSign.Calldata.Store
import ClearSign.Proofs.Action
import ClearSign.Proofs.Calldata.Packing
import Mathlib.Data.List.Induction

/-!
The arguments of a call are the bytes that came. The store that some bytes have come to depends on
those bytes alone, not on where they were cut: it holds the whole words at their front, packed, and
the bytes behind those.
-/

namespace ClearSign

namespace Calldata

theorem length_packAll (count : Nat) (bs : Bytes) : (packAll count bs).1.length = count := by
  induction count generalizing bs with
  | zero => rfl
  | succ count ih => simp only [packAll, List.length_cons, ih]

theorem packAll_rest (count : Nat) (bs : Bytes) :
    (packAll count bs).2 = bs.drop (32 * count) := by
  induction count generalizing bs with
  | zero => rfl
  | succ count ih =>
    simp only [packAll, ih, List.drop_drop]
    congr 1
    omega

theorem packAll_word {count i : Nat} (bs : Bytes) (hi : i < count) :
    (packAll count bs).1[i]? =
      some (PackedWord.pack (Fixed.align 32 ((bs.drop (32 * i)).take 32))) := by
  induction count generalizing bs i with
  | zero => omega
  | succ count ih =>
    simp only [packAll]
    cases i with
    | zero => rfl
    | succ i =>
      rw [List.getElem?_cons_succ, ih _ (by omega), List.drop_drop]
      congr 5
      omega

theorem packAll_add (front count : Nat) (bs : Bytes) :
    (packAll (front + count) bs).1 =
      (packAll front bs).1 ++ (packAll count (bs.drop (32 * front))).1 := by
  induction front generalizing bs with
  | zero => simp [packAll]
  | succ front ih =>
    have hskip : 32 + 32 * front = 32 * (front + 1) := by omega
    rw [Nat.succ_add]
    simp only [packAll, ih, List.drop_drop, List.cons_append, hskip]

/-- What comes behind the packed words has no part in them. -/
theorem packAll_append {count : Nat} {bs : Bytes} (h : 32 * count ≤ bs.length) (more : Bytes) :
    (packAll count (bs ++ more)).1 = (packAll count bs).1 := by
  induction count generalizing bs with
  | zero => rfl
  | succ count ih =>
    have hrest : 32 * count ≤ (bs.drop 32).length := by
      rw [List.length_drop]
      omega
    simp only [packAll, List.take_append_of_le_length (show 32 ≤ bs.length by omega),
      List.drop_append_of_le_length (show 32 ≤ bs.length by omega), ih hrest]

/-- The store that some bytes have come to. -/
def holding (expected : Nat) (selector : Selector) (bs : Bytes) : Calldata :=
  let (words, staging) := packAll (bs.length / 32) bs
  ⟨selector, expected, bs.length, words, staging⟩

theorem holding_nil (expected : Nat) (selector : Selector) :
    holding expected selector [] = empty expected selector := by
  simp [holding, packAll, empty]

theorem append_holding (expected : Nat) (selector : Selector) (bs more : Bytes) :
    (holding expected selector bs).append more =
      if bs.length + more.length ≤ expected then .ok (holding expected selector (bs ++ more))
      else .error .invalidValue := by
  have hfront : 32 * (bs.length / 32) ≤ bs.length := by omega
  have hpending : (bs ++ more).drop (32 * (bs.length / 32)) =
      bs.drop (32 * (bs.length / 32)) ++ more := List.drop_append_of_le_length hfront
  have hcount : (bs ++ more).length / 32 =
      bs.length / 32 + (bs.drop (32 * (bs.length / 32)) ++ more).length / 32 := by
    rw [List.length_append, List.length_append, List.length_drop]
    omega
  unfold append holding
  simp only [packAll_rest]
  split
  · congr 2
    · rw [List.length_append]
    · rw [hcount, packAll_add, packAll_append hfront, hpending]
    · rw [hcount, ← hpending, List.drop_drop]
      congr 1
      omega
  · rfl

section

variable {expected : Nat} {selector : Selector} {bs : Bytes}

/-- Nothing is read before all bytes have come. -/
theorem read_incomplete (h : bs.length ≠ expected) :
    (holding expected selector bs).selector? = .error .incompleteCalldata ∧
      ∀ i, (holding expected selector bs).word i = .error .incompleteCalldata := by
  have hincomplete : (holding expected selector bs).isComplete = false := by
    simpa [isComplete, holding] using h
  unfold selector? word
  simp only [hincomplete]
  exact ⟨rfl, fun _ => rfl⟩

theorem isComplete_holding (h : bs.length = expected) :
    (holding expected selector bs).isComplete = true := by
  simpa [isComplete, holding] using h

/-- Once all bytes have come, their whole words are read, and nothing behind those. -/
theorem word_holding (h : bs.length = expected) (i : Nat) :
    (i < expected / 32 → ∃ w, (holding expected selector bs).word i = .ok w ∧
      w.bytes = (bs.drop (32 * i)).take 32) ∧
    (expected / 32 ≤ i → (holding expected selector bs).word i = .error .invalidValue) := by
  unfold word
  rw [if_pos (isComplete_holding h), ← h]
  constructor
  · intro hi
    have hword : ((bs.drop (32 * i)).take 32).length = 32 := by
      rw [List.length_take, List.length_drop]
      omega
    refine ⟨Fixed.align 32 ((bs.drop (32 * i)).take 32), ?_, ?_⟩
    · simp only [holding, packAll_word bs hi, PackedWord.unpack_pack]
    · show Bytes.alignRight 32 _ = _
      unfold Bytes.alignRight
      rw [hword]
      rfl
  · intro hi
    have hnone : (packAll (bs.length / 32) bs).1[i]? = none := by
      apply List.getElem?_eq_none
      rwa [length_packAll]
    simp only [holding, hnone]

end

/-- Offers some bytes to a store: what it answers, and the store that is left. -/
def offer (c : Calldata) (bs : Bytes) : Except Error Unit × Calldata :=
  (Action.update fun c => c.append bs).exec c

/-- The bytes of an offer, if it was taken. -/
def taken : Except Error Unit → Bytes → Bytes
  | .ok (), bs => bs
  | .error _, _ => []

/-- An empty store after some offers, and the bytes of those that were taken. -/
def offered (expected : Nat) (selector : Selector) (offers : List Bytes) : Calldata × Bytes :=
  offers.foldl (fun (c, bs) more => ((c.offer more).2, bs ++ taken (c.offer more).1 more))
    (empty expected selector, [])

theorem offer_holding (expected : Nat) (selector : Selector) (bs more : Bytes) :
    (holding expected selector bs).offer more =
      if bs.length + more.length ≤ expected then (.ok (), holding expected selector (bs ++ more))
      else (.error .invalidValue, holding expected selector bs) := by
  unfold offer
  rw [Action.exec_update, append_holding]
  by_cases hroom : bs.length + more.length ≤ expected
  · rw [if_pos hroom, if_pos hroom]
  · rw [if_neg hroom, if_neg hroom]

theorem offered_concat (expected : Nat) (selector : Selector) (offers : List Bytes)
    (more : Bytes) :
    let (c, bs) := offered expected selector offers
    offered expected selector (offers ++ [more]) =
      ((c.offer more).2, bs ++ taken (c.offer more).1 more) := by
  unfold offered
  rw [List.foldl_append]
  rfl

/-- Whatever was offered, the store holds the bytes that were taken. -/
theorem offered_eq_holding (expected : Nat) (selector : Selector) (offers : List Bytes) :
    (offered expected selector offers).1 =
      holding expected selector (offered expected selector offers).2 := by
  induction offers using List.reverseRecOn with
  | nil => exact (holding_nil expected selector).symm
  | append_singleton offers more ih =>
    have hstep := offered_concat expected selector offers more
    dsimp only at hstep
    rw [hstep, ih, offer_holding]
    by_cases hroom : (offered expected selector offers).2.length + more.length ≤ expected
    · rw [if_pos hroom]
      rfl
    · rw [if_neg hroom]
      show _ = holding expected selector (_ ++ [])
      rw [List.append_nil]

/-- Bytes are taken if there is room for them, and else change nothing. Nothing is read before all
announced bytes have come; then the selector and the whole words of those bytes are read, and no
word behind them. How the bytes were cut makes no difference: the store is the one that the same
bytes in other pieces lead to, or in one. -/
theorem received_bytes_are_read (expected : Nat) (selector : Selector) (offers : List Bytes) :
    let c := (offered expected selector offers).1
    let bs := (offered expected selector offers).2
    (∀ more, (c.offer more).1 = .ok () ↔ bs.length + more.length ≤ expected) ∧
    (∀ more e, (c.offer more).1 = .error e → (c.offer more).2 = c) ∧
    c.received = bs.length ∧
    (bs.length ≠ expected → c.selector? = .error .incompleteCalldata ∧
      ∀ i, c.word i = .error .incompleteCalldata) ∧
    (bs.length = expected → c.selector? = .ok selector ∧
      (∀ i, i < expected / 32 → ∃ w, c.word i = .ok w ∧ w.bytes = (bs.drop (32 * i)).take 32) ∧
      (∀ i, expected / 32 ≤ i → c.word i = .error .invalidValue) ∧
      ofBytes selector bs = .ok c) ∧
    ∀ others, (offered expected selector others).2 = bs →
      (offered expected selector others).1 = c := by
  intro c bs
  have hc : c = holding expected selector bs := offered_eq_holding expected selector offers
  have hoffer (more : Bytes) := offer_holding expected selector bs more
  rw [hc]
  refine ⟨?_, ?_, rfl, fun h => read_incomplete h, ?_, ?_⟩
  · intro more
    rw [hoffer more]
    by_cases hroom : bs.length + more.length ≤ expected
    · simp [hroom]
    · simp [hroom]
  · intro more e he
    rw [hoffer more] at he ⊢
    by_cases hroom : bs.length + more.length ≤ expected
    · rw [if_pos hroom] at he
      cases he
    · rw [if_neg hroom]
  · intro hall
    refine ⟨?_, fun i => (word_holding hall i).1, fun i => (word_holding hall i).2, ?_⟩
    · unfold selector?
      rw [if_pos (isComplete_holding hall)]
      rfl
    · have hroom : ([] : Bytes).length + bs.length ≤ expected := by simp [hall]
      unfold ofBytes
      rw [hall, ← holding_nil, append_holding, if_pos hroom, List.nil_append]
  · intro others hothers
    rw [offered_eq_holding, hothers]

end Calldata

end ClearSign
