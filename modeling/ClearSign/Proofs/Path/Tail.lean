import ClearSign.Proofs.Calldata.Buffer
import ClearSign.Proofs.Path.Replay

/-!
The bytes behind the last whole word of a call. They are counted as received and then never read:
neither is the word that they begin, nor a byte string that ends in it. So all that came is read
just if it is whole words.
-/

namespace ClearSign

open Refusal

namespace Calldata

/-- Where there is room for all that is offered, all of it is taken. -/
theorem offered_flatten {expected : Nat} (selector : Selector) {offers : List Bytes}
    (hroom : offers.flatten.length ≤ expected) :
    (offered expected selector offers).2 = offers.flatten := by
  induction offers using List.reverseRecOn with
  | nil => rfl
  | append_singleton offers more ih =>
    rw [List.flatten_append, List.flatten_singleton, List.length_append] at hroom
    have htaken := ih (Nat.le_trans (Nat.le_add_right _ _) hroom)
    have hstep := offered_concat expected selector offers more
    dsimp only at hstep
    rw [hstep, offered_eq_holding, htaken, offer_holding, if_pos hroom, List.flatten_append,
      List.flatten_singleton]
    rfl

/-- The word that some bytes have at a place. -/
def wordAt (bs : Bytes) (i : Nat) : Word := Fixed.align 32 ((bs.drop (32 * i)).take 32)

theorem bytes_wordAt {bs : Bytes} {i : Nat} (h : 32 * (i + 1) ≤ bs.length) :
    (wordAt bs i).bytes = (bs.drop (32 * i)).take 32 := by
  have hlength : ((bs.drop (32 * i)).take 32).length = 32 := by
    rw [List.length_take, List.length_drop]
    omega
  show Bytes.alignRight 32 _ = _
  unfold Bytes.alignRight
  rw [hlength]
  rfl

theorem flatMap_wordAt {bs : Bytes} {position count : Nat}
    (h : 32 * (position + count) ≤ bs.length) :
    ((List.range count).map fun i => wordAt bs (position + i)).flatMap Fixed.bytes =
      (bs.drop (32 * position)).take (32 * count) := by
  induction count with
  | zero => rfl
  | succ count ih =>
    rw [List.range_succ, List.map_append, List.flatMap_append, ih (by omega), List.map_singleton,
      List.flatMap_singleton, bytes_wordAt (by omega), Nat.mul_succ, List.take_add, List.drop_drop,
      Nat.mul_add]

section

variable (selector : Selector) (bs : Bytes)

theorem word_of_le {i : Nat} (h : 32 * (i + 1) ≤ bs.length) :
    (holding bs.length selector bs).word i = .ok (wordAt bs i) := by
  obtain ⟨w, hword, hbytes⟩ := (@word_holding _ selector bs rfl i).1 (by omega)
  obtain rfl : w = wordAt bs i := Fixed.ext (hbytes.trans (bytes_wordAt h).symm)
  exact hword

theorem word_of_lt {i : Nat} (h : bs.length < 32 * (i + 1)) :
    (holding bs.length selector bs).word i = .error .invalidValue :=
  (word_holding rfl i).2 (by omega)

/-- Bytes are read if each word that one of them is in is whole. -/
theorem readBytes_holding (position length : Nat) :
    Cursor.readBytes (holding bs.length selector bs) position length =
      if length = 0 ∨ 32 * (position + (length + 31) / 32) ≤ bs.length then
        .ok ((bs.drop (32 * position)).take length)
      else .error .invalidValue := by
  unfold Cursor.readBytes
  by_cases hwhole : length = 0 ∨ 32 * (position + (length + 31) / 32) ≤ bs.length
  · rw [if_pos hwhole]
    rcases hwhole with rfl | hwhole
    · rfl
    · have hwords : ∀ i ∈ List.range ((length + 31) / 32),
          (holding bs.length selector bs).word (position + i) = .ok (wordAt bs (position + i)) := by
        intro i hi
        rw [List.mem_range] at hi
        exact word_of_le selector bs (by omega)
      rw [mapM_eq_ok hwords]
      show Except.ok (List.take length _) = _
      rw [flatMap_wordAt hwhole, List.take_take,
        Nat.min_eq_left (by omega)]
  · rw [if_neg hwhole]
    obtain ⟨hsome, hbeyond⟩ := not_or.mp hwhole
    -- The words are refused from the one that is not whole on, and the last is one of those.
    have hrefused : ((List.range ((length + 31) / 32)).mapM fun i =>
        (holding bs.length selector bs).word (position + i)) = .error .invalidValue := by
      refine mapM_eq_error ?_ ⟨(length + 31) / 32 - 1, List.mem_range.mpr (by omega),
        word_of_lt selector bs (by omega)⟩
      intro i _
      rcases Nat.lt_or_ge bs.length (32 * (position + i + 1)) with hlast | hinside
      · exact .inr (word_of_lt selector bs hlast)
      · exact .inl ⟨_, word_of_le selector bs hinside⟩
    rw [hrefused]
    rfl

end

end Calldata

namespace DataPath

variable {args : Calldata} {p : DataPath} {c : Cursor} {ahead : List Element}

/-- What reading a path comes to is decided anew wherever the path leads. -/
theorem rest_of_visits (h : Cursor.Visits args p.elements c ahead) :
    Rest args p.elements ahead c (p.read args) := by
  induction h with
  | start => exact rest_of_passes rfl
  | step _ hstep ih => exact ih.next hstep
  | again _ hmore ih =>
    obtain ⟨e, hpass, -⟩ | ⟨d, hpass, hrest⟩ := ih
    · cases hpass
    · cases hpass
      obtain ⟨hdone, -⟩ | ⟨-, hvalid, hpasses⟩ := hrest
      · exact absurd hdone hmore
      · exact rest_of_passes hpasses

/-- An objection anywhere on the way is the answer. -/
theorem read_refused {e : Element} {err : Error}
    (h : Cursor.Visits args p.elements c (e :: ahead)) (hstep : Cursor.step args c e = .error err) :
    p.read args = .error err :=
  (rest_of_visits h).refused hstep

end DataPath

namespace Calldata

open Cursor

/-- All of some bytes is read: each word that one of them is in, with zeros behind the last; and,
wherever a path leads to a byte string that ends with them, the byte string. -/
structure ReadsAll (args : Calldata) (bs : Bytes) : Prop where
  words : ∀ i, i < (bs.length + 31) / 32 → ∃ w, args.word i = .ok w ∧
    w.bytes = (bs.drop (32 * i)).take 32 ++ List.replicate (32 * (i + 1) - bs.length) 0
  strings : ∀ (p : DataPath) c ahead w, Visits args p.elements c (.leaf .dynamic :: ahead) →
    args.word c.position = .ok w → 32 * (c.position + 1) + lowHalf w = bs.length →
    step args c (.leaf .dynamic) =
      { c with position := c.position + 1 }.capture (bs.drop (32 * (c.position + 1)))

theorem step_dynamic (selector : Selector) (bs : Bytes) {c : Cursor} {w : Word}
    (hword : (holding bs.length selector bs).word c.position = .ok w) :
    step (holding bs.length selector bs) c (.leaf .dynamic) =
      if lowHalf w = 0 ∨ 32 * (c.position + 1 + (lowHalf w + 31) / 32) ≤ bs.length then
        { c with position := c.position + 1 }.capture
          ((bs.drop (32 * (c.position + 1))).take (lowHalf w))
      else .error .invalidValue := by
  show ((holding bs.length selector bs).word c.position >>= fun w =>
    readBytes (holding bs.length selector bs) (c.position + 1) (lowHalf w) >>=
      { c with position := c.position + 1 }.capture) = _
  rw [hword]
  show readBytes _ (c.position + 1) (lowHalf w) >>= _ = _
  rw [readBytes_holding]
  split <;> rfl

theorem readsAll_of_dvd (selector : Selector) {bs : Bytes} (h : 32 ∣ bs.length) :
    ReadsAll (holding bs.length selector bs) bs := by
  constructor
  · intro i hi
    have hwhole : 32 * (i + 1) ≤ bs.length := by omega
    refine ⟨_, word_of_le selector bs hwhole, ?_⟩
    rw [bytes_wordAt hwhole, show 32 * (i + 1) - bs.length = 0 by omega, List.replicate_zero,
      List.append_nil]
  · intro p c ahead w _ hword hends
    rw [step_dynamic selector bs hword, if_pos (by omega), List.take_of_length_le]
    rw [List.length_drop]
    omega

theorem dvd_of_readsAll {selector : Selector} {bs : Bytes}
    (h : ReadsAll (holding bs.length selector bs) bs) : 32 ∣ bs.length := by
  by_contra hpart
  obtain ⟨w, hword, -⟩ := h.words (bs.length / 32) (by omega)
  rw [word_of_lt selector bs (by omega)] at hword
  cases hword

/-- Of the bytes of a call, however they were cut, the whole words are read, and byte strings in
them; the word behind those is refused, and so is each path that leads to a byte string with a byte
in that word. So all that came is read just if it is whole words. -/
theorem readsAll_iff (selector : Selector) (offers : List Bytes) :
    let bs := offers.flatten
    let args := (offered bs.length selector offers).1
    args.isComplete = true ∧ args.received = bs.length ∧
    (∀ i, 32 * (i + 1) ≤ bs.length →
      ∃ w, args.word i = .ok w ∧ w.bytes = (bs.drop (32 * i)).take 32) ∧
    (∀ i, bs.length < 32 * (i + 1) → args.word i = .error .invalidValue) ∧
    (∀ (p : DataPath) c ahead w, Visits args p.elements c (.leaf .dynamic :: ahead) →
      args.word c.position = .ok w →
      if lowHalf w = 0 ∨ 32 * (c.position + 1 + (lowHalf w + 31) / 32) ≤ bs.length then
        step args c (.leaf .dynamic) = { c with position := c.position + 1 }.capture
          ((bs.drop (32 * (c.position + 1))).take (lowHalf w))
      else p.read args = .error .invalidValue) ∧
    (ReadsAll args bs ↔ 32 ∣ bs.length) := by
  intro bs args
  have hargs : args = holding bs.length selector bs := by
    show (offered bs.length selector offers).1 = _
    rw [offered_eq_holding, offered_flatten selector (Nat.le_refl _)]
  rw [hargs]
  refine ⟨isComplete_holding rfl, rfl, fun i hi => ⟨_, word_of_le selector bs hi, bytes_wordAt hi⟩,
    fun i => word_of_lt selector bs, ?_, dvd_of_readsAll, readsAll_of_dvd selector⟩
  intro p c ahead w hvisits hword
  have hstep := step_dynamic selector bs hword
  split
  · rename_i hwhole
    rwa [if_pos hwhole] at hstep
  · rename_i hpart
    rw [if_neg hpart] at hstep
    exact DataPath.read_refused hvisits hstep

/-- The three bytes behind the length of a byte string are not read. -/
theorem not_readsAll : ¬ ∀ (selector : Selector) (offers : List Bytes),
    ReadsAll (offered offers.flatten.length selector offers).1 offers.flatten := by
  intro h
  have hstring := (h ⟨[1, 2, 3, 4], rfl⟩ [List.replicate 31 0 ++ [3], [97, 98, 99]]).strings
    ⟨1, [.leaf .dynamic]⟩ _ _ (Fixed.align 32 [3]) .start (by decide +kernel) (by decide +kernel)
  revert hstring
  decide +kernel

end Calldata

end ClearSign
