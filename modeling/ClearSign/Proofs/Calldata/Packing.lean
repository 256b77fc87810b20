import ClearSign.Calldata.PackedWord
import Mathlib.Data.List.Basic

/-!
Words and the forms they can be packed in. Every form keeps all but zeros at one end, so none is
shorter than the word without the longer of its two zero runs; where the runs are of one length the
choice of the leading one leaves a single shortest form, and that is the one packing takes.
-/

namespace ClearSign.PackedWord

theorem replicate_append_drop (bs : Bytes) :
    List.replicate (leadingZeros bs) 0 ++ bs.drop (leadingZeros bs) = bs := by
  have hzeros : bs.takeWhile (· == 0) = List.replicate (leadingZeros bs) 0 := by
    rw [List.eq_replicate_iff]
    refine ⟨rfl, ?_⟩
    intro b hb
    simpa using List.all_eq_true.mp List.all_takeWhile b hb
  have hcut : bs.takeWhile (· == 0) ++ bs.dropWhile (· == 0) = bs :=
    List.takeWhile_append_dropWhile
  have hdrop : bs.drop (leadingZeros bs) = bs.dropWhile (· == 0) := by
    have hrest : (bs.takeWhile (· == 0) ++ bs.dropWhile (· == 0)).drop (leadingZeros bs) =
        bs.dropWhile (· == 0) := List.drop_left
    rwa [hcut] at hrest
  rw [← hzeros, hdrop, hcut]

theorem take_append_replicate (bs : Bytes) :
    bs.take (bs.length - trailingZeros bs) ++ List.replicate (trailingZeros bs) 0 = bs := by
  have hreversed := congrArg List.reverse (replicate_append_drop bs.reverse)
  rw [List.reverse_append, List.reverse_replicate, List.drop_reverse, List.reverse_reverse,
    List.reverse_reverse] at hreversed
  exact hreversed

theorem leadingZeros_le (bs : Bytes) : leadingZeros bs ≤ bs.length :=
  (List.takeWhile_sublist _).length_le

theorem trailingZeros_le (bs : Bytes) : trailingZeros bs ≤ bs.length := by
  have hle := leadingZeros_le bs.reverse
  rwa [List.length_reverse] at hle

/-- The run of zeros at an end. -/
def run (side : Side) (bs : Bytes) : Nat :=
  match side with
  | .left => leadingZeros bs
  | .right => trailingZeros bs

theorem run_left (bs : Bytes) : run .left bs = leadingZeros bs := rfl

theorem run_right (bs : Bytes) : run .right bs = trailingZeros bs := rfl

theorem le_leadingZeros (n : Nat) (bs : Bytes) :
    n ≤ leadingZeros (List.replicate n 0 ++ bs) := by
  unfold leadingZeros
  rw [List.takeWhile_append_of_pos fun b hb => by simp [List.eq_of_mem_replicate hb],
    List.length_append, List.length_replicate]
  exact Nat.le_add_right _ _

theorem le_trailingZeros (n : Nat) (bs : Bytes) :
    n ≤ trailingZeros (bs ++ List.replicate n 0) := by
  unfold trailingZeros
  rw [List.reverse_append, List.reverse_replicate]
  exact le_leadingZeros n bs.reverse

section

variable {kept : Bytes}

theorem unpackBytes_left (h : kept.length ≤ 32) :
    unpackBytes ⟨.left, kept⟩ = List.replicate (32 - kept.length) 0 ++ kept := by
  show Bytes.alignRight 32 kept = _
  rw [Bytes.alignRight, Nat.sub_eq_zero_of_le h, List.drop_zero]

theorem unpackBytes_right (h : kept.length ≤ 32) :
    unpackBytes ⟨.right, kept⟩ = kept ++ List.replicate (32 - kept.length) 0 := by
  have hlength : (kept ++ List.replicate (32 - kept.length) (0 : UInt8)).length = 32 := by
    rw [List.length_append, List.length_replicate]
    omega
  exact List.take_of_length_le (Nat.le_of_eq hlength)

end

variable {w : Word} {p q : PackedWord}

theorem pack_left (h : trailingZeros w.bytes ≤ leadingZeros w.bytes) :
    pack w = ⟨.left, w.bytes.drop (leadingZeros w.bytes)⟩ := if_pos h

theorem pack_right (h : leadingZeros w.bytes < trailingZeros w.bytes) :
    pack w = ⟨.right, w.bytes.take (32 - trailingZeros w.bytes)⟩ := if_neg (Nat.not_le_of_lt h)

theorem length_kept_pack (w : Word) :
    (pack w).kept.length = 32 - max (leadingZeros w.bytes) (trailingZeros w.bytes) := by
  rcases Nat.lt_or_ge (leadingZeros w.bytes) (trailingZeros w.bytes) with h | h
  · rw [pack_right h, List.length_take, w.length_bytes]
    omega
  · rw [pack_left h, List.length_drop, w.length_bytes]
    omega

/-- Nothing of a word is lost in packing. -/
theorem unpack_pack (w : Word) : (pack w).unpack = w := by
  apply Fixed.ext
  have hlength := w.length_bytes
  have hlead := leadingZeros_le w.bytes
  have htrail := trailingZeros_le w.bytes
  show (pack w).unpackBytes = w.bytes
  rcases Nat.lt_or_ge (leadingZeros w.bytes) (trailingZeros w.bytes) with h | h
  · have hkept : (w.bytes.take (32 - trailingZeros w.bytes)).length =
        32 - trailingZeros w.bytes := by
      rw [List.length_take, hlength]
      omega
    have hall := take_append_replicate w.bytes
    rw [hlength] at hall
    rw [pack_right h, unpackBytes_right (by omega), hkept,
      show 32 - (32 - trailingZeros w.bytes) = trailingZeros w.bytes by omega, hall]
  · have hkept : (w.bytes.drop (leadingZeros w.bytes)).length = 32 - leadingZeros w.bytes := by
      rw [List.length_drop, hlength]
    rw [pack_left h, unpackBytes_left (by omega), hkept,
      show 32 - (32 - leadingZeros w.bytes) = leadingZeros w.bytes by omega,
      replicate_append_drop]

/-- What a form leaves out of its word is zeros at the end that was stripped. -/
theorem le_run_unpack (p : PackedWord) :
    32 - p.kept.length ≤ run p.stripped p.unpack.bytes := by
  rcases Nat.lt_or_ge 32 p.kept.length with hlong | hfits
  · omega
  · obtain ⟨side, kept⟩ := p
    cases side with
    | left =>
      show 32 - kept.length ≤ leadingZeros (unpackBytes ⟨.left, kept⟩)
      rw [unpackBytes_left hfits]
      exact le_leadingZeros _ kept
    | right =>
      show 32 - kept.length ≤ trailingZeros (unpackBytes ⟨.right, kept⟩)
      rw [unpackBytes_right hfits]
      exact le_trailingZeros _ kept

/-- No form of a word is shorter than what packing keeps. -/
theorem length_kept_le (h : p.unpack = w) : (pack w).kept.length ≤ p.kept.length := by
  have hrun := le_run_unpack p
  rw [h] at hrun
  rw [length_kept_pack]
  unfold run at hrun
  split at hrun <;> omega

/-- A word has one form of a given side and length. -/
theorem eq_of_unpack (h : p.unpack = q.unpack) (hside : p.stripped = q.stripped)
    (hlength : p.kept.length = q.kept.length) (hfits : p.kept.length ≤ 32) : p = q := by
  obtain ⟨side, kept⟩ := p
  obtain ⟨side', kept'⟩ := q
  obtain rfl : side = side' := hside
  have hfits' : kept'.length ≤ 32 := hlength ▸ hfits
  have hbytes : unpackBytes ⟨side, kept⟩ = unpackBytes ⟨side, kept'⟩ := congrArg Fixed.bytes h
  have hkept : kept = kept' := by
    cases side with
    | left =>
      rw [unpackBytes_left hfits, unpackBytes_left hfits'] at hbytes
      exact (List.append_inj' hbytes hlength).2
    | right =>
      rw [unpackBytes_right hfits, unpackBytes_right hfits'] at hbytes
      exact (List.append_inj hbytes hlength).1
  rw [hkept]

/-- The choice among the forms of a word: a shortest one, and the leading zeros left out where both
runs are of one length. -/
structure Chosen (w : Word) (p : PackedWord) : Prop where
  restores : p.unpack = w
  shortest : ∀ q : PackedWord, q.unpack = w → p.kept.length ≤ q.kept.length
  tie : leadingZeros w.bytes = trailingZeros w.bytes → p.stripped = .left

theorem chosen_pack (w : Word) : Chosen w (pack w) where
  restores := unpack_pack w
  shortest _ h := length_kept_le h
  tie h := by rw [pack_left (Nat.le_of_eq h.symm)]

theorem Chosen.eq_pack (h : Chosen w p) : p = pack w := by
  have hlength : p.kept.length = (pack w).kept.length :=
    Nat.le_antisymm (h.shortest _ (unpack_pack w)) (length_kept_le h.restores)
  have hkept := length_kept_pack w
  have hrun := le_run_unpack p
  have hlead := leadingZeros_le w.bytes
  have htrail := trailingZeros_le w.bytes
  rw [w.length_bytes] at hlead htrail
  rw [h.restores, hlength, hkept] at hrun
  refine eq_of_unpack (h.restores.trans (unpack_pack w).symm) ?_ hlength (by omega)
  -- the zeros left out are as many as the longer run has, so they are that run
  cases hside : p.stripped with
  | left =>
    rw [hside, run_left] at hrun
    rw [pack_left (by omega)]
  | right =>
    rw [hside, run_right] at hrun
    have hne : leadingZeros w.bytes ≠ trailingZeros w.bytes := by
      intro heq
      have hleft := h.tie heq
      rw [hside] at hleft
      cases hleft
    rw [pack_right (by omega)]

/-- The word that is all zeros is one run, seen from either end. -/
theorem runs_zero : leadingZeros (Fixed.zero 32).bytes = trailingZeros (Fixed.zero 32).bytes := by
  decide

/-- Packing loses nothing and no form is shorter: what it keeps of a word is all but the longer of
its zero runs. Between runs of one length the leading one goes, as it does of the word that is all
zeros; that settles the choice. -/
theorem pack_is_shortest (w : Word) :
    (pack w).unpack = w ∧
    (pack w).kept.length = 32 - max (leadingZeros w.bytes) (trailingZeros w.bytes) ∧
    (∀ p : PackedWord, p.kept.length < (pack w).kept.length → p.unpack ≠ w) ∧
    (leadingZeros w.bytes = trailingZeros w.bytes ∨ w = Fixed.zero 32 →
      (pack w).stripped = .left) ∧
    ∀ p, Chosen w p ↔ p = pack w := by
  refine ⟨unpack_pack w, length_kept_pack w, ?_, ?_, ?_⟩
  · intro p hshorter hunpack
    exact Nat.not_le_of_lt hshorter (length_kept_le hunpack)
  · rintro (htie | rfl)
    · exact (chosen_pack w).tie htie
    · exact (chosen_pack _).tie runs_zero
  · intro p
    constructor
    · exact Chosen.eq_pack
    · rintro rfl
      exact chosen_pack w

/-- Four zeros stand at either end. -/
example :
    let bs : Bytes := List.replicate 24 0x11 ++ List.replicate 4 0
    pack (Fixed.align 32 bs) = ⟨.left, bs⟩ := by
  decide

end ClearSign.PackedWord
