import ClearSign.Bytes
import Mathlib.Algebra.Group.Nat.Defs
import Mathlib.Data.List.Induction

/-!
Byte strings as numbers. Strings of one length spell different numbers, and a string that does not
begin with a zero byte spells a number that no shorter string spells.
-/

namespace ClearSign.Bytes

theorem toNat_concat (bs : Bytes) (b : UInt8) : toNat (bs ++ [b]) = toNat bs * 256 + b.toNat := by
  unfold toNat
  rw [List.foldl_append]
  rfl

theorem toNat_cons (b : UInt8) (bs : Bytes) :
    toNat (b :: bs) = b.toNat * 256 ^ bs.length + toNat bs := by
  induction bs using List.reverseRecOn with
  | nil => simp [toNat]
  | append_singleton bs c ih =>
    rw [← List.cons_append, toNat_concat, toNat_concat, ih, List.length_append,
      List.length_singleton, Nat.pow_succ, Nat.add_mul, Nat.mul_assoc, Nat.add_assoc]

theorem toNat_lt (bs : Bytes) : toNat bs < 256 ^ bs.length := by
  induction bs using List.reverseRecOn with
  | nil => simp [toNat]
  | append_singleton bs b ih =>
    have hb := b.toNat_lt
    rw [toNat_concat, List.length_append, List.length_singleton, Nat.pow_succ]
    omega

/-- Strings of one length that spell one number are equal. -/
theorem eq_of_toNat_eq {as bs : Bytes} (hlength : as.length = bs.length)
    (h : toNat as = toNat bs) : as = bs := by
  induction as using List.reverseRecOn generalizing bs with
  | nil => exact (List.length_eq_zero_iff.mp hlength.symm).symm
  | append_singleton as a ih =>
    rcases List.eq_nil_or_concat bs with rfl | ⟨bs, b, rfl⟩
    · simp at hlength
    · have ha := a.toNat_lt
      have hb := b.toNat_lt
      rw [List.concat_eq_append] at hlength h ⊢
      rw [toNat_concat, toNat_concat] at h
      have hlast : a = b := UInt8.toNat_inj.mp (by omega)
      have hfront : as = bs := ih (by simpa using hlength) (by omega)
      rw [hlast, hfront]

theorem length_ofNat (width n : Nat) : (ofNat width n).length = width := by
  induction width generalizing n with
  | zero => rfl
  | succ width ih => rw [ofNat, List.length_append, ih, List.length_singleton]

theorem toNat_ofNat (width n : Nat) : toNat (ofNat width n) = n % 256 ^ width := by
  induction width generalizing n with
  | zero => simp [ofNat, toNat, Nat.mod_one]
  | succ width ih =>
    have hlast : (UInt8.ofNat (n % 256)).toNat = n % 256 := by simp
    rw [ofNat, toNat_concat, ih, hlast, Nat.pow_succ, Nat.mul_comm (256 ^ width) 256, Nat.mod_mul]
    omega

theorem toNat_zeros_append (n : Nat) (bs : Bytes) :
    toNat (List.replicate n 0 ++ bs) = toNat bs := by
  induction n with
  | zero => rfl
  | succ n ih => rw [List.replicate_succ, List.cons_append, toNat_cons, ih]; simp

theorem toNat_append (as bs : Bytes) :
    toNat (as ++ bs) = toNat as * 256 ^ bs.length + toNat bs := by
  induction as with
  | nil => simp [toNat]
  | cons a as ih =>
    rw [List.cons_append, toNat_cons, toNat_cons, ih, List.length_append, Nat.pow_add,
      Nat.add_mul, Nat.mul_assoc, Nat.add_assoc]

/-- Of a number that is wider than its place only the low digits are left. -/
theorem toNat_alignRight (width : Nat) (bs : Bytes) :
    (bs.alignRight width).toNat = bs.toNat % 256 ^ width := by
  rw [alignRight, toNat_zeros_append]
  have hlow := toNat_lt (bs.drop (bs.length - width))
  by_cases hfits : bs.length ≤ width
  · rw [Nat.sub_eq_zero_of_le hfits, List.drop_zero, Nat.mod_eq_of_lt]
    exact Nat.lt_of_lt_of_le (toNat_lt bs) (Nat.pow_le_pow_right (by decide) hfits)
  · have hlength : (bs.drop (bs.length - width)).length = width := by
      rw [List.length_drop]
      omega
    have hcut := toNat_append (bs.take (bs.length - width)) (bs.drop (bs.length - width))
    rw [List.take_append_drop, hlength] at hcut
    rw [hlength] at hlow
    rw [hcut, Nat.add_comm, Nat.add_mul_mod_self_right, Nat.mod_eq_of_lt hlow]

theorem toNat_toUInt64 (bs : Bytes) : bs.toUInt64.toNat = bs.toNat % 2 ^ 64 := by
  rw [toUInt64, UInt64.toNat_ofNat', toNat_alignRight, show 256 ^ 8 = 2 ^ 64 by decide,
    Nat.mod_mod]

theorem toNat_significant (bs : Bytes) : toNat bs.significant = toNat bs := by
  unfold significant
  induction bs with
  | nil => rfl
  | cons b bs ih =>
    rw [List.dropWhile_cons]
    by_cases hzero : b = 0
    · simp [hzero, ih, toNat_cons]
    · simp [hzero]

theorem length_significant_le (bs : Bytes) : bs.significant.length ≤ bs.length :=
  (List.dropWhile_sublist _).length_le

/-- Without its leading zeros a string is no longer than any other that spells the same number. -/
theorem length_significant_le_of_toNat_eq {as bs : Bytes} (h : toNat as = toNat bs) :
    as.significant.length ≤ bs.length := by
  cases hdigits : as.significant with
  | nil => exact Nat.zero_le _
  | cons d rest =>
    have hne : d ≠ 0 := by
      have hhead := List.head?_dropWhile_not (· == 0) as
      unfold significant at hdigits
      rw [hdigits] at hhead
      simpa using hhead
    have hpos : 0 < d.toNat := by
      rw [Nat.pos_iff_ne_zero]
      intro hzero
      exact hne (UInt8.toNat_inj.mp hzero)
    have hlow : 256 ^ rest.length ≤ toNat bs := by
      rw [← h, ← toNat_significant as, hdigits, toNat_cons]
      exact Nat.le_trans (Nat.le_mul_of_pos_left _ hpos) (Nat.le_add_right _ _)
    have hpow := Nat.lt_of_le_of_lt hlow (toNat_lt bs)
    exact (Nat.pow_lt_pow_iff_right (by omega)).mp hpow

end ClearSign.Bytes
