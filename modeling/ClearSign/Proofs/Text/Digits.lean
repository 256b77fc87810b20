import ClearSign.Text.Decimal
import Mathlib.Algebra.Group.Nat.Defs
import Mathlib.Data.List.Induction

/-!
Strings of decimal digits as numbers. Strings of one length spell different numbers, and a string
that does not begin with a zero is the numeral of the number it spells.
-/

namespace ClearSign.Decimal

/-- The number that digits spell. -/
def spelled (ds : List Char) : Nat := Nat.ofDigitChars 10 ds 0

def AllDigits (ds : List Char) : Prop := ∀ c ∈ ds, c.isDigit = true

def isDigits (ds : List Char) : Bool := !ds.isEmpty && ds.all Char.isDigit

/-- At least one digit, and no zero in front unless zero is all there is. -/
structure IsWhole (ds : List Char) : Prop where
  ne_nil : ds ≠ []
  allDigits : AllDigits ds
  lead : ds.head? = some '0' → ds = ['0']

theorem isDigit_iff {c : Char} : c.isDigit = true ↔ 48 ≤ c.toNat ∧ c.toNat ≤ 57 := by
  simp [Char.isDigit, UInt32.le_iff_toNat_le]

theorem isDigits_iff {ds : List Char} : isDigits ds = true ↔ ds ≠ [] ∧ AllDigits ds := by
  simp [isDigits, AllDigits]

theorem AllDigits.notMem {ds : List Char} {c : Char} (h : AllDigits ds) (hc : c.isDigit = false) :
    c ∉ ds := by
  intro hmem
  rw [h c hmem] at hc
  cases hc

theorem spelled_append (as bs : List Char) :
    spelled (as ++ bs) = 10 ^ bs.length * spelled as + spelled bs := by
  unfold spelled
  rw [Nat.ofDigitChars_append, Nat.ofDigitChars_eq_ofDigitChars_zero]

theorem spelled_single (c : Char) : spelled [c] = c.toNat - 48 := by
  simp [spelled, Nat.ofDigitChars_cons, Nat.ofDigitChars_nil]

theorem spelled_zeros (n : Nat) : spelled (List.replicate n '0') = 0 := by
  rw [spelled, Nat.ofDigitChars_replicate_zero, Nat.mul_zero]

theorem spelled_lt {ds : List Char} (h : AllDigits ds) : spelled ds < 10 ^ ds.length := by
  induction ds using List.reverseRecOn with
  | nil => decide
  | append_singleton ds c ih =>
    have hc := isDigit_iff.mp (h c (by simp))
    have hds := ih fun d hd => h d (by simp [hd])
    rw [spelled_append, spelled_single, List.length_append, List.length_singleton, Nat.pow_succ]
    omega

/-- Strings of one length that spell one number are equal. -/
theorem eq_of_spelled_eq {as bs : List Char} (has : AllDigits as) (hbs : AllDigits bs)
    (hlength : as.length = bs.length) (h : spelled as = spelled bs) : as = bs := by
  induction as using List.reverseRecOn generalizing bs with
  | nil => exact (List.length_eq_zero_iff.mp hlength.symm).symm
  | append_singleton as a ih =>
    rcases List.eq_nil_or_concat bs with rfl | ⟨bs, b, rfl⟩
    · simp at hlength
    · rw [List.concat_eq_append] at hbs hlength h ⊢
      have ha := isDigit_iff.mp (has a (by simp))
      have hb := isDigit_iff.mp (hbs b (by simp))
      rw [spelled_append, spelled_append, spelled_single, spelled_single] at h
      simp only [List.length_singleton, Nat.pow_one] at h
      have hlast : a = b := Char.toNat_inj.mp (by omega)
      have hfront : as = bs := ih (fun c hc => has c (by simp [hc]))
        (fun c hc => hbs c (by simp [hc])) (by simpa using hlength) (by omega)
      rw [hlast, hfront]

theorem spelled_digits (n : Nat) : spelled (digits n) = n := Nat.ofDigitChars_ten_toDigits

theorem allDigits_digits (n : Nat) : AllDigits (digits n) := fun _ hc =>
  Nat.isDigit_of_mem_toDigits (by decide) (by decide) hc

theorem length_digits_le_iff {n width : Nat} (h : 0 < width) :
    (digits n).length ≤ width ↔ n < 10 ^ width :=
  Nat.length_toDigits_le_iff (by decide) h

/-- Behind a zero in front there would be fewer digits than the number needs. -/
theorem isWhole_digits (n : Nat) : IsWhole (digits n) where
  ne_nil := Nat.toDigits_ne_nil
  allDigits := allDigits_digits n
  lead := by
    intro hzero
    obtain ⟨ds, hds⟩ := List.head?_eq_some_iff.mp hzero
    cases ds with
    | nil => exact hds
    | cons d ds =>
      have hall : AllDigits (d :: ds) := fun c hc => allDigits_digits n c (by simp [hds, hc])
      have hn : n = spelled (d :: ds) := by
        rw [← spelled_digits n, hds]
        simpa [spelled_single] using spelled_append ['0'] (d :: ds)
      have hshort := (length_digits_le_iff (by simp)).mpr (hn ▸ spelled_lt hall)
      rw [hds, List.length_cons, List.length_cons] at hshort
      omega

/-- A digit in front that is no zero makes the number as large as the place it stands at. -/
theorem le_spelled_cons {d : Char} {ds : List Char} (hdigit : d.isDigit = true) (hd : d ≠ '0') :
    10 ^ ds.length ≤ spelled (d :: ds) := by
  have hfirst : 0 < spelled [d] := by
    have hrange := isDigit_iff.mp hdigit
    have hne : d.toNat ≠ 48 := fun heq => hd (Char.toNat_inj.mp heq)
    rw [spelled_single]
    omega
  calc 10 ^ ds.length ≤ 10 ^ ds.length * spelled [d] := Nat.le_mul_of_pos_right _ hfirst
    _ ≤ spelled ([d] ++ ds) := by
      rw [spelled_append]
      exact Nat.le_add_right ..

theorem IsWhole.eq_digits {ds : List Char} (h : IsWhole ds) : ds = digits (spelled ds) := by
  have hpos : 0 < ds.length := List.length_pos_iff.mpr h.ne_nil
  have hle := (length_digits_le_iff hpos).mpr (spelled_lt h.allDigits)
  refine eq_of_spelled_eq h.allDigits (allDigits_digits _) (Nat.le_antisymm ?_ hle)
    (spelled_digits _).symm
  cases hds : ds with
  | nil => exact absurd hds h.ne_nil
  | cons d rest =>
    by_cases hzero : d = '0'
    · subst hzero
      rw [← hds, h.lead (by rw [hds]; rfl)]
      decide
    · have hlow : 10 ^ rest.length ≤ spelled (d :: rest) :=
        le_spelled_cons (h.allDigits d (by simp [hds])) hzero
      by_contra hshort
      have hless : (digits (spelled (d :: rest))).length ≤ rest.length :=
        Nat.le_of_lt_succ (Nat.not_le.mp hshort)
      have hrest : 0 < rest.length := Nat.lt_of_lt_of_le Nat.length_toDigits_pos hless
      exact absurd ((length_digits_le_iff hrest).mp hless) (Nat.not_lt.mpr hlow)

theorem spelled_padded (width n : Nat) : spelled (padded width n) = n := by
  rw [padded, spelled_append, spelled_zeros, spelled_digits, Nat.mul_zero, Nat.zero_add]

theorem allDigits_padded (width n : Nat) : AllDigits (padded width n) := by
  intro c hc
  rcases List.mem_append.mp hc with hc | hc
  · rw [List.eq_of_mem_replicate hc]
    rfl
  · exact allDigits_digits n c hc

/-- A number that has no more digits than the width is written in just so many. -/
theorem length_padded {width n : Nat} (hpos : 0 < width) (h : n < 10 ^ width) :
    (padded width n).length = width := by
  have hle := (length_digits_le_iff hpos).mpr h
  rw [padded, List.length_append, List.length_replicate]
  omega

theorem padded_inj {width n n' : Nat} (h : padded width n = padded width n') : n = n' := by
  rw [← spelled_padded width n, h, spelled_padded]

end ClearSign.Decimal
