import ClearSign.Field.Cell
import ClearSign.Proofs.Text.Digits
import Mathlib.Algebra.Order.Field.Rat
import Mathlib.Data.List.DropRight
import Mathlib.Tactic.FieldSimp
import Mathlib.Tactic.NormNum

/-!
Amounts as numerals. An amount is shown as the shortest numeral of the number it stands for, and
the numeral reads back as just that number, so two amounts never show the same text.
-/

namespace ClearSign

namespace Decimal

/-- Up to a number of decimal places, of which the last is no zero. -/
structure IsFraction (places : Nat) (fs : List Char) : Prop where
  allDigits : AllDigits fs
  length_le : fs.length ≤ places
  last : fs.getLast? ≠ some '0'

/-- A whole part with a fraction behind a point; there is no point without a fraction. -/
def pointed (ds fs : List Char) : List Char := if fs = [] then ds else ds ++ '.' :: fs

/-- The shortest way to write a number that has up to a number of decimal places. -/
def IsNumeral (places : Nat) (cs : List Char) : Prop :=
  ∃ ds fs, IsWhole ds ∧ IsFraction places fs ∧ cs = pointed ds fs

/-- The number that the digits on both sides of a point stand for. -/
def value (ds fs : List Char) : ℚ := spelled ds + spelled fs / 10 ^ fs.length

/-- The number that a numeral stands for: digits, or digits on both sides of a point. -/
def read? (cs : List Char) : Option ℚ :=
  match cs.splitOn '.' with
  | [ds] => if isDigits ds then some (spelled ds) else none
  | [ds, fs] => if isDigits ds && isDigits fs then some (value ds fs) else none
  | _ => none

/-- A fraction written out to its last place. -/
def filled (places : Nat) (fs : List Char) : List Char :=
  fs ++ List.replicate (places - fs.length) '0'

section

variable {places : Nat} {ds fs : List Char}

theorem AllDigits.getLast?_ne {c : Char} (h : AllDigits ds) (hc : c.isDigit = false) :
    ds.getLast? ≠ some c := by
  intro hlast
  rw [h c (List.mem_of_getLast? hlast)] at hc
  cases hc

theorem utf8Size_digit {c : Char} (h : c.isDigit = true) : c.utf8Size = 1 := by
  have hrange := isDigit_iff.mp h
  rw [Char.utf8Size_eq_one_iff, UInt32.le_iff_toNat_le]
  exact Nat.le_trans hrange.2 (by decide)

theorem read?_pointed (hds : IsWhole ds) (hfs : IsFraction places fs) :
    read? (pointed ds fs) = some (value ds fs) := by
  have hwhole := isDigits_iff.mpr ⟨hds.ne_nil, hds.allDigits⟩
  have hpoint := hds.allDigits.notMem (c := '.') rfl
  unfold read? pointed
  by_cases hnil : fs = []
  · rw [if_pos hnil, List.splitOn_eq_singleton hpoint]
    simp [hwhole, value, hnil, spelled, Nat.ofDigitChars_nil]
  · rw [if_neg hnil, List.splitOn_append_cons_self_of_not_mem hpoint,
      List.splitOn_eq_singleton (hfs.allDigits.notMem rfl)]
    simp [hwhole, isDigits_iff.mpr ⟨hnil, hfs.allDigits⟩]

theorem length_filled (h : fs.length ≤ places) : (filled places fs).length = places := by
  rw [filled, List.length_append, List.length_replicate]
  omega

theorem allDigits_filled (h : AllDigits fs) : AllDigits (filled places fs) := by
  intro c hc
  rcases List.mem_append.mp hc with hc | hc
  · exact h c hc
  · rw [List.eq_of_mem_replicate hc]
    rfl

/-- Zeros at its end make no difference to a fraction. -/
theorem spelled_filled (h : fs.length ≤ places) :
    (spelled (filled places fs) : ℚ) / 10 ^ places = spelled fs / 10 ^ fs.length := by
  obtain ⟨more, rfl⟩ := Nat.exists_eq_add_of_le h
  rw [filled, spelled_append, spelled_zeros, List.length_replicate, Nat.add_sub_cancel_left,
    Nat.add_zero, pow_add]
  push_cast
  field_simp

/-- Digits stand for a number of units of the last place just if they spell it, written out to that
place. -/
theorem value_eq_iff {n : Nat} (h : fs.length ≤ places) :
    value ds fs = n / 10 ^ places ↔ 10 ^ places * spelled ds + spelled (filled places fs) = n := by
  rw [value, ← spelled_filled h, ← Nat.cast_inj (R := ℚ)]
  push_cast
  field_simp

end

theorem trimEnd_concat (c d : Char) (cs : List Char) :
    trimEnd c (cs ++ [d]) = if d = c then trimEnd c cs else cs ++ [d] := by
  have hconcat := List.rdropWhile_concat (· == c) cs d
  simp only [beq_iff_eq] at hconcat
  exact hconcat

/-- Nothing is taken away in front of another character. -/
theorem trimEnd_append_cons {c d : Char} (h : d ≠ c) (as bs : List Char) :
    trimEnd c (as ++ d :: bs) = as ++ d :: trimEnd c bs := by
  induction bs using List.reverseRecOn with
  | nil => rw [trimEnd_concat, if_neg h]; rfl
  | append_singleton bs b ih =>
    rw [← List.cons_append, ← List.append_assoc, trimEnd_concat, ih, trimEnd_concat]
    split
    · rfl
    · simp

theorem trimEnd_of_getLast? {c : Char} {cs : List Char} (h : cs.getLast? ≠ some c) :
    trimEnd c cs = cs := by
  rcases List.eq_nil_or_concat cs with rfl | ⟨cs, d, rfl⟩
  · rfl
  · rw [List.concat_eq_append] at h ⊢
    rw [trimEnd_concat, if_neg]
    intro hd
    simp [hd] at h

/-- What is taken away is a run of the character, and nothing of it is left at the end. -/
theorem trimEnd_spec (c : Char) (cs : List Char) :
    (trimEnd c cs).getLast? ≠ some c ∧ ∃ n, cs = trimEnd c cs ++ List.replicate n c := by
  induction cs using List.reverseRecOn with
  | nil => exact ⟨by simp [trimEnd], 0, rfl⟩
  | append_singleton cs d ih =>
    rw [trimEnd_concat]
    by_cases hd : d = c
    · obtain ⟨hlast, n, hcs⟩ := ih
      rw [if_pos hd, hd]
      refine ⟨hlast, n + 1, ?_⟩
      rw [List.replicate_succ', ← List.append_assoc, ← hcs]
    · rw [if_neg hd]
      exact ⟨by simpa using hd, 0, by simp⟩

theorem isFraction_trimEnd {places : Nat} {fs : List Char} (h : AllDigits fs)
    (hlength : fs.length = places) :
    IsFraction places (trimEnd '0' fs) ∧ filled places (trimEnd '0' fs) = fs := by
  obtain ⟨hlast, n, hfs⟩ := trimEnd_spec '0' fs
  have hsum : (trimEnd '0' fs).length + n = places := by
    have hcount := congrArg List.length hfs
    rw [List.length_append, List.length_replicate] at hcount
    omega
  refine ⟨⟨fun c hc => h c ?_, by omega, hlast⟩, ?_⟩
  · rw [hfs]
    exact List.mem_append_left _ hc
  · rw [filled, show places - (trimEnd '0' fs).length = n by omega, ← hfs]

theorem trimEnd_append_replicate (c : Char) (cs : List Char) (n : Nat) :
    trimEnd c (cs ++ List.replicate n c) = trimEnd c cs := by
  induction n with
  | zero => rw [List.replicate_zero, List.append_nil]
  | succ n ih => rw [List.replicate_succ', ← List.append_assoc, trimEnd_concat, if_pos rfl, ih]

/-- A fraction can be told from what it is when it is written out. -/
theorem IsFraction.trimEnd_filled {places : Nat} {fs : List Char} (h : IsFraction places fs) :
    trimEnd '0' (filled places fs) = fs := by
  rw [filled, trimEnd_append_replicate, trimEnd_of_getLast? h.last]

theorem size_eq_length {ds : List Char} (h : AllDigits ds) : Utf8.size ds = ds.length := by
  induction ds with
  | nil => rfl
  | cons c ds ih =>
    rw [Utf8.size, utf8Size_digit (h c List.mem_cons_self),
      ih fun d hd => h d (List.mem_cons_of_mem _ hd), List.length_cons, Nat.add_comm]

theorem fit_eq_take {ds : List Char} (h : AllDigits ds) (n : Nat) :
    Utf8.fit n ds = ds.take n := by
  induction ds generalizing n with
  | nil => simp [Utf8.fit]
  | cons c ds ih =>
    have hds : AllDigits ds := fun d hd => h d (List.mem_cons_of_mem _ hd)
    rw [Utf8.fit, utf8Size_digit (h c List.mem_cons_self)]
    cases n with
    | zero => rfl
    | succ n => rw [if_pos (Nat.le_add_left ..), Nat.add_sub_cancel, ih hds, List.take_succ_cons]

theorem IsWhole.take {ds : List Char} (h : IsWhole ds) {n : Nat} (hpos : 0 < n) :
    IsWhole (ds.take n) where
  ne_nil := by
    have hlength := List.length_pos_iff.mpr h.ne_nil
    rw [← List.length_pos_iff, List.length_take]
    omega
  allDigits c hc := h.allDigits c (List.mem_of_mem_take hc)
  lead hzero := by
    rw [List.head?_take, if_neg (Nat.ne_of_gt hpos)] at hzero
    rw [h.lead hzero]
    exact List.take_of_length_le hpos

/-- The point cuts a numeral in two, with a zero in front of it and zeros behind it where there are
too few digits. -/
theorem withPoint_eq {ds : List Char} (h : IsWhole ds) (places : Nat) :
    ∃ whole fs, withPoint places ds = whole ++ '.' :: fs ∧ IsWhole whole ∧ AllDigits fs ∧
      fs.length = places ∧ 10 ^ places * spelled whole + spelled fs = spelled ds := by
  unfold withPoint
  simp only [size_eq_length h.allDigits, fit_eq_take h.allDigits]
  by_cases hshort : ds.length ≤ places
  · rw [if_pos hshort, Nat.sub_eq_zero_of_le hshort]
    refine ⟨['0'], _, rfl, isWhole_digits 0, ?_, ?_, ?_⟩
    · intro c hc
      rcases List.mem_append.mp hc with hc | hc
      · rw [List.eq_of_mem_replicate hc]
        rfl
      · exact h.allDigits c (List.mem_of_mem_drop hc)
    · simp
      omega
    · simp [spelled_append, spelled_zeros, spelled_single]
  · have htake : (ds.take (ds.length - places)).length = ds.length - places := by
      rw [List.length_take]
      omega
    have hfill : places - ds.length = 0 := by omega
    rw [if_neg hshort, hfill, htake]
    have hlength : (ds.drop (ds.length - places)).length = places := by
      rw [List.length_drop]
      omega
    refine ⟨_, _, rfl, h.take (by omega), ?_, by simpa using hlength, ?_⟩
    · intro c hc
      exact h.allDigits c (List.mem_of_mem_drop (by simpa using hc))
    · have hcut := spelled_append (ds.take (ds.length - places)) (ds.drop (ds.length - places))
      rw [List.take_append_drop, hlength] at hcut
      exact hcut.symm

/-- A numeral that is scaled down is the shortest for its number. -/
theorem shift_eq {ds : List Char} (h : IsWhole ds) (places : Nat) :
    ∃ whole fs, shift places ds = pointed whole fs ∧ IsWhole whole ∧ IsFraction places fs ∧
      10 ^ places * spelled whole + spelled (filled places fs) = spelled ds := by
  unfold shift
  by_cases hzero : places = 0
  · subst hzero
    refine ⟨ds, [], rfl, h, ⟨by simp [AllDigits], Nat.zero_le _, by simp⟩, ?_⟩
    simp [filled, spelled, Nat.ofDigitChars_nil]
  · obtain ⟨whole, fs, hpoint, hwhole, hfs, hlength, hvalue⟩ := withPoint_eq h places
    obtain ⟨hfraction, hfilled⟩ := isFraction_trimEnd hfs hlength
    rw [if_neg hzero, hpoint, trimEnd_append_cons (by decide)]
    refine ⟨whole, _, ?_, hwhole, hfraction, hfilled.symm ▸ hvalue⟩
    unfold pointed
    by_cases hnil : trimEnd '0' fs = []
    · rw [if_pos hnil, hnil, trimEnd_concat, if_pos rfl,
        trimEnd_of_getLast? (hwhole.allDigits.getLast?_ne (by decide))]
    · rw [if_neg hnil, trimEnd_of_getLast?]
      rw [List.getLast?_append_cons, List.getLast?_cons_of_ne_nil hnil]
      exact hfraction.allDigits.getLast?_ne (by decide)

/-- The digits on both sides of the point are settled by the number of units of the last place. -/
theorem pointed_unique {places : Nat} {ds ds' fs fs' : List Char} (hds : IsWhole ds)
    (hds' : IsWhole ds') (hfs : IsFraction places fs) (hfs' : IsFraction places fs')
    (h : 10 ^ places * spelled ds + spelled (filled places fs) =
      10 ^ places * spelled ds' + spelled (filled places fs')) : ds = ds' ∧ fs = fs' := by
  have hlength := length_filled hfs.length_le
  have hlength' := length_filled hfs'.length_le
  have hlt := hlength ▸ spelled_lt (allDigits_filled hfs.allDigits)
  have hlt' := hlength' ▸ spelled_lt (allDigits_filled hfs'.allDigits)
  have hpos : 0 < 10 ^ places := Nat.pow_pos (by decide)
  obtain ⟨hquotient, hrest⟩ := (Nat.div_mod_unique hpos).mpr ⟨(Nat.add_comm ..).trans h, hlt⟩
  obtain ⟨hquotient', hrest'⟩ :=
    (Nat.div_mod_unique hpos (d := spelled ds')).mpr ⟨Nat.add_comm .., hlt'⟩
  have hfilled : filled places fs = filled places fs' :=
    eq_of_spelled_eq (allDigits_filled hfs.allDigits) (allDigits_filled hfs'.allDigits)
      (hlength.trans hlength'.symm) (hrest.symm.trans hrest')
  refine ⟨?_, ?_⟩
  · rw [hds.eq_digits, hquotient.symm.trans hquotient', ← hds'.eq_digits]
  · rw [← hfs.trimEnd_filled, hfilled, hfs'.trimEnd_filled]

/-- Of all numerals the one that is written is the one that reads back as the number. -/
theorem shift_digits_iff (places n : Nat) (cs : List Char) :
    cs = shift places (digits n) ↔
      IsNumeral places cs ∧ read? cs = some ((n : ℚ) / 10 ^ places) := by
  obtain ⟨whole, fs, hshift, hwhole, hfs, hvalue⟩ := shift_eq (isWhole_digits n) places
  rw [spelled_digits] at hvalue
  constructor
  · rintro rfl
    refine ⟨⟨whole, fs, hwhole, hfs, hshift⟩, ?_⟩
    rw [hshift, read?_pointed hwhole hfs, (value_eq_iff hfs.length_le).mpr hvalue]
  · rintro ⟨⟨ds, gs, hds, hgs, rfl⟩, hread⟩
    rw [read?_pointed hds hgs, Option.some.injEq, value_eq_iff hgs.length_le] at hread
    obtain ⟨rfl, rfl⟩ := pointed_unique hds hwhole hgs hfs (hread.trans hvalue.symm)
    exact hshift.symm

theorem scaledText_iff (places : Nat) (bs : Bytes) (cs : List Char) :
    cs = (scaledText places bs).toList ↔
      IsNumeral places cs ∧ read? cs = some ((bs.toNat : ℚ) / 10 ^ places) := by
  rw [scaledText, String.toList_ofList, shift_digits_iff]

theorem scaledText_inj {places : Nat} {bs bs' : Bytes} :
    scaledText places bs = scaledText places bs' ↔ bs.toNat = bs'.toNat := by
  constructor
  · intro h
    have hread := ((scaledText_iff places bs _).mp rfl).2
    rw [h, ((scaledText_iff places bs' _).mp rfl).2, Option.some.injEq] at hread
    field_simp at hread
    exact (Nat.cast_inj.mp hread).symm
  · intro h
    rw [scaledText, h, scaledText]

theorem amountText_eq_iff_toNat_eq {places : Nat} {ticker : String} {bs bs' : Bytes} :
    amountText places ticker bs = amountText places ticker bs' ↔ bs.toNat = bs'.toNat := by
  unfold amountText
  split
  · exact scaledText_inj
  · rw [String.append_left_inj, String.append_left_inj, scaledText_inj]

open Param in
/-- An amount is shown by the one numeral, in the shortest form, that reads back as its number of
units, each as small as the decimal places say. So of the fields that show amounts in one currency
no two show different amounts by the same text, as long as amounts are shown by their numbers. -/
theorem amounts_exact :
    (∀ (places : Nat) (bs : Bytes) (cs : List Char), cs = (scaledText places bs).toList ↔
      IsNumeral places cs ∧ read? cs = some ((bs.toNat : ℚ) / 10 ^ places)) ∧
    (∀ (ticker : String) (c c' : Capture),
      (Single.amountCell ticker c).text = (Single.amountCell ticker c').text ↔
        c.bytes.toNat = c'.bytes.toNat) ∧
    (∀ (p : TokenAmount) (currency : Currency) (c c' : Capture), p.threshold = 0 →
      ((p.cell currency c).text = (p.cell currency c').text ↔
        c.bytes.toNat = c'.bytes.toNat)) ∧
    ∀ (p : Quantity) (c c' : Capture),
      (p.cell c).text = (p.cell c').text ↔ c.bytes.toNat = c'.bytes.toNat := by
  refine ⟨scaledText_iff, fun _ _ _ => amountText_eq_iff_toNat_eq, ?_, ?_⟩
  · intro p currency c c' hthreshold
    have hnumber (c : Capture) :
        (p.cell currency c).text = amountText currency.places currency.ticker c.bytes := by
      simp [TokenAmount.cell, TokenAmount.isAbove, hthreshold]
    rw [hnumber, hnumber, amountText_eq_iff_toNat_eq]
  · intro p c c'
    show scaledText _ _ ++ _ ++ _ = scaledText _ _ ++ _ ++ _ ↔ _
    rw [String.append_left_inj, String.append_left_inj, scaledText_inj]

/-- One and a half tokens of six decimal places, and the smallest part of a token more. -/
theorem amounts_exact_part :
    let p : Param.TokenAmount := ⟨1, ⟨1, .uint, none, .constant []⟩, none, [], 0, none⟩
    let currency := Param.Currency.token ⟨1, Fixed.zero 20, "T", 6⟩
    let half := Capture.whole [0x16, 0xe3, 0x60]
    let more := Capture.whole [0x16, 0xe3, 0x61]
    read? (scaledText 6 half.bytes).toList = some (3 / 2) ∧
      (p.cell currency half).text = "1.5 T" ∧
      p.threshold = 0 ∧ (p.cell currency half).text ≠ (p.cell currency more).text := by
  intro p currency half more
  obtain ⟨hnumeral, -, hshown, -⟩ := amounts_exact
  refine ⟨?_, by decide +kernel, rfl, ?_⟩
  · rw [((hnumeral 6 half.bytes _).mp rfl).2]
    have hhalf : half.bytes.toNat = 1500000 := by decide
    norm_num [hhalf]
  · rw [ne_eq, hshown p currency half more rfl]
    decide

end Decimal
end ClearSign
