import ClearSign.Text.Hex
import ClearSign.Text.Utf8
import Mathlib.Data.String.Basic

/-!
Texts on a display of limited width. A text that is too long is cut between two characters; the
digits of a byte string end in an ellipsis then, which is never cut itself.
-/

namespace ClearSign

/-- A text is shown whole where it fits, and only there; else some start of it is shown, with a mark
behind it. -/
structure Shortened (width : Nat) (full mark : List Char) (shown : String) : Prop where
  whole : shown = String.ofList full ↔ (String.ofList full).utf8ByteSize ≤ width
  front : width < (String.ofList full).utf8ByteSize →
    ∃ front, front <+: full ∧ front ≠ full ∧ shown = String.ofList (front ++ mark)

/-- A text is cut, if it has to be, and takes no more than the width. -/
structure FitsWidth (width : Nat) (full mark : List Char) (shown : String) : Prop
    extends Shortened width full mark shown where
  bound : shown.utf8ByteSize ≤ width

namespace Utf8

theorem utf8Len_fit_le (max : Nat) (cs : List Char) : String.utf8Len (fit max cs) ≤ max := by
  induction cs generalizing max with
  | nil => exact Nat.zero_le max
  | cons c cs ih =>
    unfold fit
    split
    · rename_i hfits
      have hrest := ih (max - c.utf8Size)
      rw [String.utf8Len_cons]
      omega
    · exact Nat.zero_le max

theorem fit_prefix (max : Nat) (cs : List Char) : fit max cs <+: cs := by
  induction cs generalizing max with
  | nil => exact List.prefix_refl []
  | cons c cs ih =>
    unfold fit
    split
    · exact List.prefix_cons_inj c |>.mpr (ih _)
    · exact List.nil_prefix

theorem fit_eq_self_iff {max : Nat} {cs : List Char} :
    fit max cs = cs ↔ String.utf8Len cs ≤ max := by
  constructor
  · intro h
    rw [← h]
    exact utf8Len_fit_le max cs
  · induction cs generalizing max with
    | nil => exact fun _ => rfl
    | cons c cs ih =>
      intro h
      rw [String.utf8Len_cons] at h
      rw [fit, if_pos (by omega), ih (by omega)]

/-- Readable text is cut to its limit. -/
theorem utf8ByteSize_readable_le (max : Nat) (bs : Bytes) :
    (readable max bs).utf8ByteSize ≤ max := by
  unfold readable
  rw [String.utf8ByteSize_ofList]
  exact utf8Len_fit_le max (lossy bs)

/-- Readable text is cut between two characters. -/
theorem shortened_readable (max : Nat) (bs : Bytes) :
    Shortened max (lossy bs) [] (readable max bs) where
  whole := by
    unfold readable
    rw [String.ofList_inj, fit_eq_self_iff, String.utf8ByteSize_ofList]
  front h := by
    rw [String.utf8ByteSize_ofList] at h
    refine ⟨fit max (lossy bs), fit_prefix max _, ?_, by rw [List.append_nil]; rfl⟩
    rw [ne_eq, fit_eq_self_iff]
    omega

theorem utf8Len_eq_length {cs : List Char} (h : ∀ c ∈ cs, c.utf8Size = 1) :
    String.utf8Len cs = cs.length := by
  induction cs with
  | nil => rfl
  | cons c cs ih =>
    rw [List.forall_mem_cons] at h
    rw [String.utf8Len_cons, h.1, ih h.2, List.length_cons]

end Utf8

namespace Hex

theorem utf8Size_nibble (n : Nat) : (nibble n).utf8Size = 1 := by
  have hall : ∀ k < 16, (Nat.digitChar k).utf8Size = 1 := by decide
  exact hall _ (Nat.mod_lt n (by decide))

theorem utf8Size_marked {bs : Bytes} : ∀ c ∈ marked bs, c.utf8Size = 1 := by
  intro c hc
  unfold marked chars byte at hc
  simp only [List.mem_cons, List.mem_flatMap, List.not_mem_nil, or_false] at hc
  rcases hc with rfl | rfl | ⟨b, -, rfl | rfl⟩
  · rfl
  · rfl
  · exact utf8Size_nibble _
  · exact utf8Size_nibble _

theorem length_marked (bs : Bytes) : (marked bs).length = 2 * bs.length + 2 := by
  unfold marked chars
  induction bs with
  | nil => rfl
  | cons b bs ih =>
    simp only [List.length_cons, List.flatMap_cons, List.length_append] at ih ⊢
    simp only [byte, List.length_cons, List.length_nil]
    omega

theorem utf8ByteSize_marked (bs : Bytes) :
    (String.ofList (marked bs)).utf8ByteSize = (marked bs).length := by
  rw [String.utf8ByteSize_ofList, Utf8.utf8Len_eq_length utf8Size_marked]

variable {width : Nat} {bs : Bytes}

theorem utf8ByteSize_fitted (h : width < (marked bs).length) :
    (fitted width bs).utf8ByteSize = width - 3 + 3 := by
  unfold fitted
  rw [if_neg (Nat.not_le.mpr h), String.utf8ByteSize_ofList, Utf8.utf8Len_eq_length]
  · rw [List.length_append, List.length_take, Nat.min_eq_left (by omega)]
    rfl
  · intro c hc
    rcases List.mem_append.mp hc with hc | hc
    · exact utf8Size_marked c (List.mem_of_mem_take hc)
    · simp only [List.mem_cons, List.not_mem_nil, or_false, or_self] at hc
      rw [hc]
      rfl

/-- Digits are cut where the ellipsis leaves room for them. -/
theorem shortened_fitted (width : Nat) (bs : Bytes) :
    Shortened width (marked bs) ['.', '.', '.'] (fitted width bs) where
  whole := by
    rw [utf8ByteSize_marked]
    constructor
    · intro h
      refine Nat.le_of_not_lt fun hlong => ?_
      have hsize := utf8ByteSize_fitted hlong
      rw [h, utf8ByteSize_marked] at hsize
      -- a width below three would leave three characters, an odd number
      rw [length_marked] at hsize hlong
      omega
    · intro h
      unfold fitted
      rw [if_pos h]
  front h := by
    rw [utf8ByteSize_marked] at h
    refine ⟨(marked bs).take (width - 3), List.take_prefix _ _, ?_, ?_⟩
    · intro hall
      have hlength := congrArg List.length hall
      rw [List.length_take, length_marked] at hlength
      rw [length_marked] at h
      omega
    · unfold fitted
      rw [if_neg (Nat.not_le.mpr h)]

/-- Digits keep to the width unless they are cut to less than the ellipsis takes. -/
theorem utf8ByteSize_fitted_le_iff : (fitted width bs).utf8ByteSize ≤ width ↔
    3 ≤ width ∨ (String.ofList (marked bs)).utf8ByteSize ≤ width := by
  rw [utf8ByteSize_marked]
  by_cases h : (marked bs).length ≤ width
  · have hwhole := (shortened_fitted width bs).whole
    rw [utf8ByteSize_marked] at hwhole
    rw [hwhole.mpr h, utf8ByteSize_marked]
    simp [h]
  · rw [utf8ByteSize_fitted (Nat.lt_of_not_le h)]
    omega

end Hex

end ClearSign
