import ClearSign.Proofs.Text.Decoding
import ClearSign.Proofs.Text.Fitting

/-!
Cutting a text back to a limit: from the limit on, one byte after the other towards the front, until
a place between two characters is met. There always is one, and the text up to it is the longest
start that keeps to the limit. What bytes read as is cut in this way, and reads as itself again.
-/

namespace ClearSign.Utf8

/-- The longest start of a text, between two characters, that takes up at most `max` bytes. -/
structure LongestFit (max : Nat) (full text : String) : Prop where
  front : text.toList <+: full.toList
  fits : text.utf8ByteSize ≤ max
  longest : ∀ other : String, other.toList <+: full.toList → other.utf8ByteSize ≤ max →
    other.toList <+: text.toList

/-- The last place between two characters that is at most `place` bytes behind the front. Nothing,
if there is none at the front either, from where the search would leave the text. -/
def boundaryBefore? (s : String) : (place : Nat) → Option Nat
  | 0 => if (⟨0⟩ : String.Pos.Raw).isValid s then some 0 else none
  | place + 1 =>
    if (⟨place + 1⟩ : String.Pos.Raw).isValid s then some (place + 1) else boundaryBefore? s place

/-- The bytes of a text that is cut back to `max` of them, if it has more. -/
def cutBack? (max : Nat) (s : String) : Option ByteArray :=
  if s.utf8ByteSize ≤ max then some s.toByteArray
  else (boundaryBefore? s max).map (s.toByteArray.extract 0)

/-- The bytes that a text is written as. -/
def written (s : String) : Bytes := s.toByteArray.data.toList

section

variable {max : Nat} {s : String}

theorem utf8Len_toList (s : String) : String.utf8Len s.toList = s.utf8ByteSize := by
  rw [← String.utf8ByteSize_ofList, String.ofList_toList]

theorem prefix_fit {max : Nat} {cs other : List Char} (h : other <+: cs)
    (hfits : String.utf8Len other ≤ max) : other <+: fit max cs := by
  induction cs generalizing max other with
  | nil => exact h
  | cons c cs ih =>
    cases other with
    | nil => exact List.nil_prefix
    | cons d other =>
      obtain ⟨rfl, hrest⟩ := List.cons_prefix_cons.mp h
      rw [String.utf8Len_cons] at hfits
      rw [fit, if_pos (by omega)]
      exact List.cons_prefix_cons.mpr ⟨rfl, ih hrest (by omega)⟩

theorem toList_cut (max : Nat) (s : String) : (cut max s).toList = fit max s.toList :=
  String.toList_ofList

theorem utf8ByteSize_cut_le (max : Nat) (s : String) : (cut max s).utf8ByteSize ≤ max := by
  rw [← utf8Len_toList, toList_cut]
  exact utf8Len_fit_le max s.toList

theorem longestFit_cut (max : Nat) (s : String) : LongestFit max s (cut max s) where
  front := by
    rw [toList_cut]
    exact fit_prefix max s.toList
  fits := utf8ByteSize_cut_le max s
  longest other hfront hfits := by
    rw [← utf8Len_toList] at hfits
    rw [toList_cut]
    exact prefix_fit hfront hfits

theorem cut_of_fits (h : s.utf8ByteSize ≤ max) : cut max s = s := by
  rw [← utf8Len_toList] at h
  rw [cut, fit_eq_self_iff.mpr h, String.ofList_toList]

/-- A place is between two characters just if some start of the text ends there. -/
theorem isValid_iff {place : Nat} : (⟨place⟩ : String.Pos.Raw).isValid s = true ↔
    ∃ front : String, front.toList <+: s.toList ∧ front.utf8ByteSize = place := by
  rw [String.Pos.Raw.isValid_eq_true_iff, String.Pos.Raw.isValid_iff_exists_append]
  constructor
  · rintro ⟨front, rest, rfl, hplace⟩
    exact ⟨front, by rw [String.toList_append]; exact List.prefix_append _ _,
      congrArg String.Pos.Raw.byteIdx hplace.symm⟩
  · rintro ⟨front, ⟨rest, hrest⟩, rfl⟩
    refine ⟨front, String.ofList rest, ?_, rfl⟩
    rw [← String.toList_inj, String.toList_append, String.toList_ofList, hrest]

theorem boundaryBefore?_eq {place found : Nat} (hle : found ≤ place)
    (hfound : (⟨found⟩ : String.Pos.Raw).isValid s = true)
    (hlast : ∀ i, found < i → i ≤ place → (⟨i⟩ : String.Pos.Raw).isValid s ≠ true) :
    boundaryBefore? s place = some found := by
  induction place with
  | zero =>
    obtain rfl := Nat.le_zero.mp hle
    rw [boundaryBefore?, if_pos hfound]
  | succ place ih =>
    by_cases hhere : found = place + 1
    · subst hhere
      rw [boundaryBefore?, if_pos hfound]
    · rw [boundaryBefore?, if_neg (hlast _ (by omega) (Nat.le_refl _))]
      exact ih (by omega) fun i hi hile => hlast i hi (by omega)

/-- The search ends where the longest start that keeps to the limit does. -/
theorem boundaryBefore?_cut (max : Nat) (s : String) :
    boundaryBefore? s max = some (cut max s).utf8ByteSize := by
  have hlongest := longestFit_cut max s
  refine boundaryBefore?_eq hlongest.fits (isValid_iff.mpr ⟨_, hlongest.front, rfl⟩) ?_
  intro i hi hle hvalid
  obtain ⟨front, hfront, rfl⟩ := isValid_iff.mp hvalid
  have hsublist := (hlongest.longest front hfront hle).sublist
  have hsize := String.utf8Len_le_of_sublist hsublist
  rw [utf8Len_toList, utf8Len_toList] at hsize
  omega

theorem extract_append (s t : String) :
    (s ++ t).toByteArray.extract 0 s.utf8ByteSize = s.toByteArray := by
  rw [String.toByteArray_append]
  exact ByteArray.extract_append_eq_left rfl

theorem cutBack?_eq (max : Nat) (s : String) : cutBack? max s = some (cut max s).toByteArray := by
  unfold cutBack?
  by_cases hfits : s.utf8ByteSize ≤ max
  · rw [if_pos hfits, cut_of_fits hfits]
  · rw [if_neg hfits, boundaryBefore?_cut, Option.map_some]
    obtain ⟨rest, hrest⟩ := (longestFit_cut max s).front
    have hparts : s = cut max s ++ String.ofList rest := by
      rw [← String.toList_inj, String.toList_append, String.toList_ofList, hrest]
    have hextract := extract_append (cut max s) (String.ofList rest)
    rw [← hparts] at hextract
    rw [hextract]

end

section

variable {max : Nat} {bs : Bytes}

theorem written_ofList (cs : List Char) :
    written (String.ofList cs) = cs.flatMap String.utf8EncodeChar := by
  rw [written, String.toByteArray_ofList, List.utf8Encode, List.data_toByteArray]

theorem units_written (s : String) : units none (written s) = s.toList.map some := by
  rw [← String.ofList_toList (s := s), written_ofList, String.toList_ofList]
  induction s.toList with
  | nil => rfl
  | cons c cs ih => rw [List.flatMap_cons, units_encode, ih, List.map_cons]

/-- A text reads as itself. -/
theorem lossy_written (s : String) : lossy (written s) = s.toList := by
  rw [lossy, units_written, List.map_map]
  exact List.map_id _

theorem strict?_written (s : String) : strict? (written s) = some s.toList := by
  rw [strict?, units_written]
  induction s.toList with
  | nil => rfl
  | cons c cs ih => rw [List.map_cons, List.mapM_cons, ih]; rfl

theorem readable_eq_cut (max : Nat) (bs : Bytes) :
    readable max bs = cut max (String.ofList (lossy bs)) := by
  rw [cut, String.toList_ofList]
  rfl

theorem exists_written (h : bs.toByteArray.IsValidUTF8) : ∃ s, written s = bs := by
  obtain ⟨cs, hcs⟩ := h
  refine ⟨String.ofList cs, ?_⟩
  rw [written_ofList]
  exact List.toByteArray_inj.mp hcs.symm

/-- A text is what bytes read as, safely cut to a limit. -/
structure SafelyCut (max : Nat) (bs : Bytes) (text : String) : Prop where
  longest : ∃ full, (∀ other, Reads bs other ↔ full = other) ∧
    LongestFit max (String.ofList full) text ∧
    cutBack? max (String.ofList full) = some text.toByteArray
  valid : strict? (written text) = some text.toList
  whole : bs.toByteArray.IsValidUTF8 → bs.length ≤ max → written text = bs
  again : cut max text = text ∧ readable max (written text) = text

theorem safelyCut_readable (max : Nat) (bs : Bytes) : SafelyCut max bs (readable max bs) where
  longest := by
    refine ⟨lossy bs, fun _ => reads_iff, ?_, ?_⟩
    · rw [readable_eq_cut]
      exact longestFit_cut max _
    · rw [readable_eq_cut]
      exact cutBack?_eq max _
  valid := strict?_written _
  whole hvalid hfits := by
    obtain ⟨s, rfl⟩ := exists_written hvalid
    rw [readable_eq_cut, lossy_written, String.ofList_toList, cut_of_fits hfits]
  again := by
    have hcut := cut_of_fits (utf8ByteSize_readable_le max bs)
    refine ⟨hcut, ?_⟩
    rw [readable_eq_cut max (written _), lossy_written, String.ofList_toList, hcut]

/-- A stray byte reads as a character of three bytes, and the last character would be cut. -/
example : readable 5 [0x61, 0xff, 0xc3, 0xa9] = "a\ufffd" := by
  decide +kernel

end

end ClearSign.Utf8
