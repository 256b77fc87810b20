import ClearSign.Proofs.Field.FanOut
import ClearSign.Proofs.Text.Decoding
import ClearSign.Proofs.Text.Fitting

/-!
Raw texts on the display. Byte strings that are shown as digits or read as text are cut to the width
of the display. Text always fits; digits fit unless they are too long for a display that has no room
for the ellipsis either, which is shown whole all the same.
-/

namespace ClearSign

open Refusal

namespace Param

/-- The full text of a byte string of a type that is cut to the display: its digits behind `0x`, or
what it reads as. -/
inductive FullText : TypeFamily → Bytes → List Char → Prop
  | bytes (bs : Bytes) : FullText .bytes bs (Hex.marked bs)
  | string {bs : Bytes} {cs : List Char} (h : Utf8.Reads bs cs) : FullText .string bs cs

/-- What stands behind a text of a type that is cut. -/
def cutMark : TypeFamily → List Char
  | .bytes => ['.', '.', '.']
  | _ => []

/-- A byte string is shown as its full text, cut if it has to be. -/
theorem rawText_shortened {width : Nat} {chain : ChainId} {v : Value} {bs : Bytes} {text : String}
    (hfamily : v.family = .bytes ∨ v.family = .string)
    (h : rawText width chain v bs = .ok text) :
    ∃ full, FullText v.family bs full ∧ Shortened width full (cutMark v.family) text ∧
      (text.utf8ByteSize ≤ width ↔
        v.family = .string ∨ 3 ≤ width ∨ (String.ofList full).utf8ByteSize ≤ width) := by
  unfold rawText at h
  rcases hfamily with hfamily | hfamily
  · rw [hfamily] at h ⊢
    cases h
    refine ⟨Hex.marked bs, .bytes bs, Hex.shortened_fitted width bs, ?_⟩
    rw [Hex.utf8ByteSize_fitted_le_iff]
    simp
  · rw [hfamily] at h ⊢
    cases h
    refine ⟨Utf8.lossy bs, .string (Utf8.reads_iff.mpr rfl), Utf8.shortened_readable width bs, ?_⟩
    simp [Utf8.utf8ByteSize_readable_le]

end Param

namespace Field

open ClearSign.Action

/-- The rows of a raw field are texts of its byte strings, one by one and in order, without those
that are hidden. A field that is refused has rows for a front of them. -/
theorem format_rawText (host : Host) (cache : Cache) (r : Review) {field : Field}
    {p : Param.Single} {captures : Captures} (hparam : field.param = .raw p)
    (hresolve : p.value.resolve r.calls.currentCall = .ok captures) :
    ∃ k rows, ((field.format host cache).exec r).2 = { r with table := r.table ++ rows } ∧
      (((field.format host cache).exec r).1 = .ok () → captures.length ≤ k) ∧
      List.Forall₂ (fun c row => ∃ chain,
          Param.rawText host.settings.displayWidth chain p.value c.bytes = .ok row.value)
        ((captures.take k).filter fun c => !field.hides ⟨host, cache, r.calls.currentCall⟩ c)
        rows := by
  let scope : Scope := ⟨host, cache, r.calls.currentCall⟩
  have hkind : field.param.kind ≠ .calldata := by
    rw [hparam]
    exact nofun
  cases hcells : field.param.cells scope field with
  | error e =>
    refine ⟨0, [], ?_, ?_, List.Forall₂.nil⟩
    · rw [exec_format_refused hkind hcells, List.append_nil]
    · rw [exec_format_refused hkind hcells]
      exact nofun
  | ok cells =>
    have hshown : field.param.shown? = some p.value := by
      rw [hparam]
      rfl
    obtain ⟨items, hlists, hanswers⟩ := exists_lists hshown hcells
    obtain rfl : captures = items.map Item.main :=
      Except.ok.inj (hresolve.symm.trans hlists.main)
    obtain ⟨rows, hshows⟩ := forM_addCell_shows host hanswers r
    rw [← exec_format hkind hcells] at hshows
    have htexts : ∀ k, field.Rows scope r.calls.isVerified (items.take k) rows →
        List.Forall₂ (fun c row => ∃ chain,
            Param.rawText host.settings.displayWidth chain p.value c.bytes = .ok row.value)
          (((items.map Item.main).take k).filter fun c => !field.hides scope c) rows := by
      intro k hrows
      rw [← List.map_take, List.filter_map, List.forall₂_map_left_iff]
      refine hrows.imp fun item row hrow => ?_
      obtain ⟨cell, hpicture, rfl⟩ := hrow
      rw [hparam] at hpicture
      cases hpicture with
      | raw _ htext => exact ⟨_, htext⟩
    cases hanswer : ((field.format host cache).exec r).1 with
    | ok u =>
      refine ⟨items.length, rows, hshows.frame, fun _ => (List.length_map _).le, htexts _ ?_⟩
      rw [List.take_length]
      exact hshows.all hanswer
    | error e =>
      obtain ⟨k, -, hrows⟩ := hshows.front e hanswer
      exact ⟨k, rows, hshows.frame, nofun, htexts k hrows⟩

/-- A field shows byte strings as digits, or as text, in rows that stand for them one by one and in
order, without those that are hidden; if it is refused, for a front of them. A row shows all of the
byte string just if the display is wide enough, and else a start of it, with an ellipsis behind
digits. It keeps to the width of the display just if it is text, or the display has room for the
ellipsis, or the full text fits. -/
theorem rows_fit_iff (host : Host) (cache : Cache) (r : Review) (field : Field) (p : Param.Single)
    (captures : Captures) (hparam : field.param = .raw p)
    (hfamily : p.value.family = .bytes ∨ p.value.family = .string)
    (hresolve : p.value.resolve r.calls.currentCall = .ok captures) :
    let scope : Scope := ⟨host, cache, r.calls.currentCall⟩
    let width := host.settings.displayWidth
    ∃ k rows, ((field.format host cache).exec r).2 = { r with table := r.table ++ rows } ∧
      (((field.format host cache).exec r).1 = .ok () → captures.length ≤ k) ∧
      List.Forall₂ (fun c row => ∃ full, Param.FullText p.value.family c.bytes full ∧
          Shortened width full (Param.cutMark p.value.family) row.value ∧
          (FitsWidth width full (Param.cutMark p.value.family) row.value ↔
            p.value.family = .string ∨ 3 ≤ width ∨ (String.ofList full).utf8ByteSize ≤ width))
        ((captures.take k).filter fun c => !field.hides scope c) rows := by
  intro scope width
  obtain ⟨k, rows, hexec, hall, hrows⟩ := format_rawText host cache r hparam hresolve
  refine ⟨k, rows, hexec, hall, hrows.imp fun c row hrow => ?_⟩
  obtain ⟨chain, htext⟩ := hrow
  obtain ⟨full, hfull, hcut, hbound⟩ := Param.rawText_shortened hfamily htext
  refine ⟨full, hfull, hcut, ?_⟩
  constructor
  · intro hfits
    exact hbound.mp hfits.bound
  · intro hroom
    exact ⟨hcut, hbound.mpr hroom⟩

/-- A field that shows bytes as digits. -/
def sampleDigits (bs : Bytes) : Field :=
  ⟨1, "a", .raw ⟨1, ⟨1, .bytes, none, .constant bs⟩⟩, .always, []⟩

/-- A device with a display of some width. -/
def displayDevice (width : Nat) : Device where
  registry := (Session.sampleDevice .transaction).registry
  settings := { Settings.default with displayWidth := width }
  verifier := fun _ _ _ => true

open Session in
/-- Six digits do not fit behind the ellipsis on seven places, and two of them do. -/
theorem rows_fit_iff_seven :
    let device := displayDevice 7
    let s := after device [sampleArguments, sampleInfo []]
    ∃ row, (((sampleDigits [1, 2, 3]).format device.toHost s.cache).exec s.review).2 =
        { s.review with table := s.review.table ++ [row] } ∧
      FitsWidth 7 (Hex.marked [1, 2, 3]) ['.', '.', '.'] row.value ∧ row.value = "0x01..." := by
  intro device s
  obtain ⟨k, rows, hexec, hall, hrows⟩ := rows_fit_iff device.toHost s.cache s.review
    (sampleDigits [1, 2, 3]) ⟨1, ⟨1, .bytes, none, .constant [1, 2, 3]⟩⟩ [Capture.whole [1, 2, 3]]
    rfl (.inl rfl) rfl
  have hanswer : (((sampleDigits [1, 2, 3]).format device.toHost s.cache).exec s.review).1.toBool =
      true := by decide +kernel
  obtain ⟨⟨⟩, hok⟩ := exists_of_toBool hanswer
  rw [List.take_of_length_le (hall hok)] at hrows
  obtain ⟨row, rest, ⟨full, hfull, -, hfits⟩, hrest, rfl⟩ := List.forall₂_cons_left_iff.mp hrows
  obtain rfl := List.forall₂_nil_left_iff.mp hrest
  cases hfull
  have hshown : (((sampleDigits [1, 2, 3]).format device.toHost s.cache).exec
      s.review).2.table.map Row.value = ["0x01..."] := by decide +kernel
  have hbefore : s.review.table = [] := by decide +kernel
  rw [hexec, hbefore, List.nil_append] at hshown
  exact ⟨row, hexec, hfits.mpr (.inr (.inl (by decide))), List.head_eq_of_cons_eq hshown⟩

open Session in
/-- The ellipsis is longer than a display of two places. -/
theorem not_rows_fit :
    ¬ ∀ (host : Host) (cache : Cache) (r : Review) (field : Field) (p : Param.Single)
      (captures : Captures) (rows : Table), field.param = .raw p → p.value.family = .bytes →
      p.value.resolve r.calls.currentCall = .ok captures →
      ((field.format host cache).exec r).2 = { r with table := r.table ++ rows } →
      ∀ row ∈ rows, row.value.utf8ByteSize ≤ host.settings.displayWidth := by
  intro h
  let device := displayDevice 2
  let s := after device [sampleArguments, sampleInfo []]
  have hshown : (((sampleDigits [1]).format device.toHost s.cache).exec s.review).2.table.map
      Row.value = ["..."] := by decide +kernel
  have hbefore : s.review.table = [] := by decide +kernel
  have hparam : (sampleDigits [1]).param = .raw ⟨1, ⟨1, .bytes, none, .constant [1]⟩⟩ := rfl
  obtain ⟨-, rows, hexec, -⟩ := format_rawText device.toHost s.cache s.review hparam rfl
  rw [hexec, hbefore, List.nil_append] at hshown
  obtain ⟨row, rfl, htext⟩ := List.map_eq_singleton_iff.mp hshown
  have hnarrow := h device.toHost s.cache s.review (sampleDigits [1]) _ [Capture.whole [1]] [row]
    rfl rfl rfl hexec row List.mem_cons_self
  rw [htext] at hnarrow
  exact absurd hnarrow (by decide)

end Field

end ClearSign
