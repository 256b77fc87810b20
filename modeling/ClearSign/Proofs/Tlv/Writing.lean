import ClearSign.Proofs.Bytes
import ClearSign.Proofs.Tlv.Grammar
import ClearSign.Proofs.Tlv.Guard

/-!
Writing and reading back. An integer is written as the shortest numeral that stands for it, and
records that are written one behind the other are handed over as they were written.
-/

namespace ClearSign.Tlv

open Spelling

namespace Varint

/-- The digits of a number, as they are written behind the count of a long form. -/
def digits (n : Nat) : Bytes := Bytes.significant (Bytes.ofNat 4 n)

variable {n : Nat}

theorem encode_short (h : n < 0x80) : encode n = [UInt8.ofNat n] := if_pos h

theorem encode_long (h : ¬ n < 0x80) :
    encode n = UInt8.ofNat (0x80 + (digits n).length) :: digits n := if_neg h

theorem length_digits_le (n : Nat) : (digits n).length ≤ 4 := by
  have hle := Bytes.length_significant_le (Bytes.ofNat 4 n)
  rwa [Bytes.length_ofNat] at hle

theorem toNat_digits (h : n < 2 ^ 32) : (digits n).toNat = n := by
  unfold digits
  rw [Bytes.toNat_significant, Bytes.toNat_ofNat]
  exact Nat.mod_eq_of_lt (by simpa using h)

theorem length_digits_pos (h : n < 2 ^ 32) (hlong : ¬ n < 0x80) : 1 ≤ (digits n).length := by
  apply Nat.pos_of_ne_zero
  intro hnone
  have hvalue := toNat_digits h
  rw [List.length_eq_zero_iff.mp hnone] at hvalue
  exact hlong (hvalue ▸ by decide)

/-- No string has fewer digits than are written for its number. -/
theorem length_digits_toNat_le {ds : Bytes} (h : ds.toNat < 2 ^ 32) :
    (digits ds.toNat).length ≤ ds.length := by
  apply Bytes.length_significant_le_of_toNat_eq
  rw [← Bytes.toNat_significant]
  exact toNat_digits h

/-- What is written is a numeral of the number. -/
theorem numeral_encode (h : n < 2 ^ 32) : Numeral (encode n) n := by
  by_cases hshort : n < 0x80
  · have hbyte : (UInt8.ofNat n).toNat = n :=
      UInt8.toNat_ofNat_of_lt' (show n < 256 by omega)
    have hfits : UInt8.ofNat n < 0x80 := by
      rw [UInt8.lt_iff_toNat_lt, hbyte]
      exact hshort
    have hnumeral := Numeral.short (UInt8.ofNat n) hfits
    rw [hbyte] at hnumeral
    rwa [encode_short hshort]
  · have hfour := length_digits_le n
    have hcount : (UInt8.ofNat (0x80 + (digits n).length)).toNat = 0x80 + (digits n).length :=
      UInt8.toNat_ofNat_of_lt' (show 0x80 + (digits n).length < 256 by omega)
    have hnumeral := Numeral.long _ (digits n) hcount (length_digits_pos h hshort) hfour
    rw [toNat_digits h] at hnumeral
    rwa [encode_long hshort]

/-- Every other numeral of the number is longer. -/
theorem encode_shortest {bs : Bytes} (h : n < 2 ^ 32) (hbs : Numeral bs n) :
    bs = encode n ∨ (encode n).length < bs.length := by
  cases hbs with
  | short b hshort =>
    left
    rw [encode_short (UInt8.lt_iff_toNat_lt.mp hshort), UInt8.ofNat_toNat]
  | long b ds hb hpos hfour =>
    by_cases hshort : ds.toNat < 0x80
    · right
      rw [encode_short hshort, List.length_singleton, List.length_cons]
      omega
    · rw [encode_long hshort, List.length_cons, List.length_cons]
      rcases Nat.lt_or_eq_of_le (length_digits_toNat_le h) with hlt | heq
      · right
        omega
      · left
        have hdigits : digits ds.toNat = ds := Bytes.eq_of_toNat_eq heq (toNat_digits h)
        rw [hdigits, ← hb, UInt8.ofNat_toNat]

end Varint

namespace Record

/-- The length that a record declares, read off its bytes as they stood on the wire. -/
def declared? (r : Record) : Option Nat := do
  let (_, afterTag) ← Varint.read? r.raw
  let (length, _) ← Varint.read? afterTag
  return length.value

/-- The record that is written for a tag and a value. -/
def shortest (tag : UInt8) (value : Bytes) : Record :=
  ⟨Varint.encode tag.toNat ++ Varint.encode value.length, tag, value⟩

end Record

/-- What is written spells its record. -/
theorem spells_shortest (tag : UInt8) {value : Bytes} (h : value.length ≤ 0xffff) :
    Spells ⟨Varint.encode tag.toNat, Varint.encode value.length, value⟩
      (Record.shortest tag value) := by
  have htag := tag.toNat_lt
  exact ⟨Varint.numeral_encode (by omega), Varint.numeral_encode (by
    show value.length < _
    omega), h, rfl, rfl⟩

/-- A record declares the length of its value. -/
theorem Spelling.Spells.declared {p : Spelling} {r : Record} (h : p.Spells r) :
    r.declared? = some r.value.length := by
  unfold Record.declared?
  rw [← h.bytes_eq, Spelling.bytes, List.append_assoc]
  simp [h.tag.read?_append, h.length.read?_append]

/-- Records of the given tags and values, written one behind the other. -/
def written (entries : List (UInt8 × Bytes)) : Bytes := entries.flatMap fun e => write e.1 e.2

/-- Records are read as they were written, and nothing is left over. -/
theorem records_written {entries : List (UInt8 × Bytes)}
    (h : ∀ e ∈ entries, e.2.length ≤ 0xffff) :
    records (written entries) = (entries.map fun e => Record.shortest e.1 e.2, []) := by
  have hraw : written entries =
      (entries.map fun e => Record.shortest e.1 e.2).flatMap Record.raw := by
    rw [List.flatMap_map]
    rfl
  rw [hraw]
  apply records_flatMap
  intro r hr
  obtain ⟨e, he, rfl⟩ := List.mem_map.mp hr
  exact (spells_shortest e.1 (h e he)).isWhole

theorem length_write_le (tag : UInt8) (value : Bytes) :
    (write tag value).length ≤ 10 + value.length := by
  have hencode (n : Nat) : (Varint.encode n).length ≤ 5 := by
    by_cases hshort : n < 0x80
    · rw [Varint.encode_short hshort]
      exact Nat.le_add_left 1 4
    · rw [Varint.encode_long hshort, List.length_cons]
      exact Nat.succ_le_succ (Varint.length_digits_le n)
  have htag := hencode tag.toNat
  have hlength := hencode value.length
  unfold write
  simp only [List.length_append]
  omega

theorem length_written_le {entries : List (UInt8 × Bytes)} {n : Nat}
    (h : ∀ e ∈ entries, e.2.length ≤ n) : (written entries).length ≤ entries.length * (10 + n) := by
  induction entries with
  | nil => exact Nat.zero_le _
  | cons e entries ih =>
    rw [List.forall_mem_cons] at h
    have hfirst := length_write_le e.1 e.2
    have hrest := ih h.2
    show (write e.1 e.2 ++ written entries).length ≤ _
    rw [List.length_append, List.length_cons, Nat.succ_mul]
    omega

namespace Schema

variable {σ : Type} {S : Schema σ}

/-- Written records are let through if their tags are. -/
theorem guarded_written {entries : List (UInt8 × Bytes)}
    (hdeclared : ∀ t ∈ entries.map Prod.fst, (S.rule? t).isSome = true)
    (honce : ((entries.map Prod.fst).filter S.isOnce).Nodup) :
    S.Guarded (entries.map fun e => Record.shortest e.1 e.2) := by
  constructor
  · intro r hr
    obtain ⟨e, he, rfl⟩ := List.mem_map.mp hr
    exact hdeclared _ (List.mem_map_of_mem he)
  · rw [List.map_map]
    exact honce

/-- What is written is parsed as the records that were meant. -/
theorem parse_written {entries : List (UInt8 × Bytes)} {initial target : σ}
    (hsize : ∀ e ∈ entries, e.2.length ≤ 0xffff)
    (hdeclared : ∀ t ∈ entries.map Prod.fst, (S.rule? t).isSome = true)
    (honce : ((entries.map Prod.fst).filter S.isOnce).Nodup)
    (hfold : (entries.map fun e => Record.shortest e.1 e.2).foldlM S.handle initial = .ok target) :
    S.parse initial (written entries) =
      .ok (target, .ofRecords (entries.map fun e => Record.shortest e.1 e.2)) := by
  rw [parse_eq_ok, records_written hsize]
  exact ⟨rfl, guarded_written hdeclared honce, hfold, rfl⟩

end Schema

/-- Records that are written one behind the other are handed over in that order, each with its tag,
its value and the length of the value, and in the very bytes that were written. An integer of 32
bits is read back whatever stands behind it, over all its bytes and no more, and no other numeral
of it is as short. -/
theorem written_is_read_back :
    (∀ entries : List (UInt8 × Bytes), (∀ e ∈ entries, e.2.length ≤ 0xffff) →
      let buffer := written entries
      let read := (handOver keep buffer).exec []
      read.1 = .ok () ∧ read.2.map (fun r => (r.tag, r.value)) = entries ∧
        (∀ r ∈ read.2, r.declared? = some r.value.length) ∧
        read.2.flatMap Record.raw = buffer) ∧
    ∀ v : UInt32,
      (∀ more, Varint.read? (Varint.encode v.toNat ++ more) =
        some (⟨Varint.encode v.toNat, v.toNat⟩, more)) ∧
      Numeral (Varint.encode v.toNat) v.toNat ∧
      ∀ bs, Numeral bs v.toNat →
        bs = Varint.encode v.toNat ∨ (Varint.encode v.toNat).length < bs.length := by
  refine ⟨?_, ?_⟩
  · intro entries h buffer read
    have hread : read = (.ok (), entries.map fun e => Record.shortest e.1 e.2) := by
      show (handOver keep (written entries)).exec [] = _
      rw [exec_handOver_keep, records_written h, if_pos rfl]
    rw [hread]
    refine ⟨rfl, ?_, ?_, ?_⟩
    · rw [List.map_map]
      exact List.map_id entries
    · intro r hr
      obtain ⟨e, he, rfl⟩ := List.mem_map.mp hr
      exact (spells_shortest e.1 (h e he)).declared
    · rw [List.flatMap_map]
      rfl
  · intro v
    have hv : v.toNat < 2 ^ 32 := v.toNat_lt
    have hnumeral := Varint.numeral_encode hv
    exact ⟨hnumeral.read?_append, hnumeral, fun bs hbs => Varint.encode_shortest hv hbs⟩

/-- A tag and a length that take two bytes each, and a record without a value behind. -/
theorem written_is_read_back_long :
    let entries : List (UInt8 × Bytes) := [(0x81, List.replicate 200 7), (1, [])]
    let read := (handOver keep (written entries)).exec []
    (∀ e ∈ entries, e.2.length ≤ 0xffff) ∧ read.1 = .ok () ∧
      read.2.map (fun r => (r.tag, r.value)) = entries ∧
      read.2.flatMap Record.raw = written entries := by
  intro entries read
  have hsize : ∀ e ∈ entries, e.2.length ≤ 0xffff := by
    intro e he
    rcases List.mem_cons.mp he with rfl | he
    · rw [List.length_replicate]
      decide
    · rw [List.mem_singleton.mp he]
      exact Nat.zero_le _
  obtain ⟨hok, hentries, -, hraw⟩ := written_is_read_back.1 entries hsize
  exact ⟨hsize, hok, hentries, hraw⟩

end ClearSign.Tlv
