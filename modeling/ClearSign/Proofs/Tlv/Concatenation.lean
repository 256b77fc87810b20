import ClearSign.Tlv.Record

/-!
Records end where they say. What is read off the front of a byte string is read off the front of
any other that starts with the same bytes, so the records of a concatenation are the records of
its parts, and well-formed bytes are the records that are read off them.
-/

namespace ClearSign.Tlv

theorem Varint.bytes_append {bs rest : Bytes} {v : Varint} (h : read? bs = some (v, rest)) :
    bs = v.bytes ++ rest := by
  cases bs with
  | nil => simp [read?] at h
  | cons b tail =>
    simp only [read?] at h
    split at h
    · cases h
      rfl
    · split at h
      · cases h
        simp
      · cases h

/-- Nothing behind an integer has a part in it. -/
theorem Varint.read?_bytes_append {bs rest : Bytes} {v : Varint} (h : read? bs = some (v, rest))
    (more : Bytes) : read? (v.bytes ++ more) = some (v, more) := by
  cases bs with
  | nil => simp [read?] at h
  | cons b tail =>
    simp only [read?] at h
    split at h
    · rename_i hshort
      cases h
      simp [read?, hshort]
    · rename_i hlong
      split at h
      · rename_i hcount
        obtain ⟨hpos, hfour, hlen⟩ := hcount
        cases h
        have htake : (tail.take (b.toNat - 0x80)).length = b.toNat - 0x80 := by
          rw [List.length_take]
          omega
        have hroom : b.toNat - 0x80 ≤ (tail.take (b.toNat - 0x80) ++ more).length := by
          rw [List.length_append, htake]
          omega
        simp only [List.cons_append, read?, if_neg hlong, hpos, hfour, hroom, and_self, if_true,
          List.take_left' htake, List.drop_left' htake]
      · cases h

namespace Record

theorem raw_append {bs rest : Bytes} {r : Record} (h : read? bs = some (r, rest)) :
    bs = r.raw ++ rest := by
  simp only [read?] at h
  split at h
  · cases h
  · rename_i tag afterTag htag
    split at h
    · cases h
    · rename_i length behind hlength
      split at h
      · cases h
        rw [Varint.bytes_append htag, Varint.bytes_append hlength]
        simp [raw]
      · cases h

/-- A record as it can stand at the front of a byte string. -/
def IsWhole (r : Record) : Prop := ∀ more, read? (r.raw ++ more) = some (r, more)

theorem isWhole_of_read? {bs rest : Bytes} {r : Record} (h : read? bs = some (r, rest)) :
    r.IsWhole := by
  intro more
  simp only [read?] at h
  split at h
  · cases h
  · rename_i tag afterTag htag
    split at h
    · cases h
    · rename_i length behind hlength
      split at h
      · rename_i hbounds
        obtain ⟨htag255, hlen65535, hroom⟩ := hbounds
        cases h
        have htake : (behind.take length.value).length = length.value := by
          rw [List.length_take]
          omega
        have hfits : length.value ≤ (behind.take length.value ++ more).length := by
          rw [List.length_append, htake]
          omega
        simp only [raw, List.append_assoc, read?, Varint.read?_bytes_append htag,
          Varint.read?_bytes_append hlength, htag255, hlen65535, hfits, and_self, if_true,
          List.take_left' htake, List.drop_left' htake]
      · cases h

end Record

theorem records_of_read? {bs rest : Bytes} {r : Record} (h : Record.read? bs = some (r, rest)) :
    records bs = (r :: (records rest).1, (records rest).2) := by
  rw [records]
  split
  · rename_i r' rest' h'
    rw [h] at h'
    cases h'
    rfl
  · rename_i h'
    rw [h] at h'
    cases h'

theorem records_of_read?_eq_none {bs : Bytes} (h : Record.read? bs = none) :
    records bs = ([], bs) := by
  rw [records]
  split
  · rename_i h'
    rw [h] at h'
    cases h'
  · rfl

/-- No record can be read off what is left over. -/
theorem read?_left (bs : Bytes) : Record.read? (records bs).2 = none := by
  fun_induction records bs with
  | case1 bs r rest hread rs left hrest ih => rwa [hrest] at ih
  | case2 bs hread => exact hread

theorem records_nil : records [] = ([], []) := by
  rw [records]
  rfl

/-- All records of a byte string are whole, and with what is left over they are all of it. -/
theorem records_spec (bs : Bytes) :
    (∀ r ∈ (records bs).1, r.IsWhole) ∧
      (records bs).1.flatMap Record.raw ++ (records bs).2 = bs := by
  fun_induction records bs with
  | case1 bs r rest hread rs left hrest ih =>
    rw [hrest] at ih
    constructor
    · intro r' hr
      rcases List.mem_cons.mp hr with rfl | hr
      · exact Record.isWhole_of_read? hread
      · exact ih.1 r' hr
    · rw [List.flatMap_cons, List.append_assoc, ih.2, Record.raw_append hread]
  | case2 bs hread => simp

/-- Whole records in front of a byte string are the first records of the two together. -/
theorem records_flatMap_append {rs : List Record} (h : ∀ r ∈ rs, r.IsWhole) (more : Bytes) :
    records (rs.flatMap Record.raw ++ more) = (rs ++ (records more).1, (records more).2) := by
  induction rs with
  | nil => rfl
  | cons r rs ih =>
    have hfirst := h r List.mem_cons_self (rs.flatMap Record.raw ++ more)
    have hrest : ∀ r' ∈ rs, r'.IsWhole := by
      intro r' hr
      exact h r' (List.mem_cons_of_mem _ hr)
    rw [List.flatMap_cons, List.append_assoc, records_of_read? hfirst, ih hrest]
    rfl

theorem records_flatMap {rs : List Record} (h : ∀ r ∈ rs, r.IsWhole) :
    records (rs.flatMap Record.raw) = (rs, []) := by
  have hall := records_flatMap_append h []
  simpa [records_nil] using hall

end ClearSign.Tlv
