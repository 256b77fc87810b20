import ClearSign.Text.Checksum

/-!
What the text of an address says. It is `0x` and forty hexadecimal digits; the checksum is in the
case of the letters alone, so the digits read back as the address whatever the chain is.
-/

namespace ClearSign

namespace Hex

/-- What a hexadecimal digit counts, in either case. -/
def value? (c : Char) : Option Nat :=
  if '0' ≤ c ∧ c ≤ '9' then some (c.toNat - 48)
  else if 'a' ≤ c ∧ c ≤ 'f' then some (c.toNat - 87)
  else if 'A' ≤ c ∧ c ≤ 'F' then some (c.toNat - 55)
  else none

/-- The bytes that hexadecimal digits spell, two digits a byte. -/
def read? : List Char → Option Bytes
  | [] => some []
  | high :: low :: rest => do
    let byte := 16 * (← value? high) + (← value? low)
    return UInt8.ofNat byte :: (← read? rest)
  | [_] => none

theorem length_of_read? {digits : List Char} {bs : Bytes} (h : read? digits = some bs) :
    digits.length = 2 * bs.length := by
  induction digits using read?.induct generalizing bs with
  | case1 =>
    cases h
    rfl
  | case2 high low rest ih =>
    simp only [read?, Option.bind_eq_bind, Option.bind_eq_some_iff] at h
    obtain ⟨_, -, _, -, spelled, hrest, ⟨⟩⟩ := h
    rw [List.length_cons, List.length_cons, List.length_cons, ih hrest]
    omega
  | case3 digit => cases h

end Hex

namespace Checksum

open Hex

/-- A capital counts what the small letter does. -/
theorem value?_capitalize (n k : Nat) : value? (capitalize (nibble n) k) = some (n % 16) := by
  have heither : ∀ d < 16, value? (Nat.digitChar d) = some d ∧
      value? (Nat.digitChar d).toUpper = some d := by decide
  obtain ⟨hsmall, hcapital⟩ := heither _ (Nat.mod_lt n (by decide))
  unfold capitalize nibble
  split
  · exact hcapital
  · exact hsmall

/-- Capitals at any places leave the digits of bytes readable. -/
theorem read?_capitals {bs : Bytes} {ks : List Nat} (h : 2 * bs.length ≤ ks.length) :
    read? (List.zipWith capitalize (Hex.chars bs) ks) = some bs := by
  induction bs generalizing ks with
  | nil => rfl
  | cons b bs ih =>
    match ks, h with
    | k :: k' :: ks, h =>
      have hrest : read? (List.zipWith capitalize (Hex.chars bs) ks) = some bs := by
        apply ih
        simp only [List.length_cons] at h
        omega
      have hbyte : 16 * (b.toNat / 16 % 16) + b.toNat % 16 = b.toNat := by
        have hsmall := b.toNat_lt
        omega
      show read? (capitalize (nibble (b.toNat / 16)) k :: capitalize (nibble b.toNat) k' ::
        List.zipWith capitalize (Hex.chars bs) ks) = _
      simp only [read?, value?_capitalize, hrest, hbyte, Option.bind_eq_bind, Option.bind_some,
        Option.pure_def, UInt8.ofNat_toNat]

theorem length_nibbles (digest : Hash) : (nibbles digest).length = 64 := by
  unfold nibbles
  rw [List.length_flatMap]
  simp only [List.length_cons, List.length_nil, List.map_const', List.sum_replicate_nat,
    digest.length_bytes]

theorem read?_chars (chain : UInt64) (address : Address) :
    ∃ digits, chars chain address = '0' :: 'x' :: digits ∧ read? digits = some address.bytes := by
  refine ⟨_, rfl, read?_capitals ?_⟩
  rw [address.length_bytes, length_nibbles]
  decide

/-- A text reads as an address: `0x` and forty hexadecimal digits, in either case. -/
structure Names (address : Address) (text : String) : Prop where
  spelled : ∃ digits, text.toList = '0' :: 'x' :: digits ∧ digits.length = 40 ∧
    read? digits = some address.bytes

/-- A text reads as one address at most. -/
theorem Names.unique {a b : Address} {text : String} (ha : Names a text) (hb : Names b text) :
    a = b := by
  obtain ⟨digits, htext, -, hread⟩ := ha
  obtain ⟨digits', htext', -, hread'⟩ := hb
  rw [htext] at htext'
  cases htext'
  exact Fixed.ext (Option.some.inj (hread.symm.trans hread'))

/-- The text of an address reads as the address, with whatever chain its checksum is made. -/
theorem names_text (chain : UInt64) (address : Address) : Names address (text chain address) := by
  obtain ⟨digits, hchars, hread⟩ := read?_chars chain address
  have hlength : digits.length = 40 := by
    rw [length_of_read? hread, address.length_bytes]
  refine ⟨digits, ?_, hlength, hread⟩
  rw [← hchars]
  exact String.toList_ofList

theorem text_inj {chain chain' : UInt64} {a b : Address} (h : text chain a = text chain' b) :
    a = b := by
  have hnames := names_text chain' b
  rw [← h] at hnames
  exact (names_text chain a).unique hnames

end Checksum

end ClearSign
