import ClearSign.Error
import ClearSign.Text.Utf8

/-!
Records of a tag, a length and a value. Tag and length are integers of variable size: one byte
below 128 stands for itself, and 128 plus a count from 1 to 4 announces that many bytes, most
significant first. A tag is at most 255 and a length at most 65535.

`records` takes the longest run of whole records off a byte string; what it leaves over is empty
exactly when the whole string is well formed.
-/

namespace ClearSign.Tlv

/-- An integer of variable size: the bytes it stood in, and its value. -/
structure Varint where
  bytes : Bytes
  value : Nat
  deriving DecidableEq, Repr

/-- The integer at the front, and the bytes behind it. -/
def Varint.read? : Bytes → Option (Varint × Bytes)
  | [] => none
  | b :: rest =>
    if b < 0x80 then some (⟨[b], b.toNat⟩, rest)
    else
      let count := b.toNat - 0x80
      if 1 ≤ count ∧ count ≤ 4 ∧ count ≤ rest.length then
        some (⟨b :: rest.take count, Bytes.toNat (rest.take count)⟩, rest.drop count)
      else none

theorem Varint.length_rest {bs rest : Bytes} {v : Varint} (h : read? bs = some (v, rest)) :
    rest.length < bs.length := by
  cases bs with
  | nil => simp [read?] at h
  | cons b tail =>
    simp only [read?] at h
    split at h
    · cases h; simp
    · split at h
      · cases h; simp only [List.length_drop, List.length_cons]; omega
      · cases h

/-- The shortest form of an integer of at most 32 bits. -/
def Varint.encode (n : Nat) : Bytes :=
  if n < 0x80 then [UInt8.ofNat n]
  else
    let digits := Bytes.significant (Bytes.ofNat 4 n)
    UInt8.ofNat (0x80 + digits.length) :: digits

/-- One record. `header` is the tag and the length as they stood on the wire. -/
structure Record where
  header : Bytes
  tag : UInt8
  value : Bytes
  deriving DecidableEq, Repr

namespace Record

/-- The whole record as it stood on the wire. -/
def raw (r : Record) : Bytes := r.header ++ r.value

/-- The record at the front, and the bytes behind it. -/
def read? (bs : Bytes) : Option (Record × Bytes) :=
  match Varint.read? bs with
  | none => none
  | some (tag, afterTag) =>
    match Varint.read? afterTag with
    | none => none
    | some (length, rest) =>
      if tag.value ≤ 0xff ∧ length.value ≤ 0xffff ∧ length.value ≤ rest.length then
        some (⟨tag.bytes ++ length.bytes, UInt8.ofNat tag.value, rest.take length.value⟩,
          rest.drop length.value)
      else none

theorem length_rest {bs rest : Bytes} {r : Record} (h : read? bs = some (r, rest)) :
    rest.length < bs.length := by
  simp only [read?] at h
  split at h
  · cases h
  · rename_i tag afterTag htag
    split at h
    · cases h
    · rename_i length behind hlength
      split at h
      · cases h
        have := Varint.length_rest htag
        have := Varint.length_rest hlength
        simp only [List.length_drop]
        omega
      · cases h

/-- Exactly one byte. -/
def asByte (r : Record) : Except Error UInt8 :=
  match r.value with
  | [b] => .ok b
  | _ => .error .invalidValue

/-- One byte, 0 or 1. -/
def asBool (r : Record) : Except Error Bool :=
  match r.value with
  | [0] => .ok false
  | [1] => .ok true
  | _ => .error .invalidValue

/-- Exactly two bytes. -/
def asUInt16 (r : Record) : Except Error UInt16 :=
  match r.value with
  | [_, _] => .ok (UInt16.ofNat (Bytes.toNat r.value))
  | _ => .error .invalidValue

/-- Exactly two bytes in two's complement. -/
def asInt16 (r : Record) : Except Error Int16 :=
  match r.value with
  | [_, _] => .ok (Int16.ofInt (Bytes.toInt r.value))
  | _ => .error .invalidValue

/-- At most `n` bytes, right-aligned. -/
def asFixed (n : Nat) (r : Record) : Except Error (Fixed n) :=
  if r.value.length ≤ n then .ok (Fixed.align n r.value) else .error .invalidValue

/-- A number of at most `n` bytes. -/
def asNat (n : Nat) (r : Record) : Except Error Nat :=
  if r.value.length ≤ n then .ok (Bytes.toNat r.value) else .error .invalidValue

def asUInt32 (r : Record) : Except Error UInt32 := UInt32.ofNat <$> r.asNat 4

def asUInt64 (r : Record) : Except Error UInt64 := UInt64.ofNat <$> r.asNat 8

def asAddress (r : Record) : Except Error Address := r.asFixed 20

/-- The value itself, if it has at most `max` bytes. -/
def asBytes (max : Nat) (r : Record) : Except Error Bytes :=
  if r.value.length ≤ max then .ok r.value else .error .invalidValue

/-- The readable text of the value, cut to `max` bytes. -/
def asText (max : Nat) (r : Record) : String := Utf8.readable max r.value

/-- Well-formed text of one to `max` bytes. -/
def asName (max : Nat) (r : Record) : Except Error String :=
  if r.value = [] ∨ max < r.value.length then .error .invalidValue
  else
    match Utf8.strict? r.value with
    | some cs => .ok (String.ofList cs)
    | none => .error .invalidValue

end Record

/-- The longest run of whole records, and what is left behind it. -/
def records (bs : Bytes) : List Record × Bytes :=
  match _h : Record.read? bs with
  | some (r, rest) =>
    let (rs, left) := records rest
    (r :: rs, left)
  | none => ([], bs)
termination_by bs.length
decreasing_by exact Record.length_rest (by assumption)

/-- A record with its tag and its length in the shortest form. -/
def write (tag : UInt8) (value : Bytes) : Bytes :=
  Varint.encode tag.toNat ++ Varint.encode value.length ++ value

end ClearSign.Tlv
