import ClearSign.Bytes

/-!
Lowercase hexadecimal, and its form on a display of limited width.
-/

namespace ClearSign.Hex

def nibble (n : Nat) : Char := Nat.digitChar (n % 16)

def byte (b : UInt8) : List Char := [nibble (b.toNat / 16), nibble b.toNat]

/-- Two digits a byte. -/
def chars (bs : Bytes) : List Char := bs.flatMap byte

def text (bs : Bytes) : String := String.ofList (chars bs)

/-- The digits after `0x`. -/
def marked (bs : Bytes) : List Char := '0' :: 'x' :: chars bs

/-- The marked digits where they fit in `width`; else as many as leave room for an ellipsis, and
the ellipsis. A width below three still shows the ellipsis whole. -/
def fitted (width : Nat) (bs : Bytes) : String :=
  String.ofList <|
    if (marked bs).length ≤ width then marked bs
    else (marked bs).take (width - 3) ++ ['.', '.', '.']

end ClearSign.Hex
