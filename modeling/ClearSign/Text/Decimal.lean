import ClearSign.Bytes
import ClearSign.Text.Utf8

/-!
Decimal numerals of whole and scaled numbers. A scaled numeral drops the zeros that end its
fraction, and the point that would then end the numeral.
-/

namespace ClearSign.Decimal

def digits (n : Nat) : List Char := Nat.toDigits 10 n

/-- The digits with zeros in front up to a width. -/
def padded (width n : Nat) : List Char :=
  List.replicate (width - (digits n).length) '0' ++ digits n

def signed (i : Int) : List Char :=
  if i < 0 then '-' :: digits i.natAbs else digits i.natAbs

/-- The characters without the run of `c` that ends them. -/
def trimEnd (c : Char) (cs : List Char) : List Char := (cs.reverse.dropWhile (· == c)).reverse

/-- A point `places` digits from the right. With no more digits than places, the whole part is
one zero and the fraction is filled up with zeros. Widths are those of the written text in bytes:
a digit is one byte wide, and a wider sign is never split. -/
def withPoint (places : Nat) (ds : List Char) : List Char :=
  let width := Utf8.size ds
  let whole := Utf8.fit (width - places) ds
  (if width ≤ places then ['0'] else whole) ++
    '.' :: (List.replicate (places - width) '0' ++ ds.drop whole.length)

/-- The digits scaled down by `places` powers of ten, in the shortest form. -/
def shift (places : Nat) (ds : List Char) : List Char :=
  if places = 0 then ds else trimEnd '.' (trimEnd '0' (withPoint places ds))

/-- A big-endian number as a whole numeral. -/
def unsignedText (bs : Bytes) : String := String.ofList (digits bs.toNat)

/-- The last `size` bytes as a two's complement numeral. -/
def signedText (size : Nat) (bs : Bytes) : String :=
  String.ofList (signed (Bytes.toInt (bs.drop (bs.length - size))))

/-- A big-endian number scaled down by `places` powers of ten. -/
def scaledText (places : Nat) (bs : Bytes) : String :=
  String.ofList (shift places (digits bs.toNat))

/-- An amount and the ticker it is counted in, if there is one. -/
def amountText (places : Nat) (ticker : String) (bs : Bytes) : String :=
  if ticker.isEmpty then scaledText places bs else scaledText places bs ++ " " ++ ticker

/-- Decimal places of the native currency of a chain. -/
def nativePlaces : Nat := 18

end ClearSign.Decimal
