import ClearSign.Bytes

/-!
The curve secp256k1, y² = x³ + 7 over the integers modulo a prime, and verification of ECDSA
signatures on it.
-/

namespace ClearSign.Curve

/-- The modulus of the coordinates. -/
def fieldPrime : Nat := 0xfffffffffffffffffffffffffffffffffffffffffffffffffffffffefffffc2f

/-- The order of the generator. -/
def order : Nat := 0xfffffffffffffffffffffffffffffffebaaedce6af48a03bbfd25e8cd0364141

/-- `base ^ exponent` modulo `m`, for an exponent of at most `bits` bits. -/
def powMod (m base : Nat) : (bits : Nat) → (exponent : Nat) → Nat
  | 0, _ => 1 % m
  | bits + 1, exponent =>
    let half := powMod m (base * base % m) bits (exponent / 2)
    if exponent % 2 = 1 then base * half % m else half

/-- The inverse modulo a prime, which is its power two short of the prime. -/
def inverse (m a : Nat) : Nat := powMod m a 256 (m - 2)

/-- A point of the plane, or the point at infinity. -/
inductive Point
  | infinity
  | affine (x y : Nat)
  deriving DecidableEq, Repr

def generator : Point :=
  .affine 0x79be667ef9dcbbac55a06295ce870b07029bfcdb2dce28d959f2815b16f81798
    0x483ada7726a3c4655da4fbfc0e1108a8fd17b448a68554199c47d08ffb10d4b8

/-- The point where the line of a given slope through two points meets the curve again,
reflected in the axis. -/
def third (slope x₁ y₁ x₂ : Nat) : Point :=
  let x := (slope * slope + 2 * fieldPrime - x₁ - x₂) % fieldPrime
  .affine x ((slope * (x₁ + fieldPrime - x) + fieldPrime - y₁) % fieldPrime)

def Point.double : Point → Point
  | .infinity => .infinity
  | .affine x y =>
    if y = 0 then .infinity
    else third (3 * x * x * inverse fieldPrime (2 * y) % fieldPrime) x y x

def Point.add : Point → Point → Point
  | .infinity, q => q
  | p, .infinity => p
  | .affine x₁ y₁, .affine x₂ y₂ =>
    if x₁ = x₂ then
      if y₁ = y₂ then Point.double (.affine x₁ y₁) else .infinity
    else
      third ((y₂ + fieldPrime - y₁) * inverse fieldPrime (x₂ + fieldPrime - x₁) % fieldPrime)
        x₁ y₁ x₂

/-- `a` times `p` plus `b` times `q`, over the lowest `bits` bits of both numbers. -/
def combine (p q : Point) : (bits : Nat) → (a b : Nat) → Point
  | 0, _, _ => .infinity
  | bits + 1, a, b =>
    let twice := (combine p q bits (a / 2) (b / 2)).double
    let withP := if a % 2 = 1 then twice.add p else twice
    if b % 2 = 1 then withP.add q else withP

def OnCurve (x y : Nat) : Prop := y * y % fieldPrime = (x * x * x + 7) % fieldPrime

instance (x y : Nat) : Decidable (OnCurve x y) := inferInstanceAs (Decidable (_ = _))

/-- The point with a given abscissa whose ordinate is odd or even as asked. -/
def ofAbscissa? (odd : Bool) (x : Nat) : Option Point :=
  let root := powMod fieldPrime ((x * x * x + 7) % fieldPrime) 256 ((fieldPrime + 1) / 4)
  if x < fieldPrime ∧ OnCurve x root then
    some (.affine x (if (root % 2 == 1) == odd then root else (fieldPrime - root) % fieldPrime))
  else none

/-- A point of the curve from its 33-byte or 65-byte encoding. Of the two points with one
abscissa, mark 3 is the odd one and mark 2 the even one; mark 5 leaves the choice out, which is the
even one again. -/
def ofSec1? (bs : Bytes) : Option Point :=
  match bs with
  | mark :: coordinates =>
    if coordinates.length = 32 ∧ (mark = 2 ∨ mark = 3 ∨ mark = 5) then
      ofAbscissa? (mark == 3) (Bytes.toNat coordinates)
    else if coordinates.length = 64 ∧ mark = 4 then
      let x := Bytes.toNat (coordinates.take 32)
      let y := Bytes.toNat (coordinates.drop 32)
      if x < fieldPrime ∧ y < fieldPrime ∧ OnCurve x y then some (.affine x y) else none
    else none
  | [] => none

/-- The pair of numbers that an ECDSA signature is. -/
structure Ecdsa where
  r : Nat
  s : Nat
  deriving DecidableEq, Repr

/-- Both numbers are non-zero and below the order, and the second is not above half of it. -/
def Ecdsa.Acceptable (e : Ecdsa) : Prop :=
  0 < e.r ∧ e.r < order ∧ 0 < e.s ∧ e.s ≤ order / 2

instance (e : Ecdsa) : Decidable e.Acceptable := inferInstanceAs (Decidable (_ ∧ _))

/-- The signature was made over `digest` with the key of the public point `key`. -/
def Ecdsa.verifies (e : Ecdsa) (key : Point) (digest : Nat) : Bool :=
  let inv := inverse order e.s
  match combine generator key 256 (digest * inv % order) (e.r * inv % order) with
  | .infinity => false
  | .affine x _ => x % order == e.r

end ClearSign.Curve
