import ClearSign.Bytes

/-!
Text from bytes that need not be UTF-8. Each maximal ill-formed stretch (the longest start of a
character that the next byte breaks off, or one byte that starts none) counts as one unit: it
reads as the replacement character, or makes a strict reading fail.
-/

namespace ClearSign.Utf8

/-- The inside of a character: continuation bytes still due, the bits read so far, and the range
the next byte must lie in. -/
structure Partial where
  due : Nat
  bits : Nat
  low : UInt8
  high : UInt8
  deriving DecidableEq, Repr

inductive Lead
  | whole (c : Char)
  | opens (p : Partial)
  | stray
  deriving DecidableEq

/-- What a first byte announces. The ranges of the second byte shut out overlong forms,
surrogates and numbers past the last character. -/
def lead (b : UInt8) : Lead :=
  if b < 0x80 then .whole (Char.ofNat b.toNat)
  else if b < 0xc2 then .stray
  else if b < 0xe0 then .opens ⟨1, b.toNat - 0xc0, 0x80, 0xbf⟩
  else if b = 0xe0 then .opens ⟨2, 0, 0xa0, 0xbf⟩
  else if b = 0xed then .opens ⟨2, 0xd, 0x80, 0x9f⟩
  else if b < 0xf0 then .opens ⟨2, b.toNat - 0xe0, 0x80, 0xbf⟩
  else if b = 0xf0 then .opens ⟨3, 0, 0x90, 0xbf⟩
  else if b < 0xf4 then .opens ⟨3, b.toNat - 0xf0, 0x80, 0xbf⟩
  else if b = 0xf4 then .opens ⟨3, 4, 0x80, 0x8f⟩
  else .stray

/-- The bits with those of a continuation byte behind them. -/
def Partial.extend (p : Partial) (b : UInt8) : Nat := p.bits * 64 + b.toNat % 64

/-- The unit that a first byte completes, if it does, and where it leads. -/
def enter (b : UInt8) : List (Option Char) × Option Partial :=
  match lead b with
  | .whole c => ([some c], none)
  | .opens p => ([], some p)
  | .stray => ([none], none)

/-- The units that one byte completes, and where it leads. A byte that breaks a character off is
then a first byte itself. -/
def feed (inside : Option Partial) (b : UInt8) : List (Option Char) × Option Partial :=
  match inside with
  | none => enter b
  | some p =>
    if p.low ≤ b ∧ b ≤ p.high then
      if p.due ≤ 1 then ([some (Char.ofNat (p.extend b))], none)
      else ([], some ⟨p.due - 1, p.extend b, 0x80, 0xbf⟩)
    else (none :: (enter b).1, (enter b).2)

/-- The units of a byte string, read from inside a character if `inside` says so; `none` is an
ill-formed stretch. -/
def units (inside : Option Partial) : Bytes → List (Option Char)
  | [] => if inside.isSome then [none] else []
  | b :: rest => (feed inside b).1 ++ units (feed inside b).2 rest

def replacement : Char := Char.ofNat 0xfffd

/-- The text with every ill-formed stretch replaced. -/
def lossy (bs : Bytes) : List Char := (units none bs).map (·.getD replacement)

/-- The text, if no stretch is ill-formed. -/
def strict? (bs : Bytes) : Option (List Char) := (units none bs).mapM id

/-- Bytes that the characters take up. -/
def size : List Char → Nat
  | [] => 0
  | c :: cs => c.utf8Size + size cs

/-- The longest start of the text that takes up at most `max` bytes. -/
def fit : (max : Nat) → List Char → List Char
  | _, [] => []
  | max, c :: cs => if c.utf8Size ≤ max then c :: fit (max - c.utf8Size) cs else []

/-- A string cut to `max` bytes between two characters. -/
def cut (max : Nat) (s : String) : String := String.ofList (fit max s.toList)

/-- The readable text of `bs`, cut to `max` bytes. -/
def readable (max : Nat) (bs : Bytes) : String := String.ofList (fit max (lossy bs))

end ClearSign.Utf8
