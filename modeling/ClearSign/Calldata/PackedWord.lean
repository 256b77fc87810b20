import ClearSign.Bytes

/-!
A word kept without the longer of the zero runs at its two ends. Most words of a call are padded
on one side, so little is left of them.
-/

namespace ClearSign

/-- The end that the zeros were taken from. -/
inductive Side
  | left
  | right
  deriving DecidableEq, Repr

structure PackedWord where
  stripped : Side
  kept : Bytes
  deriving DecidableEq, Repr

namespace PackedWord

def leadingZeros (bs : Bytes) : Nat := (bs.takeWhile (· == 0)).length

def trailingZeros (bs : Bytes) : Nat := leadingZeros bs.reverse

/-- Between runs of one length the leading one goes, and so does a word that is all zeros. -/
def pack (w : Word) : PackedWord :=
  if trailingZeros w.bytes ≤ leadingZeros w.bytes then
    ⟨.left, w.bytes.drop (leadingZeros w.bytes)⟩
  else ⟨.right, w.bytes.take (32 - trailingZeros w.bytes)⟩

/-- The kept bytes at the end they came from, cut to a word. -/
def unpackBytes (p : PackedWord) : Bytes :=
  match p.stripped with
  | .left => p.kept.alignRight 32
  | .right => (p.kept ++ List.replicate (32 - p.kept.length) 0).take 32

theorem length_unpackBytes (p : PackedWord) : p.unpackBytes.length = 32 := by
  unfold unpackBytes
  split
  · exact Bytes.length_alignRight 32 p.kept
  · simp only [List.length_take, List.length_append, List.length_replicate]
    omega

def unpack (p : PackedWord) : Word := ⟨p.unpackBytes, p.length_unpackBytes⟩

end PackedWord

end ClearSign
