import ClearSign.Error

/-!
A part of a sequence, by optional signed bounds. A negative bound counts from the end; a missing
one is the end it stands for. A window never is empty and never reaches outside.
-/

namespace ClearSign

structure Window where
  start : Option Int16
  stop : Option Int16
  deriving DecidableEq

namespace Window

/-- A bound as a place in a sequence of a given size. -/
def place (size : Int) (bound : Int16) : Int :=
  if bound < 0 then size + bound.toInt else bound.toInt

/-- The first place of the window and the one behind its last. No window lies in a sequence of a
negative size. -/
def resolve (w : Window) (size : Int) : Except Error (Nat × Nat) :=
  let start := (w.start.map (place size)).getD 0
  let stop := (w.stop.map (place size)).getD size
  if 0 ≤ start ∧ start < stop ∧ stop ≤ size then .ok (start.toNat, stop.toNat)
  else .error .invalidValue

theorem resolve_bounds {w : Window} {size start stop : Nat}
    (h : w.resolve size = .ok (start, stop)) : start < stop ∧ stop ≤ size := by
  simp only [resolve] at h
  split at h
  · cases h; omega
  · cases h

/-- The window in a sequence whose size is a machine word. The word is read with its sign, so a
size whose first bit is set holds no window. -/
def resolveWord (w : Window) (size : UInt64) : Except Error (Nat × Nat) :=
  w.resolve size.toInt64.toInt

theorem resolveWord_of_lt {w : Window} {size : UInt64} (h : size < 0x8000000000000000) :
    w.resolveWord size = w.resolve size.toNat := by
  have hlt : size.toNat < 0x8000000000000000 := UInt64.lt_iff_toNat_lt.mp h
  have hs : size.toInt64.toInt = size.toNat :=
    BitVec.toInt_eq_toNat_of_lt (by show 2 * size.toNat < 0x10000000000000000; omega)
  rw [resolveWord, hs]

end Window

end ClearSign
