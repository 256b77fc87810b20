import ClearSign.Bytes
import ClearSign.Path.Window

/-!
Byte strings taken out of a call. A capture keeps all it was taken as and remembers the part it
was narrowed to. Sixteen captures at most come of one reading.
-/

namespace ClearSign

structure Capture where
  storage : Bytes
  offset : Nat
  length : Nat
  deriving DecidableEq, Repr

namespace Capture

def whole (bs : Bytes) : Capture := ⟨bs, 0, bs.length⟩

def bytes (c : Capture) : Bytes := (c.storage.drop c.offset).take c.length

/-- The part of the present part that a window cuts out. -/
def narrow (c : Capture) (w : Window) : Except Error Capture := do
  let (start, stop) ← w.resolve c.length
  return { c with offset := c.offset + start, length := stop - start }

def toAddress (c : Capture) : Address := Fixed.align 20 c.bytes

/-- The low 64 bits. -/
def toUInt64 (c : Capture) : UInt64 := Bytes.toUInt64 c.bytes

end Capture

abbrev Captures := List Capture

namespace Captures

def capacity : Nat := 16

def push (cs : Captures) (c : Capture) : Except Error Captures :=
  if cs.length < capacity then .ok (cs ++ [c]) else .error .limitExceeded

/-- Narrows the capture that came last. -/
def narrowLast (cs : Captures) (w : Window) : Except Error Captures :=
  match cs.getLast? with
  | none => .error .invalidValue
  | some c => (c.narrow w).map fun c => cs.dropLast ++ [c]

end Captures

end ClearSign
