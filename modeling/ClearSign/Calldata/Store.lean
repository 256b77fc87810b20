import ClearSign.Error
import ClearSign.Calldata.PackedWord

/-!
The arguments of a call, streamed in and kept as packed words. Nothing is readable until every
announced byte has come, and only whole words ever are.
-/

namespace ClearSign

structure Calldata where
  selector : Selector
  expected : Nat
  received : Nat
  words : List PackedWord
  /-- The bytes of the word that is not whole yet. -/
  staging : Bytes
  deriving DecidableEq, Repr

namespace Calldata

def empty (expected : Nat) (selector : Selector) : Calldata := ⟨selector, expected, 0, [], []⟩

/-- Packs the whole words at the front of some bytes; the rest of the bytes stays. -/
def packAll : (count : Nat) → Bytes → List PackedWord × Bytes
  | 0, bs => ([], bs)
  | count + 1, bs =>
    let (words, rest) := packAll count (bs.drop 32)
    (PackedWord.pack (Fixed.align 32 (bs.take 32)) :: words, rest)

/-- Refuses, and changes nothing, if more would come than was announced. -/
def append (c : Calldata) (bs : Bytes) : Except Error Calldata :=
  if c.received + bs.length ≤ c.expected then
    let pending := c.staging ++ bs
    let (words, rest) := packAll (pending.length / 32) pending
    .ok { c with
      received := c.received + bs.length
      words := c.words ++ words
      staging := rest }
  else .error .invalidValue

/-- A complete store of the given bytes. -/
def ofBytes (selector : Selector) (bs : Bytes) : Except Error Calldata :=
  (empty bs.length selector).append bs

def isComplete (c : Calldata) : Bool := c.received == c.expected

def word (c : Calldata) (index : Nat) : Except Error Word :=
  if c.isComplete then
    match c.words[index]? with
    | some p => .ok p.unpack
    | none => .error .invalidValue
  else .error .incompleteCalldata

def selector? (c : Calldata) : Except Error Selector :=
  if c.isComplete then .ok c.selector else .error .incompleteCalldata

end Calldata

end ClearSign
