import ClearSign.Path.Window
import ClearSign.Tlv.Schema

/-!
Paths into the arguments of a call, and how they are written as records.
-/

namespace ClearSign

/-- What a leaf of a path takes. -/
inductive LeafKind
  | array
  | tuple
  /-- One word. -/
  | static
  /-- As many bytes as the word in front of them says. -/
  | dynamic
  deriving DecidableEq, Repr

namespace LeafKind

def code : LeafKind → UInt8
  | array => 1
  | tuple => 2
  | static => 3
  | dynamic => 4

def ofCode : UInt8 → Except Error LeafKind
  | 1 => .ok array
  | 2 => .ok tuple
  | 3 => .ok static
  | 4 => .ok dynamic
  | _ => .error .invalidValue

end LeafKind

inductive Element
  /-- Skips words. -/
  | tuple (skip : UInt16)
  /-- Goes to one element after another of an array whose elements take up `weight` words. -/
  | array (weight : UInt8) (window : Window)
  /-- Goes where the word at hand points to. -/
  | ref
  | leaf (kind : LeafKind)
  /-- Narrows the last capture. -/
  | slice (window : Window)
  deriving DecidableEq

structure DataPath where
  version : UInt8
  elements : List Element
  deriving DecidableEq

namespace DataPath

def maxElements : Nat := 16

def versionTag : UInt8 := 0x00

def push (e : Element) (p : DataPath) : DataPath :=
  { p with elements := p.elements ++ [e] }

/-- The bounds of a window, under a tag each. -/
def boundRules (start stop : UInt8) (σ : Type) (window : σ → Window)
    (withWindow : σ → Window → σ) : List (Tlv.Rule σ) :=
  [.once start fun r s => do
    let bound ← r.asInt16
    return withWindow s { window s with start := some bound },
   .once stop fun r s => do
    let bound ← r.asInt16
    return withWindow s { window s with stop := some bound }]

def arraySchema : Tlv.Schema (UInt8 × Window) := .ofRules <|
  .once 0x01 (fun r s => do return (← r.asByte, s.2)) ::
    boundRules 0x02 0x03 (UInt8 × Window) Prod.snd fun s w => (s.1, w)

def sliceSchema : Tlv.Schema Window := .ofRules <|
  boundRules 0x01 0x02 Window id fun _ w => w

def parseArray (bs : Bytes) : Except Error Element := do
  let ((weight, window), tags) ← arraySchema.parse (0, ⟨none, none⟩) bs
  tags.require [0x01]
  return .array weight window

def parseSlice (bs : Bytes) : Except Error Element := do
  let (window, _) ← sliceSchema.parse ⟨none, none⟩ bs
  return .slice window

/-- Elements come in the order of their records, sixteen at most. -/
def schema : Tlv.Schema DataPath where
  common r p :=
    if r.tag ≠ versionTag ∧ maxElements ≤ p.elements.length then .error .limitExceeded else .ok p
  rules :=
    [.once versionTag fun r p => do return { p with version := ← r.asByte },
     .many 0x01 fun r p => do return push (.tuple (← r.asUInt16)) p,
     .many 0x02 fun r p => do return push (← parseArray r.value) p,
     .many 0x03 fun r p => if r.value.isEmpty then .ok (push .ref p) else .error .invalidValue,
     .many 0x04 fun r p => do return push (.leaf (← LeafKind.ofCode (← r.asByte))) p,
     .many 0x05 fun r p => do return push (← parseSlice r.value) p]

def parse (bs : Bytes) : Except Error DataPath := do
  let (path, _) ← schema.parse ⟨0, []⟩ bs
  return path

end DataPath

end ClearSign
