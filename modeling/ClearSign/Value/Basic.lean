import ClearSign.Path.Element

/-!
Where a datum of a call comes from and how it is typed, and how that is written as records.
-/

namespace ClearSign

inductive TypeFamily
  | uint
  | int
  | ufixed
  | fixed
  | address
  | bool
  | bytes
  | string
  deriving DecidableEq, Repr

namespace TypeFamily

def code : TypeFamily → UInt8
  | uint => 1
  | int => 2
  | ufixed => 3
  | fixed => 4
  | address => 5
  | bool => 6
  | bytes => 7
  | string => 8

def ofCode : UInt8 → Except Error TypeFamily
  | 1 => .ok uint
  | 2 => .ok int
  | 3 => .ok ufixed
  | 4 => .ok fixed
  | 5 => .ok address
  | 6 => .ok bool
  | 7 => .ok bytes
  | 8 => .ok string
  | _ => .error .invalidValue

end TypeFamily

/-- A property that every call has, whatever its arguments. -/
inductive Property
  | sender
  | target
  | amount
  | chain
  deriving DecidableEq, Repr

namespace Property

def code : Property → UInt8
  | sender => 0
  | target => 1
  | amount => 2
  | chain => 3

def ofCode : UInt8 → Except Error Property
  | 0 => .ok sender
  | 1 => .ok target
  | 2 => .ok amount
  | 3 => .ok chain
  | _ => .error .invalidValue

end Property

inductive Source
  | arguments (path : DataPath)
  | property (p : Property)
  | constant (bs : Bytes)
  deriving DecidableEq

structure Value where
  version : UInt8
  family : TypeFamily
  /-- Bytes that the type takes up. -/
  size : Option UInt8
  source : Source
  deriving DecidableEq

namespace Value

def maxConstant : Nat := 32

def constant (family : TypeFamily) (bs : Bytes) : Value := ⟨1, family, none, .constant bs⟩

/-- A value whose parts have not all been met. -/
structure Draft where
  version : UInt8
  family : Option TypeFamily
  size : Option UInt8
  source : Option Source
  deriving DecidableEq

/-- A value has one source, of whatever kind. -/
def Draft.withSource (d : Draft) (source : Source) : Except Error Draft :=
  if d.source.isSome then .error .duplicateTag else .ok { d with source := some source }

def sizeOfByte (b : UInt8) : Except Error UInt8 :=
  if 1 ≤ b ∧ b ≤ 32 then .ok b else .error .invalidValue

def schema : Tlv.Schema Draft := .ofRules
  [.once 0x00 fun r d => do return { d with version := ← r.asByte },
   .once 0x01 fun r d => do return { d with family := some (← TypeFamily.ofCode (← r.asByte)) },
   .once 0x02 fun r d => do return { d with size := some (← sizeOfByte (← r.asByte)) },
   .once 0x03 fun r d => do d.withSource (.arguments (← DataPath.parse r.value)),
   .once 0x04 fun r d => do d.withSource (.property (← Property.ofCode (← r.asByte))),
   .once 0x05 fun r d => do d.withSource (.constant (← r.asBytes maxConstant))]

def parse (bs : Bytes) : Except Error Value := do
  let (d, _) ← schema.parse ⟨0, none, none, none⟩ bs
  match d.family, d.source with
  | some family, some source => return ⟨d.version, family, d.size, source⟩
  | _, _ => throw .missingField

end Value

end ClearSign
