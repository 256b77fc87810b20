import ClearSign.Field.Schema

/-!
A field of a call: what it is called, what it shows, and when.
-/

namespace ClearSign

/-- When a value is shown. -/
inductive Visibility
  | always
  /-- A value that meets no constraint turns the whole call down. -/
  | mustBe
  /-- A value that meets a constraint is hidden. -/
  | ifNotIn
  deriving DecidableEq, Repr

namespace Visibility

def code : Visibility → UInt8
  | always => 0
  | mustBe => 1
  | ifNotIn => 2

def ofCode : UInt8 → Except Error Visibility
  | 0 => .ok always
  | 1 => .ok mustBe
  | 2 => .ok ifNotIn
  | _ => .error .invalidValue

/-- Whether a value is shown, given whether it meets a constraint. -/
def admits (v : Visibility) (matched : Bool) : Except Error Bool :=
  match v, matched with
  | always, _ => .ok true
  | mustBe, true => .ok true
  | mustBe, false => .error .constraintRejected
  | ifNotIn, matched => .ok (!matched)

end Visibility

structure Field where
  version : UInt8
  name : String
  param : Param
  visibility : Visibility
  constraints : List Bytes
  deriving DecidableEq

namespace Field

def maxName : Nat := 20

def maxConstraints : Nat := 16

/-- A field whose parts have not all been met. -/
structure Draft where
  version : UInt8
  name : Option String
  kind : Option ParamKind
  param : Option Param
  visibility : Option Visibility
  constraints : List Bytes
  deriving DecidableEq

/-- The kind of a parameter comes before the parameter. -/
def Draft.withParam (d : Draft) (bs : Bytes) : Except Error Draft :=
  match d.kind with
  | none => .error .invalidValue
  | some kind => do return { d with param := some (← Param.parse kind bs) }

/-- The rule that makes use of constraints comes before them. -/
def Draft.withConstraint (d : Draft) (bs : Bytes) : Except Error Draft :=
  if d.visibility = some .mustBe ∨ d.visibility = some .ifNotIn then
    if d.constraints.length < maxConstraints then
      .ok { d with constraints := d.constraints ++ [bs] }
    else .error .limitExceeded
  else .error .invalidValue

def schema : Tlv.Schema Draft := .ofRules
  [.once 0x00 fun r d => do return { d with version := ← r.asByte },
   .once 0x01 fun r d => .ok { d with name := some (r.asText maxName) },
   .once 0x02 fun r d => do return { d with kind := some (← ParamKind.ofCode (← r.asByte)) },
   .once 0x03 fun r d => d.withParam r.value,
   .once 0x04 fun r d => do
     return { d with visibility := some (← Visibility.ofCode (← r.asByte)) },
   .many 0x05 fun r d => d.withConstraint r.value]

def parse (bs : Bytes) : Except Error Field := do
  let (d, tags) ← schema.parse ⟨0, none, none, none, none, []⟩ bs
  tags.require [0x00]
  if d.version ≠ 1 then throw .unsupportedVersion
  match d.name, d.param with
  | some name, some param =>
    return ⟨d.version, name, param, d.visibility.getD .always, d.constraints⟩
  | _, _ => throw .missingField

end Field

end ClearSign
