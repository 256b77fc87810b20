import ClearSign.Field.Param

/-!
How the parameters of a field are written as records.
-/

namespace ClearSign.Param

open Tlv

/-- Stands for a value until its record is met; `Tags.require` sees to it that it is. -/
def unmet : Value := Value.constant .uint []

def versionRule {σ : Type} (set : σ → UInt8 → σ) : Rule σ :=
  .once 0x00 fun r s => do return set s (← r.asByte)

def valueRule {σ : Type} (tag : UInt8) (set : σ → Value → σ) : Rule σ :=
  .once tag fun r s => do return set s (← Value.parse r.value)

/-- Placeholder addresses that one parameter may have. -/
def maxPlaceholders : Nat := 4

/-- One more placeholder address; whether there is room comes first. -/
def addPlaceholder (addresses : List Address) (r : Record) : Except Error (List Address) :=
  if addresses.length < maxPlaceholders then do return addresses ++ [← r.asAddress]
  else .error .limitExceeded

def Single.schema : Schema Single := .ofRules
  [versionRule fun p v => { p with version := v },
   valueRule 0x01 fun p v => { p with value := v }]

def Single.parse (bs : Bytes) : Except Error Single := do
  let (p, tags) ← schema.parse ⟨0, unmet⟩ bs
  tags.require [0x01]
  return p

namespace TokenAmount

def maxMessage : Nat := 20

/-- A message that is there at all. -/
def messageOf (text : String) : Option String := if text.isEmpty then none else some text

def schema : Schema TokenAmount := .ofRules
  [versionRule fun p v => { p with version := v },
   valueRule 0x01 fun p v => { p with value := v },
   .many 0x02 fun r p => do return { p with token := some (← Value.parse r.value) },
   .many 0x03 fun r p => do return { p with native := ← addPlaceholder p.native r },
   .once 0x04 fun r p => do return { p with threshold := ← r.asNat 32 },
   .once 0x05 fun r p => do
     let _ ← r.asBytes maxMessage
     return { p with message := messageOf (r.asText maxMessage) }]

def parse (bs : Bytes) : Except Error TokenAmount := do
  let (p, tags) ← schema.parse ⟨0, unmet, none, [], 0, none⟩ bs
  tags.require [0x01]
  return p

end TokenAmount

def Nft.schema : Schema Nft := .ofRules
  [versionRule fun p v => { p with version := v },
   valueRule 0x01 fun p v => { p with id := v },
   valueRule 0x02 fun p v => { p with collection := v }]

def Nft.parse (bs : Bytes) : Except Error Nft := do
  let (p, tags) ← schema.parse ⟨0, unmet, unmet⟩ bs
  tags.require [0x01, 0x02]
  return p

def Datetime.schema : Schema Datetime := .ofRules
  [versionRule fun p v => { p with version := v },
   valueRule 0x01 fun p v => { p with value := v },
   .once 0x02 fun r p => do return { p with scale := ← TimeScale.ofCode (← r.asByte) }]

def Datetime.parse (bs : Bytes) : Except Error Datetime := do
  let (p, tags) ← schema.parse ⟨0, unmet, .unix⟩ bs
  tags.require [0x01, 0x02]
  return p

namespace Quantity

def maxSymbol : Nat := 11

def schema : Schema Quantity := .ofRules
  [versionRule fun p v => { p with version := v },
   valueRule 0x01 fun p v => { p with value := v },
   .once 0x02 fun r p => do
     let _ ← r.asBytes maxSymbol
     return { p with symbol := r.asText maxSymbol },
   .once 0x03 fun r p => do return { p with decimals := ← r.asByte },
   .once 0x04 fun r p => do return { p with abridged := ← r.asBool }]

def parse (bs : Bytes) : Except Error Quantity := do
  let (p, tags) ← schema.parse ⟨0, unmet, "", 0, false⟩ bs
  tags.require [0x01]
  return p

end Quantity

def Choice.schema : Schema Choice := .ofRules
  [versionRule fun p v => { p with version := v },
   .once 0x01 fun r p => do return { p with id := ← r.asByte },
   valueRule 0x02 fun p v => { p with value := v }]

def Choice.parse (bs : Bytes) : Except Error Choice := do
  let (p, tags) ← schema.parse ⟨0, 0, unmet⟩ bs
  tags.require [0x01, 0x02]
  return p

namespace NameQuery

def maxTypes : Nat := 6

def maxSources : Nat := 8

/-- A code for each byte, all of them known. -/
def codes {α : Type} (ofCode? : UInt8 → Option α) (bs : Bytes) : Except Error (List α) :=
  match bs.mapM ofCode? with
  | some as => .ok as
  | none => .error .invalidValue

def schema : Schema NameQuery := .ofRules
  [versionRule fun p v => { p with version := v },
   valueRule 0x01 fun p v => { p with value := v },
   .once 0x02 fun r p => do
     return { p with types := ← codes NameType.ofCode? (← r.asBytes maxTypes) },
   .once 0x03 fun r p => do
     return { p with sources := ← codes NameSource.ofCode? (← r.asBytes maxSources) },
   .many 0x04 fun r p => do return { p with senders := ← addPlaceholder p.senders r }]

def parse (bs : Bytes) : Except Error NameQuery := do
  let (p, tags) ← schema.parse ⟨0, unmet, [], [], []⟩ bs
  tags.require [0x01]
  return p

end NameQuery

def NestedCall.schema : Schema NestedCall := .ofRules
  [versionRule fun p v => { p with version := v },
   valueRule 0x01 fun p v => { p with calldata := v },
   valueRule 0x02 fun p v => { p with callee := v },
   valueRule 0x03 fun p v => { p with chain := some v },
   valueRule 0x04 fun p v => { p with selector := some v },
   valueRule 0x05 fun p v => { p with amount := some v },
   valueRule 0x06 fun p v => { p with spender := some v }]

def NestedCall.parse (bs : Bytes) : Except Error NestedCall := do
  let (p, tags) ← schema.parse ⟨0, unmet, unmet, none, none, none, none⟩ bs
  tags.require [0x01, 0x02]
  return p

def Token.schema : Schema Token := .ofRules
  [versionRule fun p v => { p with version := v },
   valueRule 0x01 fun p v => { p with address := v },
   .many 0x02 fun r p => do return { p with native := ← addPlaceholder p.native r }]

def Token.parse (bs : Bytes) : Except Error Token := do
  let (p, tags) ← schema.parse ⟨0, unmet, []⟩ bs
  tags.require [0x01]
  return p

/-- A parameter of a known kind. -/
def parse (kind : ParamKind) (bs : Bytes) : Except Error Param :=
  match kind with
  | .raw => raw <$> Single.parse bs
  | .amount => amount <$> Single.parse bs
  | .tokenAmount => tokenAmount <$> TokenAmount.parse bs
  | .nft => nft <$> Nft.parse bs
  | .datetime => datetime <$> Datetime.parse bs
  | .duration => duration <$> Single.parse bs
  | .unit => unit <$> Quantity.parse bs
  | .enum => enum <$> Choice.parse bs
  | .trustedName => trustedName <$> NameQuery.parse bs
  | .calldata => calldata <$> NestedCall.parse bs
  | .token => token <$> Token.parse bs
  | .network => network <$> Single.parse bs

end ClearSign.Param
