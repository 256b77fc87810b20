import ClearSign.Field.Basic
import ClearSign.Field.Scope
import ClearSign.Text.Duration

/-!
What a field shows of each byte string that its value stands for. A cell is the text of one row
before the row has a place; a hidden byte string has none.
-/

namespace ClearSign

structure Cell where
  kind : ParamKind
  text : String
  extra : Option Extra
  deriving DecidableEq

namespace Cell

def plain (kind : ParamKind) (text : String) : Cell := ⟨kind, text, none⟩

/-- The cell, if the rule of the field lets the value be shown. -/
def gate (field : Field) (matched : Bool) (cell : Cell) : Except Error (Option Cell) := do
  if ← field.visibility.admits matched then return some cell else return none

end Cell

/-- Some constraint of at most `bound` bytes, right-aligned, is the address. -/
def meetsAddress (constraints : List Bytes) (bound : Nat) (address : Address) : Bool :=
  constraints.any fun c => decide (c.length ≤ bound ∧ c.length ≤ 20) && Fixed.align 20 c == address

namespace Param

/-- A byte string meets a constraint: as a number, as an address, or byte for byte. -/
def rawMeets (family : TypeFamily) (constraints : List Bytes) (bs : Bytes) : Bool :=
  match family with
  | .uint => constraints.any fun c => c.toNat == bs.toNat
  | .address => meetsAddress constraints 20 (Fixed.align 20 bs)
  | _ => constraints.contains bs

/-- A byte string as its type has it read. Fixed-point numbers are not shown. -/
def rawText (width : Nat) (chain : ChainId) (v : Value) (bs : Bytes) : Except Error String :=
  match v.family with
  | .uint => .ok (Decimal.unsignedText bs)
  | .int => .ok (Decimal.signedText ((v.size.map UInt8.toNat).getD bs.length) bs)
  | .address => .ok (Checksum.text chain (Fixed.align 20 bs))
  | .bool => .ok (if bs.getLast?.any (· ≠ 0) then "true" else "false")
  | .bytes => .ok (Hex.fitted width bs)
  | .string => .ok (Utf8.readable width bs)
  | .ufixed | .fixed => .error .invalidValue

def Single.rawCell (p : Single) (scope : Scope) (field : Field) (chain : ChainId) (c : Capture) :
    Except Error (Option Cell) := do
  let text ← rawText scope.host.settings.displayWidth chain p.value c.bytes
  Cell.gate field (rawMeets p.value.family field.constraints c.bytes) (.plain .raw text)

def Single.amountCell (ticker : String) (c : Capture) : Cell :=
  .plain .amount (Decimal.amountText Decimal.nativePlaces ticker c.bytes)

def Single.durationCell (c : Capture) : Cell :=
  .plain .duration (Duration.text c.toUInt64.toNat)

/-- The largest chain number there can be. -/
def maxChain : Nat := 0x7fffffffffffffdb

/-- A number as a chain. -/
def chainOf (bs : Bytes) : Except Error ChainId :=
  if (Bytes.significant bs).length ≤ 8 ∧ 0 < bs.toNat ∧ bs.toNat ≤ maxChain then
    .ok (UInt64.ofNat bs.toNat)
  else .error .invalidValue

def Single.networkCell (scope : Scope) (c : Capture) : Except Error Cell := do
  let chain ← chainOf c.bytes
  match scope.host.registry.networkName? chain with
  | some name => return .plain .network name
  | none => throw .notFound

/-- What an amount is counted in. -/
inductive Currency
  | native (ticker : String)
  | token (info : TokenInfo)
  | unknown
  deriving DecidableEq

namespace Currency

def ticker : Currency → String
  | native ticker => ticker
  | token info => info.ticker
  | unknown => "???"

def places : Currency → Nat
  | native _ => Decimal.nativePlaces
  | token info => info.decimals.toNat
  | unknown => 0

def extra : Currency → Option Extra
  | token info => some (.token info)
  | _ => none

def kind : Currency → ParamKind
  | token _ => .tokenAmount
  | _ => .amount

end Currency

namespace TokenAmount

/-- What amounts are counted in at the address that a capture gives, if one does. -/
def currency (p : TokenAmount) (scope : Scope) (chain : ChainId) (c : Option Capture) : Currency :=
  match c.map Capture.toAddress with
  | none => .unknown
  | some address =>
    if p.native.contains address then .native (scope.ticker chain)
    else
      match scope.host.registry.token? chain address with
      | some info => .token info
      | none => .unknown

def isAbove (p : TokenAmount) (bs : Bytes) : Bool := p.threshold ≠ 0 && p.threshold ≤ bs.toNat

def cell (p : TokenAmount) (currency : Currency) (c : Capture) : Cell where
  kind := currency.kind
  text :=
    if p.isAbove c.bytes then p.message.getD "Unlimited" ++ " " ++ currency.ticker
    else Decimal.amountText currency.places currency.ticker c.bytes
  extra := currency.extra

end TokenAmount

def Nft.cell (scope : Scope) (chain : ChainId) (collection : Address) (c : Capture) :
    Except Error Cell :=
  match scope.host.registry.nft? chain collection with
  | some info =>
    .ok ⟨.nft, info.collection ++ " #" ++ Decimal.unsignedText c.bytes, some (.nft info)⟩
  | none => .error .notFound

namespace Datetime

/-- Not empty, as wide as its type, and every bit set. -/
def isUnlimited (p : Datetime) (bs : Bytes) : Bool :=
  !bs.isEmpty && decide ((p.value.size.map UInt8.toNat).getD 0 ≤ bs.length) && bs.all (· == 0xff)

def text (p : Datetime) (c : Capture) : String :=
  match p.scale with
  | .unix =>
    if p.isUnlimited c.bytes then "Unlimited" else Civil.dateTimeText c.toUInt64.toNat
  | .blockHeight => Decimal.unsignedText c.bytes

def cell (p : Datetime) (c : Capture) : Cell := .plain .datetime (p.text c)

end Datetime

def Quantity.cell (p : Quantity) (c : Capture) : Cell :=
  .plain .unit (Decimal.scaledText p.decimals.toNat c.bytes ++ " " ++ p.symbol)

/-- Named by the last byte. -/
def Choice.cell (p : Choice) (scope : Scope) (chain : ChainId) (contract : Address)
    (selector : Selector) (c : Capture) : Except Error Cell :=
  match c.bytes.getLast? with
  | none => .error .invalidValue
  | some last =>
    match scope.cache.label? chain contract selector p.id last with
    | some label => .ok (.plain .enum label.name)
    | none => .error .notFound

namespace NameQuery

/-- The address looked up: that of the device for one that stands for it. -/
def address (p : NameQuery) (scope : Scope) (c : Capture) : Except Error Address :=
  if p.senders.contains c.toAddress then scope.host.registry.wallet else .ok c.toAddress

def cellOf (p : NameQuery) (scope : Scope) (chain : ChainId) (address : Address) : Cell :=
  match scope.host.registry.trustedName? p.types p.sources chain address with
  | some name => ⟨.trustedName, name.name, some (.name name)⟩
  | none => .plain .raw (Checksum.text chain address)

def cell (p : NameQuery) (scope : Scope) (field : Field) (chain : ChainId) (c : Capture) :
    Except Error (Option Cell) := do
  let address ← p.address scope c
  Cell.gate field (meetsAddress field.constraints c.bytes.length address)
    (p.cellOf scope chain address)

end NameQuery

def Token.cell (p : Token) (scope : Scope) (chain : ChainId) (c : Capture) : Except Error Cell :=
  if p.native.contains c.toAddress then .ok (.plain .token (scope.ticker chain))
  else
    match scope.host.registry.token? chain c.toAddress with
    | some info => .ok ⟨.token, info.ticker, some (.token info)⟩
    | none => .error .notFound

end Param

end ClearSign
