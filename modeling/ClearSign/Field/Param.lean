import ClearSign.Registry
import ClearSign.Value.Basic

/-!
The parameters that a field is made from, one structure for each way to show a value, and one for
calls that a call makes.
-/

namespace ClearSign

inductive ParamKind
  | raw
  | amount
  | tokenAmount
  | nft
  | datetime
  | duration
  | unit
  | enum
  | trustedName
  | calldata
  | token
  | network
  deriving DecidableEq, Repr

namespace ParamKind

def code : ParamKind → UInt8
  | raw => 0x00
  | amount => 0x01
  | tokenAmount => 0x02
  | nft => 0x03
  | datetime => 0x04
  | duration => 0x05
  | unit => 0x06
  | enum => 0x07
  | trustedName => 0x08
  | calldata => 0x09
  | token => 0x0a
  | network => 0x0b

def all : List ParamKind :=
  [raw, amount, tokenAmount, nft, datetime, duration, unit, enum, trustedName, calldata, token,
   network]

def ofCode (n : UInt8) : Except Error ParamKind :=
  match all.find? (·.code == n) with
  | some k => .ok k
  | none => .error .invalidValue

end ParamKind

namespace Param

/-- One value and nothing else. -/
structure Single where
  version : UInt8
  value : Value
  deriving DecidableEq

structure TokenAmount where
  version : UInt8
  value : Value
  /-- The address of the token of each amount. -/
  token : Option Value
  /-- Addresses that stand for the native currency. -/
  native : List Address
  /-- Amounts from here on are not shown as numbers; zero shows them all. -/
  threshold : Nat
  /-- Shown in place of such an amount. -/
  message : Option String
  deriving DecidableEq

structure Nft where
  version : UInt8
  id : Value
  /-- One collection for all ids, or one for each. -/
  collection : Value
  deriving DecidableEq

inductive TimeScale
  | unix
  | blockHeight
  deriving DecidableEq, Repr

def TimeScale.code : TimeScale → UInt8
  | unix => 0
  | blockHeight => 1

def TimeScale.ofCode : UInt8 → Except Error TimeScale
  | 0 => .ok unix
  | 1 => .ok blockHeight
  | _ => .error .invalidValue

structure Datetime where
  version : UInt8
  value : Value
  scale : TimeScale
  deriving DecidableEq

structure Quantity where
  version : UInt8
  value : Value
  symbol : String
  decimals : UInt8
  /-- Leave to show thousands by a letter before the symbol; not made use of. -/
  abridged : Bool
  deriving DecidableEq

structure Choice where
  version : UInt8
  /-- Which enumeration of the function. -/
  id : UInt8
  value : Value
  deriving DecidableEq

structure NameQuery where
  version : UInt8
  value : Value
  types : List NameType
  sources : List NameSource
  /-- Addresses that stand for the device. -/
  senders : List Address
  deriving DecidableEq

structure NestedCall where
  version : UInt8
  calldata : Value
  callee : Value
  chain : Option Value
  selector : Option Value
  amount : Option Value
  spender : Option Value
  deriving DecidableEq

structure Token where
  version : UInt8
  address : Value
  /-- Addresses that stand for the native currency. -/
  native : List Address
  deriving DecidableEq

end Param

inductive Param
  | raw (p : Param.Single)
  | amount (p : Param.Single)
  | tokenAmount (p : Param.TokenAmount)
  | nft (p : Param.Nft)
  | datetime (p : Param.Datetime)
  | duration (p : Param.Single)
  | unit (p : Param.Quantity)
  | enum (p : Param.Choice)
  | trustedName (p : Param.NameQuery)
  | calldata (p : Param.NestedCall)
  | token (p : Param.Token)
  | network (p : Param.Single)
  deriving DecidableEq

def Param.kind : Param → ParamKind
  | raw _ => .raw
  | amount _ => .amount
  | tokenAmount _ => .tokenAmount
  | nft _ => .nft
  | datetime _ => .datetime
  | duration _ => .duration
  | unit _ => .unit
  | enum _ => .enum
  | trustedName _ => .trustedName
  | calldata _ => .calldata
  | token _ => .token
  | network _ => .network

end ClearSign
