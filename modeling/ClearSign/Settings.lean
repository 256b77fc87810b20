import ClearSign.Registry

/-!
What is being signed, and the ceilings of the device.
-/

namespace ClearSign

/-- Whether a transaction is signed or a message of typed data whose parts are calls. -/
inductive SigningMode
  | transaction
  | typedData
  deriving DecidableEq, Repr

structure Settings where
  mode : SigningMode
  maxCalls : Nat
  maxRows : Nat
  maxPayload : Nat
  /-- Bytes of text that a display shows of one raw value. -/
  displayWidth : Nat
  /-- The ticker of a chain that the registry knows none for. -/
  nativeTicker : String
  deriving DecidableEq

def Settings.default : Settings := ⟨.transaction, 16, 64, 65535, 128, "ETH"⟩

/-- The ticker of the native currency of a chain. -/
def Settings.tickerOf (settings : Settings) (registry : Registry) (chain : ChainId) : String :=
  (registry.nativeTicker? chain).getD settings.nativeTicker

end ClearSign
