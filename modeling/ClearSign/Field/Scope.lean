import ClearSign.Review.Basic
import ClearSign.Value.Resolve

/-!
What a field is formatted against: the host, the descriptors at hand and the current call.
-/

namespace ClearSign

structure Scope where
  host : Host
  cache : Cache
  call : Option Call

namespace Scope

def resolve (s : Scope) (v : Value) : Except Error Captures := v.resolve s.call

/-- The descriptor of the current call. -/
def info (s : Scope) : Except Error TransactionInfo :=
  match s.call.bind Call.info with
  | some info => .ok info
  | none => .error .invalidState

/-- The chain that the descriptor of the current call names. -/
def chain (s : Scope) : Except Error ChainId := TransactionInfo.chain <$> s.info

def ticker (s : Scope) (chain : ChainId) : String :=
  s.host.settings.tickerOf s.host.registry chain

end Scope

end ClearSign
