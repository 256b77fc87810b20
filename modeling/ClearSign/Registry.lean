import ClearSign.Error
import ClearSign.Bytes

/-!
What the host of the library knows: who the device is, and how addresses, tokens and chains are
called. The library never doubts an answer.
-/

namespace ClearSign

/-- What a name stands for. -/
inductive NameType
  | account
  | contract
  | nftCollection
  | token
  | wallet
  | contextAddress
  deriving DecidableEq, Repr

namespace NameType

def code : NameType → UInt8
  | account => 1
  | contract => 2
  | nftCollection => 3
  | token => 4
  | wallet => 5
  | contextAddress => 6

def ofCode? : UInt8 → Option NameType
  | 1 => some account
  | 2 => some contract
  | 3 => some nftCollection
  | 4 => some token
  | 5 => some wallet
  | 6 => some contextAddress
  | _ => none

end NameType

/-- Who gave a name. -/
inductive NameSource
  | lab
  | cal
  | ens
  | unstoppableDomains
  | freename
  | dns
  | dynamicResolver
  | mab
  deriving DecidableEq, Repr

namespace NameSource

def code : NameSource → UInt8
  | lab => 0
  | cal => 1
  | ens => 2
  | unstoppableDomains => 3
  | freename => 4
  | dns => 5
  | dynamicResolver => 6
  | mab => 7

def ofCode? : UInt8 → Option NameSource
  | 0 => some lab
  | 1 => some cal
  | 2 => some ens
  | 3 => some unstoppableDomains
  | 4 => some freename
  | 5 => some dns
  | 6 => some dynamicResolver
  | 7 => some mab
  | _ => none

end NameSource

abbrev ChainId := UInt64

structure TokenInfo where
  chain : ChainId
  address : Address
  ticker : String
  decimals : UInt8
  deriving DecidableEq

structure NftInfo where
  chain : ChainId
  address : Address
  collection : String
  deriving DecidableEq

structure TrustedName where
  chain : ChainId
  address : Address
  name : String
  type : NameType
  source : NameSource
  deriving DecidableEq

structure Registry where
  /-- The address that the device signs for. -/
  wallet : Except Error Address
  /-- The random number of each draw, the first draw being number 0. -/
  draw : Nat → UInt32
  token? : ChainId → Address → Option TokenInfo
  nft? : ChainId → Address → Option NftInfo
  /-- An empty list of types or of sources admits them all. -/
  trustedName? : List NameType → List NameSource → ChainId → Address → Option TrustedName
  networkName? : ChainId → Option String
  nativeTicker? : ChainId → Option String

end ClearSign
