import ClearSign.Field.Cell

/-!
The cells of a field, one for each byte string that its main value stands for. What a field needs
as a whole is looked up first, and its absence leaves no cells at all; what one cell needs only
stops that cell.
-/

namespace ClearSign

abbrev Cells := List (Except Error (Option Cell))

namespace Cells

/-- Cells that are always shown. -/
def shown (cs : List Cell) : Cells := cs.map fun c => .ok (some c)

/-- Cells that are shown if they can be made. -/
def tried (cs : List (Except Error Cell)) : Cells := cs.map fun c => c.map some

end Cells

namespace Param

/-- Collections for some ids: one for all of them, or as many. -/
def pairable (collections ids : Captures) : Bool :=
  !collections.isEmpty && (collections.length == 1 || collections.length == ids.length)

/-- The tokens for some amounts: none at all, or as many. -/
def TokenAmount.tokens (p : TokenAmount) (scope : Scope) (amounts : Captures) :
    Except Error Captures :=
  match p.token with
  | none => .ok []
  | some token => do
    let tokens ← scope.resolve token
    if tokens.length = amounts.length then return tokens else throw .invalidValue

/-- The called contract and function. -/
def calledFunction (scope : Scope) : Except Error (Address × Selector) :=
  match scope.call with
  | none => .error .invalidState
  | some c =>
    match c.target, c.calldata with
    | some target, some data => do return (target, ← data.selector?)
    | _, _ => .error .invalidState

/-- The chain of the current call itself; there must be one. -/
def callChain (scope : Scope) : Except Error ChainId :=
  match scope.call with
  | some c => if c.chain = 0 then .error .invalidState else .ok c.chain
  | none => .error .invalidState

/-- The cells of a parameter that shows something. -/
def cells (scope : Scope) (field : Field) : Param → Except Error Cells
  | .raw p => do
    let chain ← scope.chain
    return (← scope.resolve p.value).map (p.rawCell scope field chain)
  | .amount p => do
    let ticker := scope.ticker (← scope.chain)
    return .shown ((← scope.resolve p.value).map (Single.amountCell ticker))
  | .tokenAmount p => do
    let chain ← scope.chain
    let amounts ← scope.resolve p.value
    let tokens ← p.tokens scope amounts
    return .shown <| amounts.mapIdx fun i c => p.cell (p.currency scope chain tokens[i]?) c
  | .nft p => do
    let chain ← scope.chain
    let collections ← scope.resolve p.collection
    let ids ← scope.resolve p.id
    if pairable collections ids then
      return .tried <| ids.mapIdx fun i c =>
        match collections[i]?.or collections.head? with
        | some collection => Nft.cell scope chain collection.toAddress c
        | none => .error .invalidValue
    else throw .invalidValue
  | .datetime p => do return .shown ((← scope.resolve p.value).map p.cell)
  | .duration p => do return .shown ((← scope.resolve p.value).map Single.durationCell)
  | .unit p => do
    if p.symbol.isEmpty then throw .invalidValue
    return .shown ((← scope.resolve p.value).map p.cell)
  | .enum p => do
    let values ← scope.resolve p.value
    let chain ← scope.chain
    let (contract, selector) ← calledFunction scope
    return .tried (values.map (p.cell scope chain contract selector))
  | .trustedName p => do
    let values ← scope.resolve p.value
    let chain ← callChain scope
    return values.map (p.cell scope field chain)
  | .calldata _ => .ok []
  | .token p => do
    let chain ← scope.chain
    return .tried ((← scope.resolve p.address).map (p.cell scope chain))
  | .network p => do
    if p.value.family ≠ .uint then throw .invalidValue
    return .tried ((← scope.resolve p.value).map (Single.networkCell scope))

end Param

end ClearSign
