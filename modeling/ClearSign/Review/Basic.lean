import ClearSign.Review.CallStack
import ClearSign.Review.Row
import ClearSign.Text.Checksum

/-!
The calls under review and the rows shown so far. A call without arguments leaves by being
described here; a call with arguments leaves once its fields add up to what its descriptor
announced.
-/

namespace ClearSign

structure Review where
  calls : CallStack
  table : Table
  deriving DecidableEq

/-- What a review looks up and is bound by. -/
structure Host where
  registry : Registry
  settings : Settings

namespace Review

def empty : Review := ⟨CallStack.empty, []⟩

def resetCalls (r : Review) : Review := { r with calls := r.calls.reset }

/-- The rows start over. -/
def resetTable (r : Review) : Review := { r with table := [] }

def onCalls (f : CallStack → Except Error CallStack) : Action Review Unit :=
  .update fun r => do return { r with calls := ← f r.calls }

/-- Shows a row; it closes an intent if it is no opening row and the current call is complete. -/
def addRow (host : Host) (kind : RowKind) (key value : String) (extra : Option Extra) :
    Action Review Unit :=
  .update fun r => do
    let row := Row.make kind key value extra r.calls.isVerified
    return { r with table := ← r.table.add host.settings.maxRows row }

def intentKey : String := "Transaction type"

/-- Shows what kind of call comes next. It opens an intent unless it came alone. -/
def addIntent (host : Host) (operation : String) : Action Review Unit := do
  let kind := if (← get).calls.batchSize = 1 then RowKind.param .raw else .intent
  addRow host kind intentKey operation none

/-- Opens a call. -/
def openCall (host : Host) (new : NewCall) : Action Review Nat := do
  let r ← get
  let (slot, calls) ← .ofExcept (r.calls.push host.settings host.registry new)
  set { r with calls := calls }
  return slot

/-- Gives the current call its descriptor. A call that is held to its digest is announced at once,
and leaves at once if its descriptor announces no fields. -/
def attach (host : Host) (info : TransactionInfo) : Action Review Unit := do
  let hashed := (← get).calls.isHashed host.settings.mode
  onCalls fun s => s.modifyCurrent fun c => { c with info := some info }
  if hashed then
    addIntent host info.operation
    if info.fieldsHash = Call.fieldsDigest [] then onCalls CallStack.pop

/-- The chain that an amount without a descriptor is counted on. -/
def amountChain (c : Call) (root : Option Call) : Except Error ChainId :=
  match c.info.or (root.bind Call.info) with
  | some info => .ok info.chain
  | none => .error .invalidState

/-- Shows who a call without arguments goes to. -/
def addDestination (host : Host) (c : Call) : Action Review Unit :=
  match host.registry.trustedName? [.account] [.ens, .lab, .mab] c.chain c.destination with
  | some name => addRow host (.param .trustedName) "To" name.name (some (.name name))
  | none => addRow host (.param .raw) "To" (Checksum.text c.chain c.destination) none

/-- The call in a slot leaves and is described. -/
def describe (host : Host) (slot : Nat) : Action Review Unit := do
  let r ← get
  let some c := r.calls.call? slot | throw .invalidState
  set { r with calls := { r.calls with slots := r.calls.slots.set slot none } }
  match c.amount with
  | some amount =>
    let chain ← .ofExcept (amountChain c (← get).calls.root)
    let ticker := host.settings.tickerOf host.registry chain
    addIntent host "Send"
    addRow host (.param .amount) "Amount"
      (Decimal.amountText Decimal.nativePlaces ticker amount.bytes) none
  | none => addIntent host "Empty transaction"
  addDestination host c

/-- Calls without arguments right before the current one leave, nearest first. -/
def flushBefore (host : Host) : Action Review Unit := do
  (← get).calls.emptyBefore.forM (describe host)

/-- Calls without arguments right after the current one leave, nearest first. -/
def flushAfter (host : Host) : Action Review Unit := do
  (← get).calls.emptyAfter.forM (describe host)

/-- At most `rounds` times: while the current call is complete, it leaves, and the calls without
arguments behind it leave first. -/
def settleFor (host : Host) : (rounds : Nat) → Action Review Unit
  | 0 => pure ()
  | rounds + 1 => do
    if (← get).calls.isDone host.settings.mode then
      flushAfter host
      onCalls CallStack.pop
      settleFor host rounds

/-- Lets every complete call leave. Each round takes a live call away, so their number is enough
rounds. -/
def settle (host : Host) : Action Review Unit := do
  settleFor host (← get).calls.count

end Review

end ClearSign
