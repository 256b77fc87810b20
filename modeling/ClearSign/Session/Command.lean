import ClearSign.Session.Basic

/-!
The four commands. A command brings one descriptor, whole or in chunks; whatever a chunk, a
descriptor or its consequences fail at, the session is wiped and the host is told.
-/

namespace ClearSign

inductive Command
  | field
  | transactionInfo
  | proxyBinding
  | enumLabel
  deriving DecidableEq, Repr

namespace Session

/-- A field is counted into the digest of its call before it is shown, so that its last row can
close the intent. -/
def handleField (device : Device) (payload : Bytes) : Action Session Unit := do
  let field ← .ofExcept (Field.parse payload)
  onReview (Review.onCalls (CallStack.absorb payload))
  let cache := (← get).cache
  onReview (field.format device.toHost cache)
  onReview (Review.settle device.toHost)

/-- What the selector of a descriptor is held against: nothing once there are calls, and till then
the parked arguments, if they are complete. -/
def selectorCheck (s : Session) : SelectorCheck :=
  if s.review.calls.count ≠ 0 then .deferred
  else
    match s.parked.map Calldata.selector? with
    | some (.ok selector) => .mustMatch selector
    | _ => .unavailable

/-- A descriptor goes to the first call it is about, and calls without arguments right before that
call leave. Without any call it is about the parked arguments, which become one. -/
def handleInfo (device : Device) (payload : Bytes) : Action Session Unit := do
  let s ← get
  let info ← .ofExcept (TransactionInfo.parse s.selectorCheck device.verifier payload)
  if s.review.calls.count = 0 then
    openRoot device ⟨some info.contract, none, info.chain, ← unpark⟩
  let cache := (← get).cache
  onReview do
    Review.onCalls (CallStack.select cache info.contract info.selector info.chain)
    Review.flushBefore device.toHost
    Review.attach device.toHost info

/-- Each binding, good or bad, uses up the challenge. -/
def handleBinding (device : Device) (payload : Bytes) : Action Session Unit := do
  let parsed := ProxyBinding.parse (← get).challenge.value device.verifier payload
  modify (rollChallenge device)
  let binding ← .ofExcept parsed
  modify fun s => { s with cache := s.cache.addBinding binding }

def handleLabel (device : Device) (payload : Bytes) : Action Session Unit := do
  let label ← .ofExcept (EnumLabel.parse device.verifier payload)
  modify fun s => { s with cache := s.cache.addLabel label }

/-- What a command does with a whole payload. -/
def handle (device : Device) : Command → Bytes → Action Session Unit
  | .field => handleField device
  | .transactionInfo => handleInfo device
  | .proxyBinding => handleBinding device
  | .enumLabel => handleLabel device

/-- Takes a chunk in, and handles the payload it completes, if it does. -/
def takeChunk (device : Device) (command : Command) (mark : UInt8) (chunk : Bytes) :
    Action Session Unit := do
  let payload? ← (Reassembly.feed device.settings.maxPayload mark chunk).onPart
    Session.reassembly fun s r => { s with reassembly := r }
  match payload? with
  | some payload => handle device command payload
  | none => pure ()

/-- A field needs a current call with a descriptor, even for its first chunk. -/
def isAllowed (command : Command) (s : Session) : Bool :=
  command != .field || (s.review.calls.currentCall.bind Call.info).isSome

/-- Runs a command on one chunk. -/
def run (device : Device) (command : Command) (mark : UInt8) (chunk : Bytes) (s : Session) :
    StatusWord × Session :=
  if s.isAllowed command then
    match (takeChunk device command mark chunk).exec s with
    | (.ok (), s) => (StatusWord.ok, s)
    | (.error e, s) => (StatusWord.ofError e, s.wipe)
  else (StatusWord.ofError .commandNotAllowed, s.wipe)

end Session

end ClearSign
