import ClearSign.Field.Calls
import ClearSign.Field.Cells

/-!
Formatting a field: its cells become rows, or its calls are opened. Rows shown and calls opened
before an objection stay.
-/

namespace ClearSign.Field

/-- Shows one cell, if it is not hidden. -/
def addCell (host : Host) (key : String) (cell : Except Error (Option Cell)) :
    Action Review Unit := do
  match ← .ofExcept cell with
  | some c => Review.addRow host (.param c.kind) key c.text c.extra
  | none => pure ()

/-- Opens the calls of a batch, which is counted first. -/
def openCalls (host : Host) (calls : List (Except Error NewCall)) : Action Review Unit := do
  Review.onCalls fun s => .ok (s.announce calls.length)
  calls.forM fun call => do
    let _ ← Review.openCall host (← .ofExcept call)

def format (host : Host) (cache : Cache) (field : Field) : Action Review Unit := do
  let scope : Scope := ⟨host, cache, (← get).calls.currentCall⟩
  match field.param with
  | .calldata p => openCalls host (Param.NestedCall.calls (← .ofExcept (p.resolve scope)))
  | param => (← .ofExcept (param.cells scope field)).forM (addCell host field.name)

end ClearSign.Field
