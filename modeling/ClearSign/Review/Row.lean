import ClearSign.Field.Param

/-!
The rows of text that a review shows. Rows come in intents: one row opens an intent, and the row
that completes a call closes it.
-/

namespace ClearSign

/-- What the registry knew about a row. -/
inductive Extra
  | token (info : TokenInfo)
  | nft (info : NftInfo)
  | name (info : TrustedName)
  deriving DecidableEq

/-- What a row is asked to be: the opening of an intent, or the text of a parameter. -/
inductive RowKind
  | intent
  | param (kind : ParamKind)
  deriving DecidableEq, Repr

structure Row where
  kind : ParamKind
  key : String
  value : String
  startsIntent : Bool
  endsIntent : Bool
  extra : Option Extra
  deriving DecidableEq

namespace Row

/-- An opening row is shown as raw text and closes nothing. -/
def make (kind : RowKind) (key value : String) (extra : Option Extra) (closes : Bool) : Row :=
  match kind with
  | .intent => ⟨.raw, key, value, true, false, extra⟩
  | .param kind => ⟨kind, key, value, false, closes, extra⟩

end Row

abbrev Table := List Row

namespace Table

def add (capacity : Nat) (table : Table) (row : Row) : Except Error Table :=
  if table.length < capacity then .ok (table ++ [row]) else .error .outOfMemory

end Table

end ClearSign
