import ClearSign.Tlv.Record

/-!
Structures made of records. A schema says which tags a structure may hold, which of them may come
again, and what each record does to the structure being built; one more step may be common to all
records. Parsing is a fold over the records that the first objection ends.
-/

namespace ClearSign.Tlv

/-- What one tag means to a structure under construction. -/
structure Rule (σ : Type) where
  tag : UInt8
  repeats : Bool
  apply : Record → σ → Except Error σ

namespace Rule

variable {σ : Type}

/-- A tag that a structure holds at most once. -/
def once (tag : UInt8) (apply : Record → σ → Except Error σ) : Rule σ := ⟨tag, false, apply⟩

/-- A tag that may come again. -/
def many (tag : UInt8) (apply : Record → σ → Except Error σ) : Rule σ := ⟨tag, true, apply⟩

end Rule

/-- The tags met so far. -/
structure Tags where
  list : List UInt8
  deriving DecidableEq, Repr

namespace Tags

def empty : Tags := ⟨[]⟩

def insert (s : Tags) (tag : UInt8) : Tags := ⟨tag :: s.list⟩

def contains (s : Tags) (tag : UInt8) : Bool := s.list.contains tag

def containsAll (s : Tags) (tags : List UInt8) : Bool := tags.all s.contains

/-- Objects unless every one of the tags was met. -/
def require (s : Tags) (tags : List UInt8) : Except Error Unit :=
  if s.containsAll tags then .ok () else .error .missingField

end Tags

structure Schema (σ : Type) where
  rules : List (Rule σ)
  /-- Runs on every record, before the rule of its tag. -/
  common : Record → σ → Except Error σ

namespace Schema

variable {σ : Type}

/-- A schema without a common step. -/
def ofRules (rules : List (Rule σ)) : Schema σ := ⟨rules, fun _ s => .ok s⟩

def rule? (S : Schema σ) (tag : UInt8) : Option (Rule σ) := S.rules.find? (·.tag == tag)

/-- Takes one record in: its tag must be known, and new unless it may come again. -/
def accept (S : Schema σ) (state : σ × Tags) (r : Record) : Except Error (σ × Tags) := do
  let some rule := S.rule? r.tag | throw .unknownTag
  if !rule.repeats && state.2.contains r.tag then throw .duplicateTag
  let target ← S.common r state.1
  let target ← rule.apply r target
  return (target, state.2.insert r.tag)

/-- The structure that the records build from `initial`, and the tags they carry. Bytes that are
no record are only met once the records before them have been taken in. -/
def parse (S : Schema σ) (initial : σ) (bs : Bytes) : Except Error (σ × Tags) := do
  let (rs, left) := records bs
  let result ← rs.foldlM S.accept (initial, Tags.empty)
  if left.isEmpty then return result else throw .malformedTlv

end Schema

end ClearSign.Tlv
