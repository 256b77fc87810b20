import ClearSign.Descriptor.EnumLabel
import ClearSign.Descriptor.ProxyBinding

/-!
The descriptors that outlive the command they came with. Bindings are kept by chain and address,
labels as they come; either gives up its oldest entry to make room.
-/

namespace ClearSign

structure Cache where
  bindings : List ProxyBinding
  labels : List EnumLabel
  deriving DecidableEq

namespace Cache

def maxBindings : Nat := 4

def maxLabels : Nat := 32

def empty : Cache := ⟨[], []⟩

/-- The entries with one more behind them, and without the first if there are too many. -/
def enqueue {α : Type} (capacity : Nat) (entries : List α) (entry : α) : List α :=
  (if capacity ≤ entries.length then entries.drop 1 else entries) ++ [entry]

/-- Puts an entry in the place of the first that a test finds. -/
def replaceFirst {α : Type} (p : α → Bool) (entry : α) : List α → List α
  | [] => []
  | e :: rest => if p e then entry :: rest else e :: replaceFirst p entry rest

def sameProxy (a b : ProxyBinding) : Bool := a.chain == b.chain && a.address == b.address

/-- A binding takes the place of the one for the same proxy. -/
def addBinding (c : Cache) (b : ProxyBinding) : Cache :=
  { c with
    bindings :=
      if c.bindings.any (sameProxy b) then replaceFirst (sameProxy b) b c.bindings
      else enqueue maxBindings c.bindings b }

def implementation? (c : Cache) (chain : ChainId) (address : Address) (selector : Selector) :
    Option Address :=
  c.bindings.findSome? fun b => b.implementation? chain address selector

/-- The contract behind an address, which is itself unless a binding says otherwise. -/
def resolve (c : Cache) (chain : ChainId) (address : Address) (selector : Selector) : Address :=
  (c.implementation? chain address selector).getD address

def addLabel (c : Cache) (l : EnumLabel) : Cache :=
  { c with labels := enqueue maxLabels c.labels l }

/-- Every descriptor that was kept is dropped. -/
def reset (c : Cache) : Cache := { c with bindings := [], labels := [] }

/-- The label of a value, by the contract that runs the call. -/
def label? (c : Cache) (chain : ChainId) (contract : Address) (selector : Selector)
    (id value : UInt8) : Option EnumLabel :=
  c.labels.find? fun l =>
    l.chain == chain && l.contract == c.resolve chain contract selector &&
      l.selector == selector && l.id == id && l.value == value

end Cache

end ClearSign
