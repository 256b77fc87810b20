import ClearSign.Text.Decimal

/-!
A length of time as days, hours, minutes and seconds. Components that are zero are left out, and
all but the days have two digits.
-/

namespace ClearSign.Duration

/-- A component with its unit, unless it is zero. -/
def component (width n : Nat) (unit : Char) : List (List Char) :=
  if n = 0 then [] else [Decimal.padded width n ++ [unit]]

def components (seconds : Nat) : List (List Char) :=
  component 1 (seconds / 86400) 'd' ++ component 2 (seconds % 86400 / 3600) 'h' ++
    component 2 (seconds % 3600 / 60) 'm' ++ component 2 (seconds % 60) 's'

/-- As in 1d 01h 01m 01s; nothing at all is 00s. -/
def chars (seconds : Nat) : List Char :=
  match components seconds with
  | [] => ['0', '0', 's']
  | parts => (parts.intersperse [' ']).flatten

def text (seconds : Nat) : String := String.ofList (chars seconds)

end ClearSign.Duration
