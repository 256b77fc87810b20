import ClearSign.Proofs.Path.NestedLoops
import Mathlib.Data.List.Induction

/-!
Reading a path with registers: eight counters of sixteen bits each, how many of them are in use,
and how many arrays were met on the pass at hand. An array that is met for the first time takes the
next counter; one that is met again is looked up by its number. Nothing in the registers says that
a pass meets the arrays of the pass before, that a counter is within the array it belongs to, or
that the passes end.
-/

namespace ClearSign

open Odometer

/-- Why registers stop before the passes are done. -/
inductive Stop
  | refused (e : Error)
  /-- An index outside of the counters, or a difference below zero. -/
  | fault
  deriving DecidableEq

/-- The level of the spot is the number of arrays met on this pass. -/
structure Registers where
  spot : Spot
  /-- Counters in use. -/
  depth : Nat
  left : Vector UInt16 8
  /-- How large each array was when it took its counter. No step goes by it. -/
  opened : List Nat
  captures : Captures

namespace Registers

def refuse {α : Type} (e : Except Error α) : Except Stop α := e.mapError .refused

/-- The counter at an index. -/
def counter (left : Vector UInt16 8) (i : Nat) : Except Stop UInt16 :=
  match left[i]? with
  | some c => .ok c
  | none => .error .fault

def store (left : Vector UInt16 8) (i : Nat) (c : UInt16) : Except Stop (Vector UInt16 8) :=
  if h : i < 8 then .ok (left.set i c h) else .error .fault

def less (a b : UInt16) : Except Stop UInt16 := if b ≤ a then .ok (a - b) else .error .fault

/-- An array of which so many places are gone through takes the next counter, unless it has one. -/
def meet (r : Registers) (span : Nat) : Except Stop Registers :=
  if r.spot.level = r.depth then do
    let left ← store r.left r.spot.level (UInt16.ofNat span)
    return { r with left, depth := r.depth + 1, opened := r.opened.take r.depth ++ [span] }
  else .ok r

/-- Goes past one element. -/
def pass (args : Calldata) (r : Registers) : Element → Except Stop Registers
  | .array weight w => do
    let (first, stop) ← refuse (r.spot.window args w)
    let r ← r.meet (stop - first)
    let past ← less (UInt16.ofNat (stop - first)) (← counter r.left r.spot.level)
    return { r with spot := r.spot.enter weight (first + past.toNat) }
  | e => do
    let captures ← refuse (Spot.take args Captures.capacity r.spot r.captures e)
    let spot ← refuse (r.spot.move args e)
    return { r with spot, captures }

/-- Counts a pass of the innermost loop; a loop that has none left gives up its counter, and the
pass counts for the loop around it. -/
def turn : (depth : Nat) → Vector UInt16 8 → Except Stop (Nat × Vector UInt16 8)
  | 0, left => .ok (0, left)
  | depth + 1, left => do
    let c ← less (← counter left depth) 1
    let left ← store left depth c
    if 0 < c then return (depth + 1, left) else turn depth left

/-- How reading stands: in front of the elements that are ahead on this pass, or at its end. -/
inductive Stage
  | going (r : Registers) (ahead : List Element)
  | ended (result : Except Stop Captures)

/-- Goes past the next element, or on to the next pass. -/
def step (args : Calldata) (es : List Element) : Stage → Stage
  | .going r (e :: ahead) =>
    match r.pass args e with
    | .ok r => .going r ahead
    | .error s => .ended (.error s)
  | .going r [] =>
    match turn r.depth r.left with
    | .ok (0, _) => .ended (.ok r.captures)
    | .ok (depth + 1, left) => .going { r with spot := Spot.start, depth := depth + 1, left } es
    | .error s => .ended (.error s)
  | .ended result => .ended result

def run (args : Calldata) (es : List Element) : Nat → Stage
  | 0 => .going ⟨Spot.start, 0, Vector.replicate 8 0, [], []⟩ es
  | n + 1 => step args es (run args es n)

/-- A counter has at least one pass left and at most those of the array that took it, which are as
many as it can count. -/
def CountsWithin (r : Registers) (i span : Nat) : Prop :=
  r.opened[i]? = some span ∧ span < 65536 ∧
    ∃ c, r.left[i]? = some c ∧ 1 ≤ c.toNat ∧ c.toNat ≤ span

/-- What the registers may rely on in front of some elements. An array is of a size that a counter
can count, and if it has a counter, of the size that it had when it took it; behind the last
element, every counter in use has a pass left. -/
structure Sound (args : Calldata) (r : Registers) (ahead : List Element) : Prop where
  index_le : r.spot.level ≤ r.depth
  depth_le : r.depth ≤ 8
  array : ∀ weight w rest first stop, ahead = .array weight w :: rest →
    r.spot.window args w = .ok (first, stop) →
    r.spot.level < 8 ∧ 1 ≤ stop - first ∧ stop - first < 65536 ∧
      (r.spot.level < r.depth → r.CountsWithin r.spot.level (stop - first))
  turn : ahead = [] → ∀ i, i < r.depth → ∃ span, r.CountsWithin i span

def Stage.Sound (args : Calldata) : Stage → Prop
  | .going r ahead => r.Sound args ahead
  | .ended result => result ≠ .error .fault

/-- The counters in use, outermost first. -/
def counters (r : Registers) : List Nat := (r.left.toList.take r.depth).map UInt16.toNat

end Registers

namespace Odometer

/-- Advancing from the innermost loop on. -/
theorem advance_concat (cs : List Nat) (c : Nat) :
    advance (cs ++ [c]) = if c ≤ 1 then advance cs else cs ++ [c - 1] := by
  induction cs with
  | nil => rfl
  | cons d cs ih =>
    simp only [List.cons_append, advance, ih]
    by_cases hlast : c ≤ 1
    · simp only [if_pos hlast]
    · simp only [if_neg hlast]
      cases cs <;> rfl

end Odometer

namespace Registers

variable {r : Registers}

theorem store_eq {left : Vector UInt16 8} {i : Nat} (h : i < 8) (c : UInt16) :
    store left i c = .ok (left.set i c h) := dif_pos h

theorem less_eq {a b : UInt16} (h : b ≤ a) : less a b = .ok (a - b) := if_pos h

theorem counter_eq {left : Vector UInt16 8} {i : Nat} {c : UInt16} (h : left[i]? = some c) :
    counter left i = .ok c := by
  rw [counter, h]

/-- A counter that is stored is behind those in front of it, which stay. -/
theorem take_set {left : Vector UInt16 8} {i : Nat} (h : i < 8) (c : UInt16) :
    (left.set i c h).toList.take (i + 1) = left.toList.take i ++ [c] := by
  have hlength : i < left.toList.length := by simpa using h
  rw [Vector.toList_set, List.take_add_one, List.take_set_of_le (Nat.le_refl i),
    List.getElem?_set_self hlength]
  rfl

theorem take_set_self {left : Vector UInt16 8} {i : Nat} (h : i < 8) (c : UInt16) :
    (left.set i c h).toList.take i = left.toList.take i := by
  rw [Vector.toList_set, List.take_set_of_le (Nat.le_refl i)]

theorem counters_lt {c : Nat} (h : c ∈ r.counters) : c < radix := by
  obtain ⟨b, -, rfl⟩ := List.mem_map.mp h
  exact b.toNat_lt

/-- Turning the counters advances them. -/
theorem turn_eq {counters : List Nat} {left : Vector UInt16 8} (hlength : counters.length ≤ 8)
    (hcounters : (left.toList.take counters.length).map UInt16.toNat = counters)
    (hpos : ∀ c ∈ counters, 0 < c) :
    ∃ left', turn counters.length left = .ok ((advance counters).length, left') ∧
      (left'.toList.take (advance counters).length).map UInt16.toNat = advance counters := by
  induction counters using List.reverseRecOn generalizing left with
  | nil => exact ⟨left, rfl, rfl⟩
  | append_singleton counters c ih =>
    rw [List.length_append, List.length_singleton] at hlength hcounters ⊢
    have hroom : counters.length < 8 := by omega
    have hc : 0 < c := hpos c (by simp)
    obtain ⟨b, hb, hlist⟩ : ∃ b, left[counters.length]? = some b ∧
        left.toList[counters.length]? = some b := by
      exact ⟨left[counters.length], by simp [hroom], by simp [hroom]⟩
    rw [List.take_add_one, hlist, List.map_append] at hcounters
    obtain ⟨hfront, hlast⟩ := List.append_inj' hcounters rfl
    obtain rfl : b.toNat = c := by simpa using hlast
    have hone : (1 : UInt16) ≤ b := UInt16.le_iff_toNat_le.mpr hc
    have hless : (b - 1).toNat = b.toNat - 1 := UInt16.toNat_sub_of_le b 1 hone
    have hturn : turn (counters.length + 1) left =
        if 0 < b - 1 then .ok (counters.length + 1, left.set counters.length (b - 1) hroom)
        else turn counters.length (left.set counters.length (b - 1) hroom) := by
      simp only [turn, counter_eq hb, less_eq hone, store_eq hroom, bind, Except.bind, pure,
        Except.pure]
    have hmore_iff : 0 < b - 1 ↔ ¬ b.toNat ≤ 1 := by
      rw [UInt16.lt_iff_toNat_lt, hless]
      show 0 < _ ↔ _
      omega
    rw [hturn, advance_concat]
    by_cases hlast : b.toNat ≤ 1
    · -- the loop is done, and the pass counts for those around it
      rw [if_neg (fun hmore => hmore_iff.mp hmore hlast), if_pos hlast]
      refine ih (by omega) ?_ fun c hc => hpos c (List.mem_append_left _ hc)
      rw [take_set_self, hfront]
    · rw [if_pos (hmore_iff.mpr hlast), if_neg hlast]
      refine ⟨left.set counters.length (b - 1) hroom, by simp, ?_⟩
      rw [List.length_append, List.length_singleton, take_set hroom, List.map_append, hfront,
        List.map_singleton, hless]

/-- An element that is no array captures before it moves. -/
theorem pass_of_ne (args : Calldata) (r : Registers) {e : Element}
    (he : ∀ weight w, e ≠ .array weight w) :
    r.pass args e = (do
      let captures ← refuse (Spot.take args Captures.capacity r.spot r.captures e)
      let spot ← refuse (r.spot.move args e)
      return { r with spot, captures }) := by
  cases e with
  | array weight w => exact absurd rfl (he weight w)
  | tuple | ref | leaf | slice => rfl

end Registers

end ClearSign
