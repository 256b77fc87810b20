import ClearSign.Proofs.Path.NestedLoops

/-!
The loops that lie on a way from one spot to another. A way is settled by how often each of its
loops has yet to run, so that a second pass with the same counters meets arrays of the same sizes.
Advancing the counters changes none but the last that is kept: what is kept lies on a way again.
-/

namespace ClearSign

open Odometer

/-- An array that is gone through: the passes it has left, out of how many. -/
structure Loop where
  left : Nat
  span : Nat
  deriving DecidableEq

namespace Spot

/-- The elements lead from the first spot, by the loops, to the second one, where only some of the
elements are still ahead. -/
inductive Along (args : Calldata) :
    Spot → List Element → List Loop → Spot → List Element → Prop
  | here (s : Spot) (es : List Element) : Along args s es [] s es
  | array {s t : Spot} {es ahead : List Element} {loops : List Loop} {w : Window}
      {first stop left : Nat} (weight : UInt8) :
      s.window args w = .ok (first, stop) → 0 < left → left ≤ stop - first →
      Along args (s.enter weight (stop - left)) es loops t ahead →
      Along args s (.array weight w :: es) (⟨left, stop - first⟩ :: loops) t ahead
  | other {s u t : Spot} {e : Element} {es ahead : List Element} {loops : List Loop} :
      (∀ weight w, e ≠ .array weight w) → s.move args e = .ok u →
      Along args u es loops t ahead → Along args s (e :: es) loops t ahead

theorem level_lt_of_window {args : Calldata} {s : Spot} {w : Window} {bounds : Nat × Nat}
    (h : s.window args w = .ok bounds) : s.level < maxDepth := by
  apply Nat.lt_of_not_le
  intro hdeep
  rw [window, if_pos hdeep] at h
  cases h

/-- A window is as large as a counter can count. -/
theorem span_lt_radix {args : Calldata} {s : Spot} {w : Window} {first stop : Nat}
    (h : s.window args w = .ok (first, stop)) : stop - first < radix := by
  have hlevel := level_lt_of_window h
  rw [window, if_neg (Nat.not_le_of_lt hlevel)] at h
  cases hword : args.word s.position with
  | error e => simp [hword, bind, Except.bind] at h
  | ok word =>
    rw [hword] at h
    have hstop := (Window.resolve_bounds h).2
    have hlow : lowHalf word < radix := Nat.mod_lt _ (by decide)
    omega

namespace Along

variable {args : Calldata} {s t u : Spot} {es ahead rest : List Element} {loops more : List Loop}

theorem trans (h : Along args s es loops t ahead) (h' : Along args t ahead more u rest) :
    Along args s es (loops ++ more) u rest := by
  induction h with
  | here => exact h'
  | array weight hw hpos hle _ ih => exact .array weight hw hpos hle (ih h')
  | other he hm _ ih => exact .other he hm (ih h')

theorem level (h : Along args s es loops t ahead) : t.level = s.level + loops.length := by
  induction h with
  | here => rfl
  | array weight hw hpos hle _ ih =>
    rw [ih, List.length_cons]
    show _ + 1 + _ = _
    omega
  | other he hm _ ih => rw [ih, move_level hm]

theorem level_le (h : Along args s es loops t ahead) (hs : s.level ≤ maxDepth) :
    t.level ≤ maxDepth := by
  induction h with
  | here => exact hs
  | array weight hw hpos hle _ ih => exact ih (level_lt_of_window hw)
  | other he hm _ ih => exact ih (by rwa [move_level hm])

theorem bounds (h : Along args s es loops t ahead) :
    ∀ l ∈ loops, 0 < l.left ∧ l.left ≤ l.span ∧ l.span < radix := by
  induction h with
  | here =>
    intro l hl
    cases hl
  | array weight hw hpos hle _ ih =>
    intro l hl
    cases hl with
    | head => exact ⟨hpos, hle, span_lt_radix hw⟩
    | tail _ hl => exact ih l hl
  | other he hm _ ih => exact ih

theorem counts (h : Along args s es loops t ahead) : Counts args s es (loops.map Loop.left) := by
  induction h with
  | here => exact counts_nil _ _ _
  | array weight hw hpos hle _ ih => exact ⟨_, _, hw, hpos, hle, ih⟩
  | @other s u t e es ahead loops he hm _ ih =>
    cases loops with
    | nil => exact counts_nil _ _ _
    | cons l loops =>
      cases e with
      | array weight w => exact absurd rfl (he weight w)
      | tuple | ref | leaf | slice => exact ⟨u, hm, ih⟩

/-- Behind the last element nothing is ahead. -/
theorem eq_nil (h : Along args s [] loops t ahead) : loops = [] := by
  cases h
  rfl

/-- The loops that are kept when the counters advance are of the sizes that they had. -/
theorem advance (h : Along args s es loops t ahead) :
    ∃ kept u rest, Along args s es kept u rest ∧
      kept.map Loop.left = Odometer.advance (loops.map Loop.left) ∧
      kept.map Loop.span = (loops.map Loop.span).take kept.length := by
  induction h with
  | here s es => exact ⟨[], s, es, .here s es, rfl, rfl⟩
  | @array s t es ahead loops w first stop left weight hw hpos hle _ ih =>
    obtain ⟨kept, u, rest, hkept, hleft, hspan⟩ := ih
    cases kept with
    | cons l kept =>
      refine ⟨_, u, rest, .array weight hw hpos hle hkept, ?_, ?_⟩
      · simp only [List.map_cons] at hleft
        simp only [List.map_cons, Odometer.advance, ← hleft]
      · rw [List.map_cons, hspan]
        rfl
    | nil =>
      have hinner : Odometer.advance (loops.map Loop.left) = [] := hleft.symm
      by_cases hlast : left ≤ 1
      · refine ⟨[], s, _, .here _ _, ?_, rfl⟩
        simp only [List.map_cons, Odometer.advance, hinner, if_pos hlast, List.map_nil]
      · refine ⟨_, _, _, .array weight hw (by omega : 0 < left - 1) (by omega) (.here _ _), ?_, rfl⟩
        simp only [List.map_cons, Odometer.advance, hinner, if_neg hlast, List.map_nil]
  | other he hm _ ih =>
    obtain ⟨kept, u, rest, hkept, hcounters⟩ := ih
    exact ⟨kept, u, rest, .other he hm hkept, hcounters⟩

end Along

end Spot

end ClearSign
