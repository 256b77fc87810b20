import ClearSign.Path.Capture
import ClearSign.Proofs.Action
import Mathlib.Data.List.Induction

/-!
A capture that is narrowed time and again. It keeps all it was taken as; what windows leave of it is
a part of a part, which starts where their starts add up to and never reaches outside. A window that
finds no room in the part at hand changes nothing.
-/

namespace ClearSign

namespace Window

/-- A bound points to a place in a sequence: a negative one counts from the end, and a missing one
stands for an end. -/
def PointsTo (size missing : Int) (bound : Option Int16) (place : Int) : Prop :=
  match bound with
  | none => place = missing
  | some b => place = if b.toInt < 0 then size + b.toInt else b.toInt

/-- The places of a sequence that a window takes, from the first on up to the one behind its
last. -/
structure Spans (w : Window) (size start stop : Nat) : Prop where
  first : PointsTo size 0 w.start start
  last : PointsTo size size w.stop stop
  nonempty : start < stop
  inside : stop ≤ size

variable {w : Window} {size start stop : Nat}

theorem pointsTo_iff {size missing n : Int} {bound : Option Int16} :
    PointsTo size missing bound n ↔ (bound.map (place size)).getD missing = n := by
  cases bound with
  | none => exact eq_comm
  | some b => simp [PointsTo, place, Int16.lt_iff_toInt_lt, eq_comm]

theorem resolve_eq_ok_iff : w.resolve size = .ok (start, stop) ↔ w.Spans size start stop := by
  simp only [resolve]
  constructor
  · intro h
    split at h
    · rename_i hbounds
      cases h
      exact ⟨pointsTo_iff.mpr (by omega), pointsTo_iff.mpr (by omega), by omega, by omega⟩
    · cases h
  · intro h
    have hfirst := pointsTo_iff.mp h.first
    have hlast := pointsTo_iff.mp h.last
    have hnonempty := h.nonempty
    have hinside := h.inside
    rw [hfirst, hlast, if_pos (by omega)]
    rfl

theorem resolve_refused (h : ¬ ∃ start stop, w.Spans size start stop) :
    w.resolve size = .error .invalidValue := by
  cases hresolve : w.resolve size with
  | error e =>
    simp only [resolve] at hresolve
    split at hresolve
    · cases hresolve
    · exact congrArg _ (Except.error.inj hresolve).symm
  | ok bounds => exact absurd ⟨_, _, resolve_eq_ok_iff.mp hresolve⟩ h

end Window

/-- What windows leave of a byte string, each cut out of the part that those before it left, and
the sum of the places that they start at. -/
inductive Cuts (bs : Bytes) : List Window → Bytes → Nat → Prop
  | whole : Cuts bs [] bs 0
  | next {ws : List Window} {part : Bytes} {offset start stop : Nat} (w : Window) :
    Cuts bs ws part offset → w.Spans part.length start stop →
    Cuts bs (ws ++ [w]) (part.extract start stop) (offset + start)

namespace Capture

/-- A capture of `bs` that shows the part which windows left of it. -/
structure Shows (c : Capture) (bs : Bytes) (ws : List Window) : Prop where
  storage : c.storage = bs
  inside : c.offset + c.length ≤ bs.length
  length : c.bytes.length = c.length
  part : Cuts bs ws c.bytes c.offset

/-- The part between two places of the present one. -/
def within (c : Capture) (start stop : Nat) : Capture :=
  { c with offset := c.offset + start, length := stop - start }

variable {c : Capture} {bs : Bytes} {ws : List Window} {w : Window} {start stop : Nat}

theorem bytes_within (h : stop ≤ c.length) :
    (c.within start stop).bytes = c.bytes.extract start stop := by
  have hfits : stop - start ≤ c.length - start := by omega
  show (c.storage.drop (c.offset + start)).take (stop - start) =
    (((c.storage.drop c.offset).take c.length).drop start).take (stop - start)
  rw [List.drop_take, List.take_take, List.drop_drop, Nat.min_eq_left hfits]

theorem shows_whole (bs : Bytes) : (whole bs).Shows bs [] := by
  have hall : (whole bs).bytes = bs := List.take_length
  exact ⟨rfl, by simp [whole], by rw [hall]; rfl, by rw [hall]; exact .whole⟩

/-- One more window cuts a part out of the part that was left. -/
theorem Shows.next (h : c.Shows bs ws) (hw : w.Spans c.length start stop) :
    (c.within start stop).Shows bs (ws ++ [w]) where
  storage := h.storage
  inside := by
    have hinside := h.inside
    have hnonempty := hw.nonempty
    have hstop := hw.inside
    show c.offset + start + (stop - start) ≤ bs.length
    omega
  length := by
    have hstop := hw.inside
    rw [bytes_within hstop, List.extract, List.length_take, List.length_drop, h.length]
    show min (stop - start) (c.length - start) = stop - start
    omega
  part := by
    rw [bytes_within hw.inside]
    exact .next w h.part (by rwa [h.length])

end Capture

namespace Captures

/-- Narrows the last capture in place: what is answered, and the captures that are left. -/
def slice (cs : Captures) (w : Window) : Except Error Unit × Captures :=
  (Action.update fun cs => cs.narrowLast w).exec cs

/-- The captures behind some windows, and those of the windows that were taken. -/
def sliced (cs : Captures) (ws : List Window) : Captures × List Window :=
  ws.foldl (fun (cs, taken) w =>
    ((cs.slice w).2, if (cs.slice w).1.toBool then taken ++ [w] else taken)) (cs, [])

variable {others : Captures} {c : Capture} {w : Window} {start stop : Nat}

theorem narrowLast_concat : narrowLast (others ++ [c]) w =
    (c.narrow w).map fun c => others ++ [c] := by
  simp only [narrowLast, List.getLast?_concat, List.dropLast_concat]

/-- A window that finds room cuts the last capture, and no other. -/
theorem slice_of_spans (h : w.Spans c.length start stop) :
    (others ++ [c]).slice w = (.ok (), others ++ [c.within start stop]) := by
  have hnarrow : c.narrow w = .ok (c.within start stop) := by
    unfold Capture.narrow
    rw [Window.resolve_eq_ok_iff.mpr h]
    rfl
  unfold slice
  rw [Action.exec_update, narrowLast_concat, hnarrow]
  rfl

theorem slice_refused (h : ¬ ∃ start stop, w.Spans c.length start stop) :
    (others ++ [c]).slice w = (.error .invalidValue, others ++ [c]) := by
  have hnarrow : c.narrow w = .error .invalidValue := by
    unfold Capture.narrow
    rw [Window.resolve_refused h]
    rfl
  unfold slice
  rw [Action.exec_update, narrowLast_concat, hnarrow]
  rfl

theorem sliced_concat (cs : Captures) (ws : List Window) (w : Window) :
    let (before, taken) := cs.sliced ws
    cs.sliced (ws ++ [w]) = ((before.slice w).2,
      if (before.slice w).1.toBool then taken ++ [w] else taken) := by
  unfold sliced
  rw [List.foldl_append]
  rfl

/-- Whatever windows came, the last capture shows what those that were taken left of it. -/
theorem sliced_shows (others : Captures) (bs : Bytes) (ws : List Window) :
    ∃ c, ((others ++ [Capture.whole bs]).sliced ws).1 = others ++ [c] ∧
      c.Shows bs ((others ++ [Capture.whole bs]).sliced ws).2 := by
  induction ws using List.reverseRecOn with
  | nil => exact ⟨_, rfl, Capture.shows_whole bs⟩
  | append_singleton ws w ih =>
    obtain ⟨c, hcs, hshows⟩ := ih
    have hstep := sliced_concat (others ++ [Capture.whole bs]) ws w
    dsimp only at hstep
    rw [hstep, hcs]
    by_cases hspans : ∃ start stop, w.Spans c.length start stop
    · obtain ⟨start, stop, hspans⟩ := hspans
      rw [slice_of_spans hspans]
      exact ⟨_, rfl, hshows.next hspans⟩
    · rw [slice_refused hspans]
      exact ⟨c, rfl, hshows⟩

/-- Windows compose. Behind any of them the last capture shows the part of a part that the windows
which were taken left, inside of what it was taken as, and the others are as they were. One more
window is taken just if its bounds, counted in that part, enclose some of it; else it is refused and
changes nothing. -/
theorem slices_compose (others : Captures) (bs : Bytes) (ws : List Window) :
    let cs := ((others ++ [Capture.whole bs]).sliced ws).1
    let taken := ((others ++ [Capture.whole bs]).sliced ws).2
    ∃ c, cs = others ++ [c] ∧ c.Shows bs taken ∧
      ∀ w, ((cs.slice w).1 = .ok () ↔ ∃ start stop, w.Spans c.length start stop) ∧
        ∀ e, (cs.slice w).1 = .error e → e = .invalidValue ∧ (cs.slice w).2 = cs := by
  intro cs taken
  obtain ⟨c, hcs, hshows⟩ := sliced_shows others bs ws
  refine ⟨c, hcs, hshows, fun w => ?_⟩
  have hlast : cs = others ++ [c] := hcs
  rw [hlast]
  by_cases hspans : ∃ start stop, w.Spans c.length start stop
  · obtain ⟨start, stop, hspans⟩ := hspans
    rw [slice_of_spans hspans]
    exact ⟨iff_of_true rfl ⟨start, stop, hspans⟩, fun e he => by cases he⟩
  · rw [slice_refused hspans]
    refine ⟨iff_of_false (by simp) hspans, fun e he => ?_⟩
    cases he
    exact ⟨rfl, rfl⟩

/-- The last of the three windows asks for more than the two before it left. -/
example :
    let (cs, taken) := sliced [Capture.whole [1, 2, 3, 4]]
      [⟨some 1, none⟩, ⟨some (-2), some (-1)⟩, ⟨some 0, some 2⟩]
    cs.map (fun c => (c.bytes, c.offset)) = [([3], 2)] ∧ taken.length = 2 := by
  decide

end Captures

end ClearSign
