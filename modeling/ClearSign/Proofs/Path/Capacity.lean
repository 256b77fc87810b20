import ClearSign.Proofs.Refusal
import ClearSign.Value.Resolve

/-!
How many byte strings a value stands for: never more than there is room for, whatever path leads
to them.
-/

namespace ClearSign

open Refusal

namespace Captures

variable {cs cs' : Captures}

theorem length_push_le {c : Capture} (h : cs.push c = .ok cs') : cs'.length ≤ capacity := by
  unfold push at h
  split at h
  · cases h
    rw [List.length_append, List.length_singleton]
    omega
  · cases h

theorem length_narrowLast {w : Window} (h : cs.narrowLast w = .ok cs') :
    cs'.length = cs.length := by
  unfold narrowLast at h
  split at h
  · cases h
  · rename_i c hlast
    cases hnarrow : c.narrow w with
    | error e =>
      rw [hnarrow] at h
      cases h
    | ok d =>
      rw [hnarrow] at h
      cases h
      obtain ⟨front, rfl⟩ := List.getLast?_eq_some_iff.mp hlast
      rw [List.dropLast_concat, List.length_append, List.length_append, List.length_singleton,
        List.length_singleton]

end Captures

namespace Cursor

variable {args : Calldata} {c d : Cursor}

theorem length_capture_le {bs : Bytes} (h : c.capture bs = .ok d) :
    d.captures.length ≤ Captures.capacity := by
  unfold capture at h
  obtain ⟨captures, hpush, h⟩ := bind_eq_ok.mp h
  cases h
  exact Captures.length_push_le hpush

theorem captures_enter {weight : UInt8} {window : Window}
    (h : c.enter args weight window = .ok d) : d.captures = c.captures := by
  unfold enter at h
  split at h
  · cases h
  · split at h
    · cases h
    · split at h
      · cases h
      · cases h
        rfl

/-- A step has room for what it captures. -/
theorem length_step_le {e : Element} (h : step args c e = .ok d)
    (hc : c.captures.length ≤ Captures.capacity) : d.captures.length ≤ Captures.capacity := by
  cases e with
  | tuple skip =>
    cases h
    exact hc
  | array weight window => rwa [captures_enter h]
  | ref =>
    obtain ⟨w, -, h⟩ := bind_eq_ok.mp h
    cases h
    exact hc
  | slice window =>
    obtain ⟨captures, hnarrow, h⟩ := bind_eq_ok.mp h
    cases h
    rwa [Captures.length_narrowLast hnarrow]
  | leaf kind =>
    cases kind with
    | array | tuple => cases h
    | static =>
      obtain ⟨bs, -, h⟩ := bind_eq_ok.mp h
      exact length_capture_le h
    | dynamic =>
      obtain ⟨w, -, h⟩ := bind_eq_ok.mp h
      obtain ⟨bs, -, h⟩ := bind_eq_ok.mp h
      exact length_capture_le h

theorem length_pass_le {es : List Element} (h : pass args es c = .ok d)
    (hc : c.captures.length ≤ Captures.capacity) : d.captures.length ≤ Captures.capacity :=
  foldlM_keeps (I := fun _ c => c.captures.length ≤ Captures.capacity)
    (fun _ _ _ _ hmid hstep => length_step_le hstep hmid) es hc h

end Cursor

/-- However many passes a path takes, there is room for what they capture. -/
theorem DataPath.length_read_le {p : DataPath} {args : Calldata} {captures : Captures}
    (h : p.read args = .ok captures) : captures.length ≤ Captures.capacity := by
  have hpasses : ∀ counters hvalid prior, prior.length ≤ Captures.capacity →
      passes args p.elements counters hvalid prior = .ok captures →
      captures.length ≤ Captures.capacity := by
    intro counters hvalid prior hprior h
    fun_induction passes args p.elements counters hvalid prior with
    | case1 counters _ prior e hpass => cases h
    | case2 counters _ prior c hpass _ hdone =>
      cases h
      exact Cursor.length_pass_le hpass hprior
    | case3 counters _ prior c hpass _ hmore ih => exact ih (Cursor.length_pass_le hpass hprior) h
  exact hpasses [] Odometer.valid_nil [] (Nat.zero_le _) h

/-- A value stands for no more byte strings than there is room for. -/
theorem Value.length_resolve_le {v : Value} {current : Option Call} {captures : Captures}
    (h : v.resolve current = .ok captures) : captures.length ≤ Captures.capacity := by
  have hone : 1 ≤ Captures.capacity := by decide
  unfold resolve at h
  split at h
  · cases h
    exact hone
  · split at h
    · obtain ⟨bs, -, h⟩ := bind_eq_ok.mp h
      cases h
      exact hone
    · cases h
  · split at h
    · exact DataPath.length_read_le h
    · cases h

end ClearSign
