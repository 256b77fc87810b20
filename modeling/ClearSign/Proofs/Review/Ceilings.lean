import ClearSign.Field.Format
import ClearSign.Proofs.Review.Departure

/-!
The ceilings of a review. No step opens a call or shows a row beyond them, whether it is refused
or not; calls that leave make room again, gaps between slots take none.
-/

namespace ClearSign

open Refusal ClearSign.Action

namespace CallStack

variable {s t : CallStack}

theorem count_congr (h : t.slots = s.slots) : t.count = s.count := by
  unfold count live
  rw [h]

theorem count_modifyAt (s : CallStack) (slot : Nat) (f : Call → Call) :
    (s.modifyAt slot f).count = s.count := by
  have hlive := congrArg List.length (live_modifyAt s slot f (fun _ => ()) fun _ => rfl)
  rwa [List.length_map, List.length_map] at hlive

theorem count_leave_le (s : CallStack) (slot : Nat) : (s.leave slot).count ≤ s.count := by
  have hset : ∀ (slots : List (Option Call)) (slot : Nat),
      ((slots.set slot none).filterMap id).length ≤ (slots.filterMap id).length := by
    intro slots
    induction slots with
    | nil => intro slot; simp
    | cons o slots ih =>
      intro slot
      cases slot with
      | zero => cases o <;> simp
      | succ slot =>
        cases o with
        | none => exact ih slot
        | some c => exact Nat.succ_le_succ (ih slot)
  exact hset s.slots slot

theorem count_modifyCurrent {f : Call → Call} (h : s.modifyCurrent f = .ok t) :
    t.count = s.count := by
  obtain ⟨slot, c, -, -, rfl⟩ := modifyCurrent_eq_ok h
  exact count_modifyAt s slot f

theorem count_selectRoot (h : s.selectRoot = .ok t) : t.count = s.count := by
  unfold selectRoot at h
  split at h
  · cases h
  · cases h
    exact count_congr rfl

theorem count_appendRoot {bs : Bytes} (h : s.appendRoot bs = .ok t) : t.count = s.count := by
  unfold appendRoot at h
  split at h
  · obtain ⟨data, -, h⟩ := bind_eq_ok.mp h
    cases h
    exact count_modifyAt s _ _
  · cases h

theorem count_pop_le (h : s.pop = .ok t) : t.count ≤ s.count := by
  unfold pop at h
  split at h
  · cases h
  · rename_i slot _
    cases h
    exact count_leave_le s slot

/-- A call is opened only below the ceiling. -/
theorem count_push_le {settings : Settings} {registry : Registry} {new : NewCall} {slot : Nat}
    (h : s.push settings registry new = .ok (slot, t)) : t.count ≤ settings.maxCalls := by
  have hroom : s.count < settings.maxCalls := by
    apply Nat.lt_of_not_le
    intro hfull
    unfold push at h
    simp only [if_pos hfull, bind_eq_ok, throw_ne_ok, false_and, exists_false] at h
  obtain ⟨c, -, -, hslots, -⟩ := push_answers h
  have hcount : t.count ≤ s.count + 1 := by
    unfold count live
    rw [hslots, List.filterMap_append, List.length_append]
    split <;> simp
  omega

end CallStack

namespace Review

/-- No more calls are live and no more rows are shown than the settings allow. -/
structure Within (settings : Settings) (r : Review) : Prop where
  calls : r.calls.count ≤ settings.maxCalls
  rows : r.table.length ≤ settings.maxRows

variable {host : Host}

theorem within_onCalls {f : CallStack → Except Error CallStack}
    (hf : ∀ s t, f s = .ok t → t.count ≤ s.count) :
    Preserves (Within host.settings) (onCalls f) := by
  refine .update fun r r' hr h => ?_
  obtain ⟨s, hs, h⟩ := bind_eq_ok.mp h
  cases h
  exact ⟨Nat.le_trans (hf _ _ hs) hr.calls, hr.rows⟩

/-- A row is shown only below the ceiling. -/
theorem within_addRow (kind : RowKind) (key value : String) (extra : Option Extra) :
    Preserves (Within host.settings) (addRow host kind key value extra) := by
  refine .update fun r r' hr h => ?_
  obtain ⟨table, hadd, h⟩ := bind_eq_ok.mp h
  cases h
  refine ⟨hr.calls, ?_⟩
  unfold Table.add at hadd
  split at hadd
  · cases hadd
    rw [List.length_append, List.length_singleton]
    omega
  · cases hadd

theorem within_addIntent (operation : String) :
    Preserves (Within host.settings) (addIntent host operation) :=
  .get_bind fun _ _ => within_addRow _ _ _ _

theorem within_addDestination (c : Call) :
    Preserves (Within host.settings) (addDestination host c) := by
  unfold addDestination
  split
  · exact within_addRow _ _ _ _
  · exact within_addRow _ _ _ _

theorem within_openCall (new : NewCall) :
    Preserves (Within host.settings) (openCall host new) := by
  intro r hr
  rcases hopen : (openCall host new).exec r with ⟨e | slot, r'⟩
  · rw [openCall_refused hopen]
    exact hr
  · obtain ⟨calls, hpush, rfl⟩ := openCall_answers hopen
    exact ⟨CallStack.count_push_le hpush, hr.rows⟩

theorem within_describe (slot : Nat) : Preserves (Within host.settings) (describe host slot) := by
  refine .get_bind fun r hr => ?_
  split
  · rename_i c _
    refine .bind (.set ⟨?_, hr.rows⟩) fun _ => ?_
    · exact Nat.le_trans (CallStack.count_leave_le r.calls slot) hr.calls
    · split
      · exact .get_bind fun _ _ => .bind (.ofExcept _) fun _ => .bind (within_addIntent _) fun _ =>
          .bind (within_addRow _ _ _ _) fun _ => within_addDestination _
      · exact .bind (within_addIntent _) fun _ => within_addDestination _
  · exact .throw _

theorem within_flushBefore : Preserves (Within host.settings) (flushBefore host) :=
  .get_bind fun _ _ => .forM within_describe _

theorem within_flushAfter : Preserves (Within host.settings) (flushAfter host) :=
  .get_bind fun _ _ => .forM within_describe _

theorem within_pop : Preserves (Within host.settings) (onCalls CallStack.pop) :=
  within_onCalls fun _ _ => CallStack.count_pop_le

theorem within_settleFor (rounds : Nat) :
    Preserves (Within host.settings) (settleFor host rounds) := by
  induction rounds with
  | zero => exact .pure ()
  | succ rounds ih =>
    refine .get_bind fun r _ => ?_
    split
    · exact .bind within_flushAfter fun _ => .bind within_pop fun _ => ih
    · exact .pure ()

theorem within_settle : Preserves (Within host.settings) (settle host) :=
  .get_bind fun _ _ => within_settleFor _

theorem within_attach (info : TransactionInfo) :
    Preserves (Within host.settings) (attach host info) := by
  refine .get_bind fun r _ => .bind (within_onCalls fun _ _ h => ?_) fun _ => ?_
  · exact Nat.le_of_eq (CallStack.count_modifyCurrent h)
  · split
    · refine .bind (within_addIntent _) fun _ => ?_
      split
      · exact within_pop
      · exact .pure ()
    · exact .pure ()

end Review

namespace Field

open Review

variable {host : Host}

theorem within_addCell (key : String) (cell : Except Error (Option Cell)) :
    Preserves (Within host.settings) (addCell host key cell) := by
  refine .bind (.ofExcept _) fun shown => ?_
  cases shown with
  | none => exact .pure ()
  | some c => exact within_addRow _ _ _ _

/-- A batch stops at the first call that there is no room for. -/
theorem within_openCalls (calls : List (Except Error NewCall)) :
    Preserves (Within host.settings) (openCalls host calls) := by
  refine .bind (within_onCalls fun s t h => ?_) fun _ => .forM (fun call => ?_) calls
  · cases h
    exact Nat.le_of_eq (CallStack.count_congr rfl)
  · exact .bind (.ofExcept _) fun _ => .bind (within_openCall _) fun _ => .pure ()

theorem within_format (cache : Cache) (field : Field) :
    Preserves (Within host.settings) (field.format host cache) := by
  refine .get_bind fun r _ => ?_
  split
  · exact .bind (.ofExcept _) fun _ => within_openCalls _
  · exact .bind (.ofExcept _) fun _ => .forM (within_addCell _) _

end Field

end ClearSign
