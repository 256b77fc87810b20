import ClearSign.Proofs.Review.Agreement
import Mathlib.Data.List.DropRight

/-!
The slots as a plain list. Slots keep gaps and are never closed up, but nothing that is done to
them can tell: the live calls and the position of the current one change as a list with a cursor
does. The current call, if there is one, is always live, so no slot is looked up that is not there.
-/

namespace ClearSign

open Refusal

/-- Calls in a row, and the position of the current one. -/
structure Line where
  calls : List Call
  cursor : Option Nat

namespace Line

def empty : Line := ⟨[], none⟩

/-- A call comes last. What it is not given it takes over from the call that was last, or from the
device if it is the first; the cursor stays. -/
def push (registry : Registry) (new : NewCall) (l : Line) : Option Line :=
  (CallStack.origin registry l.calls).map fun from_ =>
    { l with calls := l.calls ++ [new.opened from_] }

/-- The call under the cursor is deleted, and the cursor moves to the one before it, if any. -/
def pop (l : Line) : Option Line :=
  l.cursor.map fun i => ⟨l.calls.eraseIdx i, if i = 0 then none else some (i - 1)⟩

def selectFirst (l : Line) : Option Line :=
  if l.calls.isEmpty then none else some { l with cursor := some 0 }

/-- The cursor moves to the first call that a test finds. -/
def select (p : Call → Bool) (l : Line) : Option Line :=
  (l.calls.findIdx? p).map fun i => { l with cursor := some i }

/-- Changes the call under the cursor. -/
def modify (f : Call → Call) (l : Line) : Option Line :=
  l.cursor.map fun i => { l with calls := l.calls.modify i f }

/-- The call under the cursor gets a descriptor. If it is held to its digest, and no fields are
announced, it is deleted at once. -/
def attach (mode : SigningMode) (info : TransactionInfo) (l : Line) : Option Line := do
  let described ← l.modify (Call.withInfo info)
  if (mode = .typedData ∨ l.cursor ≠ some 0) ∧ info.fieldsHash = Call.fieldsDigest [] then
    described.pop
  else some described

/-- Calls without arguments right before the cursor are deleted. -/
def flushBefore (l : Line) : Line :=
  match l.cursor with
  | none => l
  | some i =>
    let kept := (l.calls.take i).rdropWhile Call.isLeg
    ⟨kept ++ l.calls.drop i, some kept.length⟩

/-- Calls without arguments right after the cursor are deleted. -/
def flushAfter (l : Line) : Line :=
  match l.cursor with
  | none => l
  | some i => ⟨l.calls.take (i + 1) ++ (l.calls.drop (i + 1)).dropWhile Call.isLeg, some i⟩

end Line

namespace CallStack

/-- The live calls in order, and the position of the current one among them. -/
def line (s : CallStack) : Line :=
  ⟨s.live, s.current.map fun slot => (s.placesBefore slot).length⟩

/-- The current call, if there is one, is live. -/
def Placed (s : CallStack) : Prop := ∀ slot, s.current = some slot → ∃ c, s.call? slot = some c

section

variable {s t : CallStack} {before behind : List Call} {c : Call} {registry : Registry}
  {mode : SigningMode}

theorem Placed.cases (h : s.Placed) :
    s.current = none ∨ ∃ before c behind, s.Stands before c behind := by
  cases hslot : s.current with
  | none => exact .inl rfl
  | some slot =>
    obtain ⟨c, hcall⟩ := h slot hslot
    obtain ⟨before, behind, hstands⟩ := stands_of_call? hslot hcall
    exact .inr ⟨before, c, behind, hstands⟩

theorem placed_of_none (h : s.current = none) : s.Placed := by
  intro slot hslot
  rw [h] at hslot
  cases hslot

theorem Stands.placed (h : s.Stands before c behind) : s.Placed := by
  obtain ⟨slot, hslot, hcall⟩ := h.call?
  intro slot' hslot'
  obtain rfl : slot = slot' := Option.some.inj (hslot.symm.trans hslot')
  exact ⟨c, hcall⟩

theorem Placed.current_of_empty (h : s.Placed) (hlive : s.live = []) : s.current = none := by
  cases hslot : s.current with
  | none => rfl
  | some slot =>
    obtain ⟨c, hcall⟩ := h slot hslot
    exact absurd hlive (live_ne_nil hcall)

theorem line_of_none (h : s.current = none) : s.line = ⟨s.live, none⟩ := by
  unfold line
  rw [h]
  rfl

theorem Stands.line (h : s.Stands before c behind) :
    s.line = ⟨before ++ c :: behind, some before.length⟩ := by
  have hlive := h.live
  obtain ⟨ls, rs, hslots, hcurrent, rfl, rfl⟩ := h
  unfold CallStack.line
  rw [hlive, hcurrent, Option.map_some, placesBefore_parts hslots, List.length_reverse,
    length_used]

/-- Where the first of all calls is current, none stands before it. -/
theorem Stands.popped_first (h : s.Stands [] c behind) :
    s.popped.current = none ∧ s.popped.live = behind := by
  obtain ⟨ls, rs, hslots, hcurrent, hbefore, rfl⟩ := h
  have hnone : used ls = [] := by
    rw [← List.length_eq_zero_iff, length_used, hbefore]
    rfl
  unfold CallStack.popped
  simp only [hcurrent]
  refine ⟨?_, ?_⟩
  · show (s.placesBefore ls.length).head? = none
    rw [placesBefore_parts hslots, hnone]
    rfl
  · show (s.slots.set ls.length none).filterMap id = _
    rw [hslots, List.set_append_right _ _ (Nat.le_refl _), Nat.sub_self, List.set_cons_zero,
      List.filterMap_append, hbefore]
    rfl

theorem push_line {settings : Settings} {new : NewCall} {slot : Nat} (hs : s.Placed)
    (h : s.push settings registry new = .ok (slot, t)) :
    s.line.push registry new = some t.line ∧ t.Placed := by
  obtain ⟨from_, horigin, hslots, hcurrent⟩ := push_eq_ok h
  unfold Line.push
  rcases hs.cases with hnone | ⟨before, c, behind, hstands⟩
  · have hstill : t.current = none := by
      rw [hcurrent, hnone, ite_self]
    have hlive : t.live = s.live ++ [new.opened from_] := by
      unfold live at hslots ⊢
      rw [hslots, List.filterMap_append]
      split
      · rename_i hempty
        rw [List.isEmpty_iff.mp hempty]
        rfl
      · rfl
    refine ⟨?_, placed_of_none hstill⟩
    rw [line_of_none hnone, line_of_none hstill, hlive]
    exact congrArg (Option.map _) horigin
  · have hsome : ¬ s.live.isEmpty = true := by simp [hstands.live]
    rw [if_neg hsome] at hslots hcurrent
    have hgrows : Field.Grows [new] s t [new.opened from_] :=
      ⟨hslots, hcurrent, by simp [IsFresh, NewCall.opened], by simp [NewCall.opened]⟩
    have hgrown := hstands.grows hgrows
    refine ⟨?_, hgrown.placed⟩
    rw [hstands.live] at horigin
    rw [hstands.line, hgrown.line, horigin]
    simp

theorem pop_line (hs : s.Placed) (h : s.pop = .ok t) :
    s.line.pop = some t.line ∧ t.Placed := by
  obtain rfl := eq_popped_of_pop h
  rcases hs.cases with hnone | ⟨before, c, behind, hstands⟩
  · unfold pop at h
    rw [hnone] at h
    cases h
  · rw [hstands.line]
    rcases List.eq_nil_or_concat before with rfl | ⟨front, p, rfl⟩
    · obtain ⟨hcurrent, hlive⟩ := hstands.popped_first
      refine ⟨?_, placed_of_none hcurrent⟩
      rw [line_of_none hcurrent, hlive]
      rfl
    · rw [List.concat_eq_append] at hstands ⊢
      have hpopped := hstands.popped
      refine ⟨?_, hpopped.placed⟩
      rw [hpopped.line]
      simp [Line.pop, List.eraseIdx_append_of_length_le]

theorem selectRoot_line (h : s.selectRoot = .ok t) :
    s.line.selectFirst = some t.line ∧ t.Placed := by
  unfold selectRoot at h
  split at h
  · cases h
  · rename_i slot hfirst
    cases h
    obtain ⟨c, behind, hstands⟩ := stands_first hfirst
    refine ⟨?_, hstands.placed⟩
    have hlive : s.live = c :: behind := hstands.live
    rw [hstands.line]
    unfold Line.selectFirst line
    rw [hlive]
    rfl

theorem select_line {cache : Cache} {contract : Address} {selector : Selector} {chain : ChainId}
    (h : s.select cache contract selector chain = .ok t) :
    s.line.select (·.answers cache contract selector chain) = some t.line ∧ t.Placed := by
  obtain ⟨hslots, slot, c, hslot, hcall, hanswers⟩ := select_eq_ok h
  obtain ⟨before, behind, hstands⟩ := stands_of_call? hslot ((call?_congr hslots slot).trans hcall)
  have hskipped : ∀ d ∈ before, d.answers cache contract selector chain = false := by
    intro d hd
    obtain ⟨i, hi, hother⟩ := hstands.call?_before hslot hd
    rw [call?_congr hslots] at hother
    rw [← Bool.not_eq_true]
    intro hd
    exact absurd (le_of_select h hslot hother hd) (Nat.not_le_of_lt hi)
  have hlive : s.live = before ++ c :: behind := by
    rw [← hstands.live]
    unfold live
    rw [hslots]
  refine ⟨?_, hstands.placed⟩
  rw [hstands.line]
  unfold Line.select line
  rw [hlive, List.findIdx?_append, List.findIdx?_eq_none_iff.mpr hskipped, List.findIdx?_cons,
    if_pos hanswers]
  simp

theorem modifyCurrent_line {f : Call → Call} (h : s.modifyCurrent f = .ok t) :
    s.line.modify f = some t.line ∧ t.Placed := by
  obtain ⟨slot, c, hslot, hcall, rfl⟩ := modifyCurrent_eq_ok h
  obtain ⟨before, behind, hstands⟩ := stands_of_call? hslot hcall
  have hmodified := hstands.modifyAt hslot f
  refine ⟨?_, hmodified.placed⟩
  rw [hstands.line, hmodified.line]
  unfold Line.modify
  rw [Option.map_some, modify_middle]

theorem Placed.isHashed_iff (hs : s.Placed) :
    s.isHashed mode = true ↔ mode = .typedData ∨ s.line.cursor ≠ some 0 := by
  have hroot : s.isRoot = true ↔ s.line.cursor = some 0 := by
    rcases hs.cases with hnone | ⟨before, c, behind, hstands⟩
    · rw [line_of_none hnone]
      simp [isRoot, hnone]
    · rw [hstands.line, hstands.isRoot]
      simp
  unfold isHashed
  rw [Bool.or_eq_true, beq_iff_eq, Bool.not_eq_true', ← Bool.not_eq_true, hroot]

theorem attached_line {info : TransactionInfo} (hs : s.Placed)
    (h : s.attached mode info = .ok t) :
    s.line.attach mode info = some t.line ∧ t.Placed := by
  unfold attached at h
  rw [bind_eq_ok] at h
  obtain ⟨described, hmodify, h⟩ := h
  obtain ⟨hline, hplaced⟩ := modifyCurrent_line hmodify
  unfold Line.attach
  simp only [hline, ← hs.isHashed_iff]
  show (if _ then described.line.pop else some described.line) = _ ∧ _
  by_cases hleaves : s.isHashed mode = true ∧ info.fieldsHash = Call.fieldsDigest []
  · rw [if_pos hleaves] at h ⊢
    exact pop_line hplaced h
  · rw [if_neg hleaves] at h ⊢
    obtain rfl := Except.ok.inj h
    exact ⟨rfl, hplaced⟩

theorem flushed_of_none (h : s.current = none) : s.flushedBefore = s ∧ s.flushedAfter = s := by
  unfold flushedBefore flushedAfter emptyBefore emptyAfter emptyRun
  rw [h]
  exact ⟨rfl, rfl⟩

theorem flushedBefore_line (hs : s.Placed) :
    s.line.flushBefore = s.flushedBefore.line ∧ s.flushedBefore.Placed := by
  rcases hs.cases with hnone | ⟨before, c, behind, hstands⟩
  · rw [(flushed_of_none hnone).1, line_of_none hnone]
    exact ⟨rfl, hs⟩
  · have hflushed := hstands.flushedBefore
    refine ⟨?_, hflushed.placed⟩
    rw [hstands.line, hflushed.line]
    simp [Line.flushBefore, List.rdropWhile]

theorem flushedAfter_line (hs : s.Placed) :
    s.line.flushAfter = s.flushedAfter.line ∧ s.flushedAfter.Placed := by
  rcases hs.cases with hnone | ⟨before, c, behind, hstands⟩
  · rw [(flushed_of_none hnone).2, line_of_none hnone]
    exact ⟨rfl, hs⟩
  · have hflushed := hstands.flushedAfter
    refine ⟨?_, hflushed.placed⟩
    rw [hstands.line, hflushed.line]
    simp [Line.flushAfter, List.take_length_add_append, List.drop_length_add_append]

theorem call?_popped_of_ne {slot : Nat} (h : s.current ≠ some slot) :
    s.popped.call? slot = s.call? slot := by
  cases hcurrent : s.current with
  | none =>
    unfold CallStack.popped
    rw [hcurrent]
  | some current =>
    rw [call?_popped hcurrent, if_neg]
    rintro rfl
    exact h hcurrent

theorem modifyCurrent_of_ne {f : Call → Call} {slot : Nat} (h : s.modifyCurrent f = .ok t)
    (hother : s.current ≠ some slot) : t.current = s.current ∧ t.call? slot = s.call? slot := by
  obtain ⟨current, c, hcurrent, -, rfl⟩ := modifyCurrent_eq_ok h
  refine ⟨rfl, ?_⟩
  rw [call?_modifyAt, if_neg]
  rintro rfl
  exact hother hcurrent

theorem call?_attached_of_ne {info : TransactionInfo} {slot : Nat}
    (h : s.attached mode info = .ok t) (hother : s.current ≠ some slot) :
    t.call? slot = s.call? slot := by
  unfold attached at h
  rw [bind_eq_ok] at h
  obtain ⟨described, hmodify, h⟩ := h
  obtain ⟨hcurrent, hcall⟩ := modifyCurrent_of_ne hmodify hother
  split at h
  · rw [eq_popped_of_pop h, call?_popped_of_ne (hcurrent ▸ hother), hcall]
  · obtain rfl := Except.ok.inj h
    exact hcall

end

end CallStack

namespace Review

open ClearSign.Action

/-- What can be done to the calls of a review. -/
inductive Change
  | push (host : Host) (new : NewCall)
  | pop
  | selectRoot
  | select (cache : Cache) (contract : Address) (selector : Selector) (chain : ChainId)
  | attach (host : Host) (info : TransactionInfo)
  | absorb (field : Bytes)
  | flushBefore (host : Host)
  | flushAfter (host : Host)
  | clear

namespace Change

def act : Change → Action Review Unit
  | push host new => do let _ ← openCall host new
  | pop => onCalls CallStack.pop
  | selectRoot => onCalls CallStack.selectRoot
  | select cache contract selector chain =>
    onCalls (CallStack.select cache contract selector chain)
  | attach host info => Review.attach host info
  | absorb field => onCalls (CallStack.absorb field)
  | flushBefore host => Review.flushBefore host
  | flushAfter host => Review.flushAfter host
  | clear => modify Review.resetCalls

/-- What a change is to calls in a row. -/
def onLine (l : Line) : Change → Option Line
  | push host new => l.push host.registry new
  | pop => l.pop
  | selectRoot => l.selectFirst
  | select cache contract selector chain => l.select (·.answers cache contract selector chain)
  | attach host info => l.attach host.settings.mode info
  | absorb field => l.modify (Call.withField field)
  | flushBefore _ => some l.flushBefore
  | flushAfter _ => some l.flushAfter
  | clear => some .empty

/-- The slots that a change looks up, marks or gives up. -/
def visits (s : CallStack) : Change → List Nat
  | push _ _ => s.places.getLast?.toList
  | pop => s.current.toList ++ s.current.toList.flatMap s.placesBefore
  | selectRoot => s.places.head?.toList
  | select _ _ _ _ => s.places
  | attach _ _ =>
    s.places.head?.toList ++ s.current.toList ++ s.current.toList.flatMap s.placesBefore
  | absorb _ => s.current.toList
  | flushBefore _ =>
    s.places.head?.toList ++ s.current.toList ++ s.current.toList.flatMap s.placesBefore
  | flushAfter _ =>
    s.places.head?.toList ++ s.current.toList ++ s.current.toList.flatMap s.placesAfter
  | clear => s.places

variable {s : CallStack} {table : Table} {r : Review}

theorem push_answers {host : Host} {new : NewCall}
    (h : (push host new).act.exec ⟨s, table⟩ = (.ok (), r)) :
    ∃ slot t, s.push host.settings host.registry new = .ok (slot, t) ∧ ⟨t, table⟩ = r := by
  simp only [act, bind_answers] at h
  obtain ⟨slot, mid, hopen, h⟩ := h
  cases h
  exact ⟨slot, openCall_answers hopen⟩

theorem act_line (change : Change) (hs : s.Placed)
    (h : change.act.exec ⟨s, table⟩ = (.ok (), r)) :
    change.onLine s.line = some r.calls.line ∧ r.calls.Placed := by
  cases change with
  | push host new =>
    obtain ⟨slot, t, hpush, rfl⟩ := push_answers h
    exact CallStack.push_line hs hpush
  | pop =>
    obtain ⟨t, hpop, rfl⟩ := onCalls_answers.mp h
    exact CallStack.pop_line hs hpop
  | selectRoot =>
    obtain ⟨t, hselect, rfl⟩ := onCalls_answers.mp h
    exact CallStack.selectRoot_line hselect
  | select cache contract selector chain =>
    obtain ⟨t, hselect, rfl⟩ := onCalls_answers.mp h
    exact CallStack.select_line hselect
  | attach host info =>
    obtain ⟨hattached, -⟩ := attach_answers h
    exact CallStack.attached_line hs hattached
  | absorb field =>
    obtain ⟨t, habsorb, rfl⟩ := onCalls_answers.mp h
    exact CallStack.modifyCurrent_line habsorb
  | flushBefore host =>
    obtain ⟨hline, hplaced⟩ := CallStack.flushedBefore_line hs
    rw [flushBefore_calls h]
    exact ⟨congrArg some hline, hplaced⟩
  | flushAfter host =>
    obtain ⟨hline, hplaced⟩ := CallStack.flushedAfter_line hs
    rw [flushAfter_calls h]
    exact ⟨congrArg some hline, hplaced⟩
  | clear =>
    cases h
    exact ⟨rfl, CallStack.placed_of_none rfl⟩

theorem lt_of_visits (hs : s.Placed) (change : Change) {slot : Nat}
    (h : slot ∈ change.visits s) : slot < s.slots.length := by
  have hplace : ∀ i ∈ s.places, i < s.slots.length := by
    intro i hi
    obtain ⟨c, hcall⟩ := CallStack.mem_places.mp hi
    exact CallStack.lt_length hcall
  have hcurrent : ∀ i ∈ s.current.toList, i < s.slots.length := by
    intro i hi
    obtain ⟨c, hcall⟩ := hs i (Option.mem_toList.mp hi)
    exact CallStack.lt_length hcall
  have hfirst : ∀ i ∈ s.places.head?.toList, i < s.slots.length := by
    intro i hi
    exact hplace i (List.mem_of_mem_head? (Option.mem_toList.mp hi))
  have hbefore : ∀ i ∈ s.current.toList.flatMap s.placesBefore, i < s.slots.length := by
    intro i hi
    obtain ⟨mark, -, hi⟩ := List.mem_flatMap.mp hi
    exact hplace i (List.mem_of_mem_filter (List.mem_reverse.mp hi))
  have hbehind : ∀ i ∈ s.current.toList.flatMap s.placesAfter, i < s.slots.length := by
    intro i hi
    obtain ⟨mark, -, hi⟩ := List.mem_flatMap.mp hi
    exact hplace i (List.mem_of_mem_filter hi)
  cases change with
  | push host new => exact hplace slot (List.mem_of_getLast? (Option.mem_toList.mp h))
  | pop => exact (List.mem_append.mp h).elim (hcurrent slot) (hbefore slot)
  | selectRoot => exact hfirst slot h
  | select cache contract selector chain => exact hplace slot h
  | absorb field => exact hcurrent slot h
  | attach host info | flushBefore host =>
    rcases List.mem_append.mp h with h | h
    · exact (List.mem_append.mp h).elim (hfirst slot) (hcurrent slot)
    · exact hbefore slot h
  | flushAfter host =>
    rcases List.mem_append.mp h with h | h
    · exact (List.mem_append.mp h).elim (hfirst slot) (hcurrent slot)
    · exact hbehind slot h
  | clear => exact hplace slot h

/-- A call in a slot that a change does not visit stays as it is. -/
theorem call?_of_not_visited {slot : Nat} {c : Call} (change : Change)
    (h : change.act.exec ⟨s, table⟩ = (.ok (), r)) (hcall : s.call? slot = some c)
    (hslot : slot ∉ change.visits s) : r.calls.call? slot = some c := by
  have hother (hvisits : s.current.toList ⊆ change.visits s) : s.current ≠ some slot := by
    intro hcurrent
    exact hslot (hvisits (Option.mem_toList.mpr hcurrent))
  cases change with
  | push host new =>
    obtain ⟨opened, t, hpush, rfl⟩ := push_answers h
    obtain ⟨from_, -, hslots, -⟩ := CallStack.push_eq_ok hpush
    rw [if_neg (by simpa using CallStack.live_ne_nil hcall)] at hslots
    show t.call? slot = some c
    unfold CallStack.call?
    rw [hslots, List.getElem?_append_left (CallStack.lt_length hcall)]
    exact hcall
  | pop =>
    obtain ⟨t, hpop, rfl⟩ := onCalls_answers.mp h
    obtain rfl := CallStack.eq_popped_of_pop hpop
    exact (CallStack.call?_popped_of_ne (hother (by simp [visits]))).trans hcall
  | selectRoot =>
    obtain ⟨t, hselect, rfl⟩ := onCalls_answers.mp h
    unfold CallStack.selectRoot at hselect
    split at hselect
    · cases hselect
    · cases hselect
      exact hcall
  | select cache contract selector chain =>
    obtain ⟨t, hselect, rfl⟩ := onCalls_answers.mp h
    exact (CallStack.call?_congr (CallStack.select_eq_ok hselect).1 slot).trans hcall
  | attach host info =>
    obtain ⟨hattached, -⟩ := attach_answers h
    exact (CallStack.call?_attached_of_ne hattached (hother (by simp [visits]))).trans hcall
  | absorb field =>
    obtain ⟨t, habsorb, rfl⟩ := onCalls_answers.mp h
    exact (CallStack.modifyCurrent_of_ne habsorb (hother (by simp [visits]))).2.trans hcall
  | flushBefore host =>
    rw [flushBefore_calls h]
    refine (CallStack.call?_leaveAll_of_notMem ?_).trans hcall
    intro hmem
    exact hslot (List.mem_append_right _ (CallStack.emptyRun_subset _ hmem))
  | flushAfter host =>
    rw [flushAfter_calls h]
    refine (CallStack.call?_leaveAll_of_notMem ?_).trans hcall
    intro hmem
    exact hslot (List.mem_append_right _ (CallStack.emptyRun_subset _ hmem))
  | clear => exact absurd (CallStack.mem_places.mpr ⟨c, hcall⟩) hslot

/-- A change cannot tell which calls are in slots that it does not visit, besides that there are
some. -/
theorem actsAlike_act {t : CallStack} {known : Nat → Prop} (change : Change) (hs : s.Placed)
    (hknown : ∀ slot ∈ change.visits s, known slot) (halike : s.Alike known t) :
    ActsAlike known change.act ⟨s, table⟩ ⟨t, table⟩ := by
  have h : Review.Alike known ⟨s, table⟩ ⟨t, table⟩ := ⟨halike, rfl⟩
  have hplaced : ∀ slot ∈ s.current, slot ∈ s.places := by
    intro slot hslot
    exact CallStack.mem_places.mpr (hs slot hslot)
  have hfound {found : Option Nat} (hvisits : found.toList ⊆ change.visits s) :
      ∀ slot ∈ found, known slot := by
    intro slot hslot
    exact hknown slot (hvisits (Option.mem_toList.mpr hslot))
  have haround {around : Nat → List Nat}
      (hvisits : s.current.toList.flatMap around ⊆ change.visits s) :
      ∀ slot ∈ s.current, ∀ i ∈ around slot, known i := by
    intro slot hslot i hi
    exact hknown i (hvisits (List.mem_flatMap.mpr ⟨slot, Option.mem_toList.mpr hslot, hi⟩))
  cases change with
  | push host new => exact actsAlike_openCall h (hfound (by simp [visits])) new
  | pop => exact actsAlike_onCalls h halike.pop
  | selectRoot => exact actsAlike_onCalls h halike.selectRoot
  | select cache contract selector chain =>
    exact actsAlike_onCalls h (halike.select hknown cache contract selector chain)
  | attach host info => exact actsAlike_attach h (hfound (by simp [visits])) info
  | absorb field => exact actsAlike_onCalls h (halike.modifyCurrent _)
  | flushBefore host =>
    exact actsAlike_flushBefore h hplaced (hfound (by simp [visits])) (haround (by simp [visits]))
  | flushAfter host =>
    exact actsAlike_flushAfter h hplaced (hfound (by simp [visits])) (hfound (by simp [visits]))
      (haround (by simp [visits]))
  | clear => exact ⟨rfl, ⟨rfl, rfl, rfl, rfl, fun _ _ => rfl⟩, rfl⟩

end Change

/-- The calls that changes, each of which succeeds, come to from none, whatever rows are there. -/
inductive Reached : List Change → CallStack → Prop
  | none : Reached [] CallStack.empty
  | next {changes : List Change} {s : CallStack} {change : Change} {table : Table} {r : Review} :
    Reached changes s → change.act.exec ⟨s, table⟩ = (.ok (), r) →
      Reached (changes ++ [change]) r.calls

/-- A review that goes through changes one after the other. -/
theorem Reached.forM {done changes : List Change} {r r' : Review} (hr : Reached done r.calls)
    (h : (changes.forM Change.act).exec r = (.ok (), r')) :
    Reached (done ++ changes) r'.calls := by
  induction changes generalizing done r with
  | nil =>
    cases h
    rwa [List.append_nil]
  | cons change changes ih =>
    rw [forM_cons_answers] at h
    obtain ⟨mid, hchange, hrest⟩ := h
    have hall := ih (hr.next hchange) hrest
    rwa [List.append_assoc, List.singleton_append] at hall

theorem Reached.placed_line {changes : List Change} {s : CallStack} (h : Reached changes s) :
    changes.foldlM Change.onLine Line.empty = some s.line ∧ s.Placed := by
  induction h with
  | none => exact ⟨rfl, CallStack.placed_of_none rfl⟩
  | next _ hchange ih =>
    obtain ⟨hline, hplaced⟩ := ih
    obtain ⟨hnext, hplaced⟩ := Change.act_line _ hplaced hchange
    refine ⟨?_, hplaced⟩
    rw [List.foldlM_append, hline]
    simpa using hnext

/-- The slots after some changes are those of a list with a cursor that went through them. -/
structure InLine (changes : List Change) (s : CallStack) : Prop where
  /-- The live calls and the position of the current one are the list and its cursor. -/
  line : changes.foldlM Change.onLine Line.empty = some s.line
  current_live : ∀ slot, s.current = some slot → ∃ c, s.call? slot = some c
  current_none : s.live = [] → s.current = none
  /-- Only calls other than the current one leave by flushing. -/
  flush_current : ∀ host table r, (flushBefore host).exec ⟨s, table⟩ = (.ok (), r) ∨
    (flushAfter host).exec ⟨s, table⟩ = (.ok (), r) → r.calls.currentCall = s.currentCall
  visits_lt : ∀ (change : Change), ∀ slot ∈ change.visits s, slot < s.slots.length
  /-- A change touches no call in a slot that it does not visit. -/
  visits_only : ∀ (change : Change) table r slot c,
    change.act.exec ⟨s, table⟩ = (.ok (), r) → s.call? slot = some c → slot ∉ change.visits s →
      r.calls.call? slot = some c
  /-- A change looks at no call in a slot that it does not visit: calls in the slots that it visits
  decide what it answers and shows, and what it leaves in them. -/
  visits_all : ∀ (change : Change) (known : Nat → Prop) table t,
    (∀ slot ∈ change.visits s, known slot) → s.Alike known t →
      ActsAlike known change.act ⟨s, table⟩ ⟨t, table⟩

/-- Whatever changes the slots go through with success, they cannot be told from a list with a
cursor, and no slot is looked at or touched that is not there. -/
theorem reached_inLine {changes : List Change} {s : CallStack} (h : Reached changes s) :
    InLine changes s := by
  obtain ⟨hline, hplaced⟩ := h.placed_line
  refine ⟨hline, hplaced, hplaced.current_of_empty, ?_, ?_, ?_, ?_⟩
  · rintro host table r (hflush | hflush)
    · rw [flushBefore_calls hflush]
      exact CallStack.currentCall_flushedBefore s
    · rw [flushAfter_calls hflush]
      exact CallStack.currentCall_flushedAfter s
  · intro change slot hslot
    exact Change.lt_of_visits hplaced change hslot
  · intro change table r slot c hexec hcall hslot
    exact Change.call?_of_not_visited change hexec hcall hslot
  · intro change known table t hknown halike
    exact Change.actsAlike_act change hplaced hknown halike

/-- A device on which every address has a name. -/
def sampleHost : Host where
  registry := ⟨.ok (Fixed.zero 20), fun _ => 0, fun _ _ => none, fun _ _ => none,
    fun _ _ chain address => some ⟨chain, address, "name", .account, .ens⟩, fun _ => none,
    fun _ => none⟩
  settings := Settings.default

/-- A call, one without arguments, and a third; the second leaves, so that the third is current in
the third slot but second in line. -/
theorem reached_inLine_gap :
    let data := Calldata.empty 0 (Fixed.align 4 [1, 2, 3, 4])
    let leg : NewCall := ⟨none, none, none, none, none⟩
    let call : NewCall := ⟨some data, none, none, none, some 7⟩
    let changes : List Change :=
      [.push sampleHost { leg with calldata := some data }, .selectRoot, .push sampleHost leg,
        .push sampleHost call, .absorb [1], .flushAfter sampleHost,
        .select .empty (Fixed.zero 20) data.selector 7]
    ∃ s, Reached changes s ∧ InLine changes s ∧ s.current = some 2 ∧ s.line.cursor = some 1 := by
  intro data leg call changes
  have hrun : ((changes.forM Change.act).exec Review.empty).1 = .ok () ∧
      ((changes.forM Change.act).exec Review.empty).2.calls.current = some 2 ∧
      ((changes.forM Change.act).exec Review.empty).2.calls.line.cursor = some 1 := by
    decide +kernel
  generalize hexec : (changes.forM Change.act).exec Review.empty = outcome at hrun
  obtain ⟨result, r⟩ := outcome
  obtain ⟨rfl, hcurrent, hcursor⟩ := hrun
  have hreached : Reached ([] ++ changes) r.calls :=
    Reached.forM (r := Review.empty) .none hexec
  exact ⟨r.calls, hreached, reached_inLine hreached, hcurrent, hcursor⟩

end Review

end ClearSign
