import ClearSign.Proofs.Review.Line
import Mathlib.Data.List.Forall2
import Mathlib.Data.List.Nodup

/-!
What flushing leaves, in full. The calls without arguments that stand next to the current one on
one side are described and gone, the nearest first, up to the first call with arguments; nothing
else has changed.
-/

namespace ClearSign

open Refusal

/-- The texts of a row. -/
def Row.texts (row : Row) : String × String := (row.key, row.value)

theorem Row.Shows.texts {key value : String} {row : Row} (h : row.Shows key value) :
    row.texts = (key, value) := Prod.ext h.key h.value

theorem Call.isLeg_iff {c : Call} : c.isLeg = true ↔ c.calldata = none := Option.isNone_iff_eq_none

namespace CallStack

variable {s : CallStack} {before behind : List Call} {c : Call}

theorem stands_of_currentCall (h : s.currentCall = some c) :
    ∃ before behind, s.Stands before c behind := by
  obtain ⟨slot, hslot, hcall⟩ := Option.bind_eq_some_iff.mp h
  exact stands_of_call? hslot hcall

theorem filterMap_call?_left {ls rs : List (Option Call)} (hslots : s.slots = ls ++ rs) :
    (used ls).filterMap s.call? = ls.filterMap id := by
  have hlive : (⟨ls, none, 0, 0⟩ : CallStack).live = _ := live_eq_places _
  rw [show ls.filterMap id = _ from hlive]
  apply List.filterMap_congr
  intro i hi
  unfold call?
  rw [hslots, List.getElem?_append_left (lt_of_mem_used hi)]

theorem Stands.callsBefore (h : s.Stands before c behind) {slot : Nat}
    (hslot : s.current = some slot) : (s.placesBefore slot).filterMap s.call? = before.reverse := by
  obtain ⟨ls, rs, hslots, hcurrent, rfl, -⟩ := h
  obtain rfl : slot = ls.length := Option.some.inj (hslot.symm.trans hcurrent)
  rw [placesBefore_parts hslots, List.filterMap_reverse, filterMap_call?_left hslots]

theorem Stands.callsAfter (h : s.Stands before c behind) {slot : Nat}
    (hslot : s.current = some slot) : (s.placesAfter slot).filterMap s.call? = behind := by
  obtain ⟨ls, rs, hslots, hcurrent, -, rfl⟩ := h
  obtain rfl : slot = ls.length := Option.some.inj (hslot.symm.trans hcurrent)
  have hlive : (⟨rs, none, 0, 0⟩ : CallStack).live = _ := live_eq_places _
  rw [placesAfter_parts hslots, List.filterMap_map, show rs.filterMap id = _ from hlive]
  apply List.filterMap_congr
  intro i _
  show s.slots[i + (ls.length + 1)]?.join = rs[i]?.join
  rw [hslots, List.getElem?_append_right (by omega),
    show i + (ls.length + 1) - ls.length = i + 1 by omega, List.getElem?_cons_succ]

/-- The calls next to the current one that are flushed are the first without arguments. -/
theorem filterMap_takeWhile_call? {is : List Nat} (h : ∀ i ∈ is, i ∈ s.places) :
    (is.takeWhile fun i => !(s.call? i).any (·.calldata.isSome)).filterMap s.call? =
      (is.filterMap s.call?).takeWhile Call.isLeg := by
  induction is with
  | nil => rfl
  | cons i is ih =>
    obtain ⟨d, hd⟩ := mem_places.mp (h i List.mem_cons_self)
    have hleg : (!(s.call? i).any (·.calldata.isSome)) = d.isLeg := by
      rw [hd]
      cases hdata : d.calldata <;> simp [Call.isLeg, hdata]
    rw [List.takeWhile_cons, hleg, List.filterMap_cons_some hd, List.takeWhile_cons]
    by_cases hd' : d.isLeg = true
    · rw [if_pos hd', if_pos hd', List.filterMap_cons_some hd,
        ih fun j hj => h j (List.mem_cons_of_mem _ hj)]
    · rw [if_neg hd', if_neg hd']
      rfl

theorem Stands.legsBefore (h : s.Stands before c behind) :
    s.emptyBefore.filterMap s.call? = before.reverse.takeWhile Call.isLeg := by
  obtain ⟨slot, hslot, -⟩ := h.call?
  unfold emptyBefore emptyRun
  simp only [hslot]
  rw [filterMap_takeWhile_call?, h.callsBefore hslot]
  intro i hi
  exact List.mem_of_mem_filter (List.mem_reverse.mp hi)

theorem Stands.legsAfter (h : s.Stands before c behind) :
    s.emptyAfter.filterMap s.call? = behind.takeWhile Call.isLeg := by
  obtain ⟨slot, hslot, -⟩ := h.call?
  unfold emptyAfter emptyRun
  simp only [hslot]
  rw [filterMap_takeWhile_call?, h.callsAfter hslot]
  intro i hi
  exact List.mem_of_mem_filter hi

theorem emptyBefore_sublist (s : CallStack) : s.emptyBefore.Sublist s.places.reverse := by
  unfold emptyBefore emptyRun placesBefore
  split
  · exact List.nil_sublist _
  · exact (List.takeWhile_sublist _).trans List.filter_sublist.reverse

theorem emptyAfter_sublist (s : CallStack) : s.emptyAfter.Sublist s.places := by
  unfold emptyAfter emptyRun placesAfter
  split
  · exact List.nil_sublist _
  · exact (List.takeWhile_sublist _).trans List.filter_sublist

theorem places_leave (s : CallStack) (i : Nat) :
    (s.leave i).places = s.places.filter (· ≠ i) := by
  have hlength : (s.leave i).slots.length = s.slots.length := List.length_set
  unfold places
  rw [hlength, List.filter_filter]
  apply List.filter_congr
  intro j _
  rw [call?_leave]
  by_cases hj : j = i <;> simp [hj]

/-- From the nearest slot before a slot on, the slots before it are the others. -/
theorem placesBefore_next {slot i : Nat} {rest : List Nat} (h : s.placesBefore slot = i :: rest) :
    (s.leave i).placesBefore i = rest ∧ i ∉ rest := by
  have hbefore : s.places.filter (· < slot) = rest.reverse ++ [i] := by
    rw [← List.reverse_cons, ← h]
    exact (List.reverse_reverse _).symm
  have hsorted := s.places_sorted.filter (· < slot)
  rw [hbefore, List.pairwise_append] at hsorted
  obtain ⟨-, -, hless⟩ := hsorted
  have hi : i < slot := by
    have hmem : i ∈ s.places.filter (· < slot) := by simp [hbefore]
    simpa using (List.mem_filter.mp hmem).2
  have hless (j : Nat) (hj : j ∈ rest) : j < i := hless j (List.mem_reverse.mpr hj) i (by simp)
  have hother : s.places.filter (fun j => decide (j < i) && decide (j ≠ i)) =
      (s.places.filter (· < slot)).filter (· < i) := by
    rw [List.filter_filter]
    apply List.filter_congr
    intro j _
    rw [Bool.eq_iff_iff]
    simp only [Bool.and_eq_true, decide_eq_true_eq]
    omega
  refine ⟨?_, fun hmem => Nat.lt_irrefl i (hless i hmem)⟩
  unfold placesBefore
  rw [places_leave, List.filter_filter, hother, hbefore, List.filter_append,
    List.filter_eq_self.mpr fun j hj => decide_eq_true (hless j (List.mem_reverse.mp hj))]
  simp

/-- From the nearest slot after a slot on, the slots after it are the others. -/
theorem placesAfter_next {slot i : Nat} {rest : List Nat} (h : s.placesAfter slot = i :: rest) :
    (s.leave i).placesAfter i = rest ∧ i ∉ rest := by
  have hafter : s.places.filter (slot < ·) = i :: rest := h
  have hsorted := s.places_sorted.filter (slot < ·)
  rw [hafter, List.pairwise_cons] at hsorted
  obtain ⟨hmore, -⟩ := hsorted
  have hi : slot < i := by
    have hmem : i ∈ s.places.filter (slot < ·) := by simp [hafter]
    simpa using (List.mem_filter.mp hmem).2
  have hother : s.places.filter (fun j => decide (i < j) && decide (j ≠ i)) =
      (s.places.filter (slot < ·)).filter (i < ·) := by
    rw [List.filter_filter]
    apply List.filter_congr
    intro j _
    rw [Bool.eq_iff_iff]
    simp only [Bool.and_eq_true, decide_eq_true_eq]
    omega
  refine ⟨?_, fun hmem => Nat.lt_irrefl i (hmore i hmem)⟩
  unfold placesAfter
  rw [places_leave, List.filter_filter, hother, hafter, List.filter_cons_of_neg (by simp),
    List.filter_eq_self.mpr fun j hj => decide_eq_true (hmore j hj)]

theorem nodup_places (s : CallStack) : s.places.Nodup :=
  List.Nodup.sublist List.filter_sublist List.nodup_range

/-- Where no call is left to look at, no slot is either. -/
theorem eq_nil_of_filterMap {is : List Nat} (h : ∀ i ∈ is, i ∈ s.places)
    (hnone : is.filterMap s.call? = []) : is = [] := by
  rcases List.eq_nil_or_concat is with rfl | ⟨front, i, rfl⟩
  · rfl
  · obtain ⟨d, hd⟩ := mem_places.mp (h i (by simp))
    simp [hd] at hnone

theorem calldata_of_mem_takeWhile {calls : List Call} {leg : Call}
    (h : leg ∈ calls.takeWhile Call.isLeg) : leg.calldata = none :=
  Call.isLeg_iff.mp (List.all_eq_true.mp List.all_takeWhile leg h)

theorem calldata_of_head?_dropWhile {calls : List Call} {d : Call}
    (h : (calls.dropWhile Call.isLeg).head? = some d) : d.calldata ≠ none := by
  have hstop : d.isLeg = false := by simpa [h] using List.head?_dropWhile_not Call.isLeg calls
  intro hdata
  rw [Call.isLeg_iff.mpr hdata] at hstop
  cases hstop

/-- No calls are flushed where the nearest has arguments. -/
theorem takeWhile_eq_nil {calls : List Call} (h : ∀ d, calls.head? = some d → d.calldata ≠ none) :
    calls.takeWhile Call.isLeg = [] := by
  cases calls with
  | nil => rfl
  | cons d calls => exact List.takeWhile_cons_of_neg (mt Call.isLeg_iff.mp (h d rfl))

theorem call?_leaveAll_of_mem {gone : List Nat} {slot : Nat} (h : slot ∈ gone) :
    (s.leaveAll gone).call? slot = none := by
  induction gone generalizing s with
  | nil => cases h
  | cons i gone ih =>
    show ((s.leave i).leaveAll gone).call? slot = none
    by_cases hmem : slot ∈ gone
    · exact ih hmem
    · obtain rfl : slot = i := (List.mem_cons.mp h).resolve_right hmem
      rw [call?_leaveAll_of_notMem hmem, call?_leave, if_pos rfl]

end CallStack

namespace Review

open ClearSign.Action

variable {host : Host} {r r' : Review}

/-- The texts that describe a call without arguments, beside the first of the other calls: of what
kind it is, how much it sends if it sends an amount, and to whom. -/
def legTexts (host : Host) (root : Option Call) (leg : Call) :
    Except Error (List (String × String)) := do
  match leg.amount with
  | some amount =>
    let ticker := host.settings.tickerOf host.registry (← amountChain leg root)
    let text := Decimal.amountText Decimal.nativePlaces ticker amount.bytes
    return [(intentKey, "Send"), ("Amount", text), ("To", destinationText host leg)]
  | none => return [(intentKey, "Empty transaction"), ("To", destinationText host leg)]

/-- A call that is described leaves its slot, and its rows say what describes it. -/
theorem describe_texts {slot : Nat} (h : (describe host slot).exec r = (.ok (), r')) :
    ∃ leg rows, r.calls.call? slot = some leg ∧
      legTexts host (r.calls.leave slot).root leg = .ok (rows.map Row.texts) ∧
      r' = ⟨r.calls.leave slot, r.table ++ rows⟩ := by
  unfold describe at h
  rw [exec_get_bind] at h
  unfold legTexts
  cases hcall : r.calls.call? slot with
  | none =>
    simp only [hcall] at h
    cases h
  | some leg =>
    simp only [hcall, exec_set_bind] at h
    cases hamount : leg.amount with
    | none =>
      simp only [hamount, bind_answers] at h
      obtain ⟨⟨⟩, _, hannounce, haddress⟩ := h
      obtain ⟨intent, hintent, rfl⟩ := addIntent_answers hannounce
      obtain ⟨payee, hpayee, rfl⟩ := addDestination_answers haddress
      refine ⟨leg, [intent, payee], rfl, ?_, by simp [CallStack.leave]⟩
      simp only [hamount, List.map_cons, List.map_nil, hintent.texts, hpayee.texts]
      rfl
    | some amount =>
      simp only [hamount, exec_get_bind, bind_answers, ofExcept_answers] at h
      obtain ⟨chain, _, ⟨hchain, rfl⟩, ⟨⟩, _, hannounce, ⟨⟩, _, hshow, haddress⟩ := h
      obtain ⟨intent, hintent, rfl⟩ := addIntent_answers hannounce
      obtain ⟨shown, hshown, rfl⟩ := addRow_answers hshow
      obtain ⟨payee, hpayee, rfl⟩ := addDestination_answers haddress
      refine ⟨leg, [intent, shown, payee], rfl, ?_, by simp [CallStack.leave]⟩
      have hchain' : amountChain leg (r.calls.leave slot).root = .ok chain := hchain
      simp only [hamount, hchain', List.map_cons, List.map_nil, hintent.texts, hshown.texts,
        hpayee.texts]
      rfl

/-- A call without arguments, described by rows of its own, beside one of some calls. -/
def Describes (host : Host) (calls : List Call) (leg : Call) (rows : List Row) : Prop :=
  ∃ root, (∀ d, root = some d → d ∈ calls) ∧ legTexts host root leg = .ok (rows.map Row.texts)

theorem forM_describe_texts {slots : List Nat} (hnodup : slots.Nodup)
    (h : (slots.forM (describe host)).exec r = (.ok (), r')) :
    ∃ rowss, r'.table = r.table ++ rowss.flatten ∧
      List.Forall₂ (Describes host r.calls.live) (slots.filterMap r.calls.call?) rowss := by
  induction slots generalizing r with
  | nil =>
    cases h
    exact ⟨[], by simp, .nil⟩
  | cons slot slots ih =>
    obtain ⟨hslot, hnodup⟩ := List.nodup_cons.mp hnodup
    rw [forM_cons_answers] at h
    obtain ⟨mid, hdescribe, hrest⟩ := h
    obtain ⟨leg, rows, hleg, htexts, rfl⟩ := describe_texts hdescribe
    obtain ⟨rowss, htable, hrowss⟩ := ih hnodup hrest
    have hstill {d : Call} (hd : d ∈ (r.calls.leave slot).live) : d ∈ r.calls.live := by
      obtain ⟨i, hi⟩ := CallStack.mem_live.mp hd
      rw [CallStack.call?_leave] at hi
      split at hi
      · cases hi
      · exact CallStack.mem_live.mpr ⟨i, hi⟩
    have hother : slots.filterMap (r.calls.leave slot).call? = slots.filterMap r.calls.call? := by
      apply List.filterMap_congr
      intro i hi
      rw [CallStack.call?_leave, if_neg]
      rintro rfl
      exact hslot hi
    rw [hother] at hrowss
    refine ⟨rows :: rowss, ?_, ?_⟩
    · rw [htable, List.flatten_cons, List.append_assoc]
    · rw [List.filterMap_cons_some hleg]
      refine .cons ⟨_, fun d hd => hstill (List.mem_of_mem_head? hd), htexts⟩ ?_
      apply hrowss.imp
      rintro leg' rows' ⟨root, hroot, htexts⟩
      exact ⟨root, fun d hd => hstill (hroot d hd), htexts⟩

/-- Some calls have been described, in this order, and have left their slots; no other call has
changed, nor which is current, nor how many came. -/
structure Flushed (host : Host) (r r' : Review) (legs : List Call) : Prop where
  slots : ∀ slot, r'.calls.call? slot = r.calls.call? slot ∨
    r'.calls.call? slot = none ∧ ∃ leg ∈ legs, r.calls.call? slot = some leg
  current : r'.calls.current = r.calls.current
  batchTotal : r'.calls.batchTotal = r.calls.batchTotal
  batchSize : r'.calls.batchSize = r.calls.batchSize
  rows : ∃ rowss, r'.table = r.table ++ rowss.flatten ∧
    List.Forall₂ (Describes host r.calls.live) legs rowss

theorem flushed_of_forM {slots : List Nat} (hnodup : slots.Nodup)
    (hplaces : ∀ i ∈ slots, i ∈ r.calls.places)
    (h : (slots.forM (describe host)).exec r = (.ok (), r')) :
    Flushed host r r' (slots.filterMap r.calls.call?) := by
  have hcalls := forM_describe_calls h
  have hleft := CallStack.leaveAll_eq r.calls slots
  refine ⟨?_, ?_, ?_, ?_, forM_describe_texts hnodup h⟩
  · intro slot
    rw [hcalls]
    by_cases hmem : slot ∈ slots
    · obtain ⟨leg, hleg⟩ := CallStack.mem_places.mp (hplaces slot hmem)
      refine .inr ⟨?_, leg, List.mem_filterMap.mpr ⟨slot, hmem, hleg⟩, hleg⟩
      exact CallStack.call?_leaveAll_of_mem hmem
    · exact .inl (CallStack.call?_leaveAll_of_notMem hmem)
  · rw [hcalls, hleft]
  · rw [hcalls, hleft]
  · rw [hcalls, hleft]

/-- Describes the calls on one side of a slot, looking for the nearest anew from each slot that it
comes to, until there is none or it has arguments. -/
def walk (host : Host) (nearest : CallStack → Nat → Option Nat) :
    (rounds : Nat) → (slot : Nat) → Action Review Unit
  | 0, _ => pure ()
  | rounds + 1, slot => do
    let calls := (← get).calls
    match nearest calls slot with
    | none => pure ()
    | some i =>
      if (calls.call? i).any (·.calldata.isSome) then return
      describe host i
      walk host nearest rounds i

/-- Slots that are left behind do not change what lies ahead, so looking anew finds what was there
from the start. -/
theorem exec_walk {around : CallStack → Nat → List Nat}
    (hnext : ∀ s slot i rest, around s slot = i :: rest →
      around (s.leave i) i = rest ∧ i ∉ rest) {rounds slot : Nat}
    (hrounds : (around r.calls slot).length ≤ rounds) :
    (walk host (fun s slot => (around s slot).head?) rounds slot).exec r =
      (((around r.calls slot).takeWhile fun i =>
        !(r.calls.call? i).any (·.calldata.isSome)).forM (describe host)).exec r := by
  induction rounds generalizing slot r with
  | zero =>
    rw [List.length_eq_zero_iff.mp (Nat.le_zero.mp hrounds)]
    rfl
  | succ rounds ih =>
    unfold walk
    rw [exec_get_bind]
    cases hslots : around r.calls slot with
    | nil =>
      simp only [hslots]
      rfl
    | cons i rest =>
      obtain ⟨hrest, hi⟩ := hnext _ _ _ _ hslots
      simp only [hslots, List.head?_cons, List.takeWhile_cons]
      by_cases hdata : (r.calls.call? i).any (·.calldata.isSome) = true
      · simp only [hdata]
        rfl
      · rw [if_neg hdata, if_pos (by simpa using hdata)]
        show (describe host i >>= _).exec r = (describe host i >>= _).exec r
        rw [exec_bind, exec_bind]
        rcases hdescribe : (describe host i).exec r with ⟨e | ⟨⟩, mid⟩
        · rfl
        · have hmid : mid.calls = r.calls.leave i := describe_calls hdescribe
          rw [← hmid] at hrest
          have hfew : rest.length ≤ rounds := by
            rw [hslots, List.length_cons] at hrounds
            exact Nat.le_of_succ_le_succ hrounds
          show (walk host _ rounds i).exec mid = _
          rw [ih (by rw [hrest]; exact hfew), hrest, CallStack.takeWhile_congr]
          intro j hj
          have hji : j ≠ i := by
            rintro rfl
            exact hi hj
          rw [hmid, CallStack.call?_leave, if_neg hji]

/-- Flushing before the current call is a walk from slot to slot in use, one at a time. -/
theorem flushBefore_eq_walk {slot : Nat} (hslot : r.calls.current = some slot) :
    (flushBefore host).exec r =
      (walk host (fun s slot => (s.placesBefore slot).head?) r.calls.slots.length slot).exec r := by
  rw [exec_walk fun _ _ _ _ => CallStack.placesBefore_next]
  · unfold flushBefore CallStack.emptyBefore CallStack.emptyRun
    rw [exec_get_bind]
    simp only [hslot]
  · unfold CallStack.placesBefore CallStack.places
    rw [List.length_reverse]
    exact (List.length_filter_le ..).trans ((List.length_filter_le ..).trans (by simp))

theorem flushAfter_eq_walk {slot : Nat} (hslot : r.calls.current = some slot) :
    (flushAfter host).exec r =
      (walk host (fun s slot => (s.placesAfter slot).head?) r.calls.slots.length slot).exec r := by
  rw [exec_walk fun _ _ _ _ => CallStack.placesAfter_next]
  · unfold flushAfter CallStack.emptyAfter CallStack.emptyRun
    rw [exec_get_bind]
    simp only [hslot]
  · unfold CallStack.placesAfter CallStack.places
    exact (List.length_filter_le ..).trans ((List.length_filter_le ..).trans (by simp))

/-- Flushing on one side flushes the calls that are listed on that side. -/
theorem flushed_of_sublist {slots places : List Nat} (hsub : slots.Sublist places)
    (hnodup : places.Nodup) (hplaces : ∀ i ∈ places, i ∈ r.calls.places)
    (h : (slots.forM (describe host)).exec r = (.ok (), r')) :
    Flushed host r r' (slots.filterMap r.calls.call?) :=
  flushed_of_forM (hnodup.sublist hsub) (fun i hi => hplaces i (hsub.subset hi)) h

theorem flushBefore_rest {kept behind : List Call} {c : Call}
    (hstands : r.calls.Stands kept c behind)
    (hkept : ∀ d, kept.getLast? = some d → d.calldata ≠ none) :
    (flushBefore host).exec r = (.ok (), r) := by
  have hnone : r.calls.emptyBefore = [] := by
    apply CallStack.eq_nil_of_filterMap
    · intro i hi
      exact List.mem_reverse.mp (r.calls.emptyBefore_sublist.subset hi)
    · rw [hstands.legsBefore]
      apply CallStack.takeWhile_eq_nil
      rwa [List.head?_reverse]
  unfold flushBefore
  rw [exec_get_bind, hnone]
  rfl

theorem flushAfter_rest {before kept : List Call} {c : Call}
    (hstands : r.calls.Stands before c kept)
    (hkept : ∀ d, kept.head? = some d → d.calldata ≠ none) :
    (flushAfter host).exec r = (.ok (), r) := by
  have hnone : r.calls.emptyAfter = [] := by
    apply CallStack.eq_nil_of_filterMap
    · intro i hi
      exact r.calls.emptyAfter_sublist.subset hi
    · rw [hstands.legsAfter]
      exact CallStack.takeWhile_eq_nil hkept
  unfold flushAfter
  rw [exec_get_bind, hnone]
  rfl

/-- With a call that is current, flushing on one side describes the calls without arguments that
stand there next to it, the nearest first, up to the first call with arguments. They are gone, all
else is as it was, and there is nothing left to flush on that side. -/
theorem flush_exact (host : Host) (r : Review) (c : Call)
    (hcurrent : r.calls.currentCall = some c) :
    ∃ before behind, r.calls.Stands before c behind ∧
      (∀ r', (flushBefore host).exec r = (.ok (), r') →
        ∃ kept legs, before = kept ++ legs.reverse ∧ (∀ leg ∈ legs, leg.calldata = none) ∧
          (∀ d, kept.getLast? = some d → d.calldata ≠ none) ∧
          r'.calls.Stands kept c behind ∧ Flushed host r r' legs ∧
          (flushBefore host).exec r' = (.ok (), r')) ∧
      (∀ r', (flushAfter host).exec r = (.ok (), r') →
        ∃ legs kept, behind = legs ++ kept ∧ (∀ leg ∈ legs, leg.calldata = none) ∧
          (∀ d, kept.head? = some d → d.calldata ≠ none) ∧
          r'.calls.Stands before c kept ∧ Flushed host r r' legs ∧
          (flushAfter host).exec r' = (.ok (), r')) := by
  obtain ⟨before, behind, hstands⟩ := CallStack.stands_of_currentCall hcurrent
  refine ⟨before, behind, hstands, ?_, ?_⟩
  · intro r' hflush
    have hkept : ∀ d, (before.reverse.dropWhile Call.isLeg).reverse.getLast? = some d →
        d.calldata ≠ none := by
      intro d hd
      rw [List.getLast?_reverse] at hd
      exact CallStack.calldata_of_head?_dropWhile hd
    have hstays : r'.calls.Stands (before.reverse.dropWhile Call.isLeg).reverse c behind := by
      rw [flushBefore_calls hflush]
      exact hstands.flushedBefore
    refine ⟨_, before.reverse.takeWhile Call.isLeg, ?_, fun leg => ?_, hkept, hstays, ?_,
      flushBefore_rest hstays hkept⟩
    · rw [← List.reverse_append, List.takeWhile_append_dropWhile, List.reverse_reverse]
    · exact CallStack.calldata_of_mem_takeWhile
    · unfold flushBefore at hflush
      rw [exec_get_bind] at hflush
      rw [← hstands.legsBefore]
      exact flushed_of_sublist r.calls.emptyBefore_sublist
        (List.nodup_reverse.mpr r.calls.nodup_places) (fun i => List.mem_reverse.mp) hflush
  · intro r' hflush
    have hkept : ∀ d, (behind.dropWhile Call.isLeg).head? = some d → d.calldata ≠ none :=
      fun d => CallStack.calldata_of_head?_dropWhile
    have hstays : r'.calls.Stands before c (behind.dropWhile Call.isLeg) := by
      rw [flushAfter_calls hflush]
      exact hstands.flushedAfter
    refine ⟨behind.takeWhile Call.isLeg, _, ?_, fun leg => ?_, hkept, hstays, ?_,
      flushAfter_rest hstays hkept⟩
    · exact List.takeWhile_append_dropWhile.symm
    · exact CallStack.calldata_of_mem_takeWhile
    · unfold flushAfter at hflush
      rw [exec_get_bind] at hflush
      rw [← hstands.legsAfter]
      exact flushed_of_sublist r.calls.emptyAfter_sublist r.calls.nodup_places (fun _ => id) hflush

/-- A call with one without arguments on either side; both sides have something to flush. -/
theorem flush_exact_between :
    let data := Calldata.empty 0 (Fixed.align 4 [1, 2, 3, 4])
    let call : Call := ⟨none, some data, Fixed.zero 20, none, none, 1, []⟩
    let leg : Call := { call with calldata := none }
    let r : Review := ⟨⟨[some leg, none, some call, some leg], some 2, 0, 0⟩, []⟩
    r.calls.currentCall = some call ∧
      (∃ r', (flushBefore sampleHost).exec r = (.ok (), r') ∧ r'.calls.Stands [] call [leg] ∧
        Flushed sampleHost r r' [leg] ∧ (flushBefore sampleHost).exec r' = (.ok (), r')) ∧
      ∃ r', (flushAfter sampleHost).exec r = (.ok (), r') ∧ r'.calls.Stands [leg] call [] ∧
        Flushed sampleHost r r' [leg] ∧ (flushAfter sampleHost).exec r' = (.ok (), r') := by
  intro data call leg r
  have hcurrent : r.calls.currentCall = some call := rfl
  have hstands : r.calls.Stands [leg] call [leg] :=
    ⟨[some leg, none], [some leg], rfl, rfl, rfl, rfl⟩
  have hflushed : ((flushBefore sampleHost).exec r).1 = .ok () ∧
      ((flushAfter sampleHost).exec r).1 = .ok () := by decide +kernel
  obtain ⟨before, behind, hstands', hbefore, hafter⟩ := flush_exact sampleHost r call hcurrent
  obtain ⟨rfl, -, rfl⟩ := hstands.unique hstands'
  refine ⟨hcurrent, ?_, ?_⟩
  · obtain ⟨kept, legs, hsplit, -, hkept, hrest⟩ := hbefore _ (Prod.ext hflushed.1 rfl)
    rcases List.append_eq_singleton_iff.mp hsplit.symm with ⟨rfl, hlegs⟩ | ⟨rfl, -⟩
    · obtain rfl : legs = [leg] := by simpa using hlegs
      exact ⟨_, Prod.ext hflushed.1 rfl, hrest⟩
    · exact absurd rfl (hkept leg rfl)
  · obtain ⟨legs, kept, hsplit, -, hkept, hrest⟩ := hafter _ (Prod.ext hflushed.2 rfl)
    rcases List.append_eq_singleton_iff.mp hsplit.symm with ⟨-, rfl⟩ | ⟨rfl, rfl⟩
    · exact absurd rfl (hkept leg rfl)
    · exact ⟨_, Prod.ext hflushed.2 rfl, hrest⟩

end Review
end ClearSign
