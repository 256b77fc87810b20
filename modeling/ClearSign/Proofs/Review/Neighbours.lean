import ClearSign.Proofs.Review.Shedding
import Mathlib.Data.List.Induction

/-!
The live calls on either side of the current one. What flushing and settling do to slots they do
to these two lists: flushing drops the calls without arguments next to the current one, and when
the current one leaves, the last call before it takes its place.
-/

namespace ClearSign

/-- A call without arguments. -/
def Call.isLeg (c : Call) : Bool := c.calldata.isNone

namespace CallStack

/-- The slots in use of a list of slots, in order. -/
def used (slots : List (Option Call)) : List Nat :=
  (List.range slots.length).filter fun i => (slots[i]?.join).isSome

/-- Slots are given up. -/
def clear (gone : List Nat) (slots : List (Option Call)) : List (Option Call) :=
  gone.foldl (fun slots i => slots.set i none) slots

/-- The call in a slot, if there is one, has no arguments. -/
def legAt (slots : List (Option Call)) (i : Nat) : Bool :=
  !(slots[i]?.join).any fun c => c.calldata.isSome

theorem used_cons (o : Option Call) (slots : List (Option Call)) :
    used (o :: slots) = (if o.isSome then [0] else []) ++ (used slots).map (· + 1) := by
  unfold used
  rw [List.length_cons, List.range_succ_eq_map, List.filter_cons, List.filter_map]
  cases o with
  | none => rfl
  | some c => rfl

theorem used_append (ls rs : List (Option Call)) :
    used (ls ++ rs) = used ls ++ (used rs).map (· + ls.length) := by
  induction ls with
  | nil => simp [used]
  | cons o ls ih =>
    rw [List.cons_append, used_cons, used_cons, ih, List.map_append, List.map_map,
      List.append_assoc]
    congr 2

theorem used_concat (slots : List (Option Call)) (o : Option Call) :
    used (slots ++ [o]) = used slots ++ if o.isSome then [slots.length] else [] := by
  rw [used_append, used_cons]
  cases o with
  | none => rfl
  | some c => simp [used]

theorem lt_of_mem_used {slots : List (Option Call)} {i : Nat} (h : i ∈ used slots) :
    i < slots.length := by
  unfold used at h
  exact List.mem_range.mp (List.mem_filter.mp h).1

theorem clear_append_right (gone : List Nat) (ls rs : List (Option Call)) :
    clear (gone.map (· + ls.length)) (ls ++ rs) = ls ++ clear gone rs := by
  induction gone generalizing rs with
  | nil => rfl
  | cons i gone ih =>
    show clear (gone.map (· + ls.length)) ((ls ++ rs).set (i + ls.length) none) = _
    rw [List.set_append_right _ _ (by omega), Nat.add_sub_cancel, ih]
    rfl

theorem clear_append_left {gone : List Nat} (ls rs : List (Option Call))
    (h : ∀ i ∈ gone, i < ls.length) : clear gone (ls ++ rs) = clear gone ls ++ rs := by
  induction gone generalizing ls with
  | nil => rfl
  | cons i gone ih =>
    show clear gone ((ls ++ rs).set i none) = _
    rw [List.set_append_left _ _ (h i List.mem_cons_self), ih]
    · rfl
    · intro j hj
      rw [List.length_set]
      exact h j (List.mem_cons_of_mem _ hj)

theorem length_clear (gone : List Nat) (slots : List (Option Call)) :
    (clear gone slots).length = slots.length := by
  induction gone generalizing slots with
  | nil => rfl
  | cons i gone ih => exact (ih _).trans List.length_set

theorem modify_middle {α : Type} (ls rs : List α) (a : α) (f : α → α) :
    (ls ++ a :: rs).modify ls.length f = ls ++ f a :: rs := by
  induction ls with
  | nil => rfl
  | cons b ls ih => rw [List.cons_append, List.length_cons, List.modify_succ_cons, ih]; rfl

theorem takeWhile_congr {p q : Nat → Bool} {is : List Nat} (h : ∀ i ∈ is, p i = q i) :
    is.takeWhile p = is.takeWhile q := by
  induction is with
  | nil => rfl
  | cons i is ih =>
    rw [List.takeWhile_cons, List.takeWhile_cons, h i List.mem_cons_self,
      ih fun j hj => h j (List.mem_cons_of_mem _ hj)]

/-- Giving up the slots of the first calls without arguments drops those calls. -/
theorem filterMap_clear_first (slots : List (Option Call)) :
    (clear ((used slots).takeWhile (legAt slots)) slots).filterMap id =
      (slots.filterMap id).dropWhile Call.isLeg := by
  induction slots with
  | nil => rfl
  | cons o slots ih =>
    have hrest : ((used slots).map (· + 1)).takeWhile (legAt (o :: slots)) =
        ((used slots).takeWhile (legAt slots)).map (· + 1) := by
      rw [List.takeWhile_map]
      rfl
    have hclear (o : Option Call) : clear (((used slots).takeWhile (legAt slots)).map (· + 1))
        (o :: slots) = o :: clear ((used slots).takeWhile (legAt slots)) slots :=
      clear_append_right _ [o] slots
    rw [used_cons]
    cases o with
    | none =>
      rw [Option.isSome_none, if_neg (by simp), List.nil_append, hrest, hclear]
      exact ih
    | some c =>
      rw [Option.isSome_some, if_pos rfl, List.singleton_append, List.takeWhile_cons]
      have hfirst : legAt (some c :: slots) 0 = c.isLeg := by
        show (!(some c).any _) = _
        cases hdata : c.calldata <;> simp [Call.isLeg, hdata]
      rw [hfirst, List.filterMap_cons_some (by rfl), List.dropWhile_cons]
      by_cases hleg : c.isLeg = true
      · rw [if_pos hleg, if_pos hleg, hrest]
        show (clear _ (none :: slots)).filterMap id = _
        rw [hclear]
        exact ih
      · rw [if_neg hleg, if_neg hleg]
        rfl

/-- Giving up the slots of the last calls without arguments drops those calls. -/
theorem filterMap_clear_last (slots : List (Option Call)) :
    (clear ((used slots).reverse.takeWhile (legAt slots)) slots).filterMap id =
      ((slots.filterMap id).reverse.dropWhile Call.isLeg).reverse := by
  induction slots using List.reverseRecOn with
  | nil => rfl
  | append_singleton slots o ih =>
    have hrest : (used slots).reverse.takeWhile (legAt (slots ++ [o])) =
        (used slots).reverse.takeWhile (legAt slots) := by
      apply takeWhile_congr
      intro i hi
      unfold legAt
      rw [List.getElem?_append_left (lt_of_mem_used (List.mem_reverse.mp hi))]
    have hclear (o : Option Call) :
        clear ((used slots).reverse.takeWhile (legAt slots)) (slots ++ [o]) =
          clear ((used slots).reverse.takeWhile (legAt slots)) slots ++ [o] :=
      clear_append_left _ _ fun i hi =>
        lt_of_mem_used (List.mem_reverse.mp (List.takeWhile_subset _ hi))
    rw [used_concat]
    cases o with
    | none =>
      rw [Option.isSome_none, if_neg (by simp), List.append_nil, hrest, hclear,
        List.filterMap_append, List.filterMap_append, ih]
      simp
    | some c =>
      have hlast : legAt (slots ++ [some c]) slots.length = c.isLeg := by
        unfold legAt
        rw [List.getElem?_append_right (Nat.le_refl _), Nat.sub_self]
        show (!(some c).any _) = _
        cases hdata : c.calldata <;> simp [Call.isLeg, hdata]
      rw [Option.isSome_some, if_pos rfl, List.reverse_append, List.reverse_singleton,
        List.singleton_append, List.takeWhile_cons, hlast, List.filterMap_append,
        List.filterMap_cons_some (by rfl), List.filterMap_nil, List.reverse_append,
        List.reverse_singleton, List.singleton_append, List.dropWhile_cons]
      by_cases hleg : c.isLeg = true
      · rw [if_pos hleg, if_pos hleg, hrest]
        show (clear _ ((slots ++ [some c]).set slots.length none)).filterMap id = _
        rw [List.set_append_right _ _ (Nat.le_refl _), Nat.sub_self, List.set_cons_zero, hclear,
          List.filterMap_append, ih]
        simp
      · rw [if_neg hleg, if_neg hleg]
        simp [clear]

theorem places_eq (s : CallStack) : s.places = used s.slots := rfl

theorem length_used (slots : List (Option Call)) :
    (used slots).length = (slots.filterMap id).length := length_places ⟨slots, none, 0, 0⟩

theorem leaveAll_eq (s : CallStack) (gone : List Nat) :
    s.leaveAll gone = { s with slots := clear gone s.slots } := by
  induction gone generalizing s with
  | nil => rfl
  | cons i gone ih =>
    show (s.leave i).leaveAll gone = _
    rw [ih]
    rfl

/-- The current call, with the live calls before it and those behind it. -/
def Stands (s : CallStack) (before : List Call) (c : Call) (behind : List Call) : Prop :=
  ∃ ls rs, s.slots = ls ++ some c :: rs ∧ s.current = some ls.length ∧
    ls.filterMap id = before ∧ rs.filterMap id = behind

section

variable {s t : CallStack} {before behind : List Call} {c : Call}

theorem Stands.live (h : s.Stands before c behind) : s.live = before ++ c :: behind := by
  obtain ⟨ls, rs, hslots, -, rfl, rfl⟩ := h
  unfold CallStack.live
  rw [hslots, List.filterMap_append, List.filterMap_cons_some (by rfl)]

theorem stands_of_call? {slot : Nat} (hslot : s.current = some slot)
    (hcall : s.call? slot = some c) : ∃ before behind, s.Stands before c behind := by
  have hlt : slot < s.slots.length := lt_of_mem_used (mem_places.mpr ⟨c, hcall⟩)
  have hget : s.slots[slot] = some c := by
    unfold call? at hcall
    rw [List.getElem?_eq_getElem hlt] at hcall
    exact hcall
  refine ⟨_, _, s.slots.take slot, s.slots.drop (slot + 1), ?_, ?_, rfl, rfl⟩
  · rw [← hget, List.getElem_cons_drop, List.take_append_drop]
  · rw [hslot, List.length_take, Nat.min_eq_left (Nat.le_of_lt hlt)]

theorem Stands.call? (h : s.Stands before c behind) :
    ∃ slot, s.current = some slot ∧ s.call? slot = some c := by
  obtain ⟨ls, rs, hslots, hcurrent, -, -⟩ := h
  refine ⟨ls.length, hcurrent, ?_⟩
  unfold CallStack.call?
  rw [hslots, List.getElem?_append_right (Nat.le_refl _), Nat.sub_self]
  rfl

/-- A call before the current one is in a slot before its slot. -/
theorem Stands.call?_before {d : Call} {slot : Nat} (h : s.Stands before c behind)
    (hslot : s.current = some slot) (hd : d ∈ before) : ∃ i < slot, s.call? i = some d := by
  obtain ⟨ls, rs, hslots, hcurrent, rfl, -⟩ := h
  obtain rfl : slot = ls.length := Option.some.inj (hslot.symm.trans hcurrent)
  obtain ⟨o, ho, rfl⟩ := List.mem_filterMap.mp hd
  obtain ⟨i, hi, hget⟩ := List.getElem_of_mem ho
  refine ⟨i, hi, ?_⟩
  unfold CallStack.call?
  rw [hslots, List.getElem?_append_left hi, List.getElem?_eq_getElem hi, hget]
  rfl

theorem Stands.currentCall (h : s.Stands before c behind) : s.currentCall = some c := by
  obtain ⟨slot, hslot, hcall⟩ := h.call?
  unfold CallStack.currentCall
  rw [hslot, Option.bind_some, hcall]

theorem Stands.unique {before' behind' : List Call} {c' : Call} (h : s.Stands before c behind)
    (h' : s.Stands before' c' behind') : before = before' ∧ c = c' ∧ behind = behind' := by
  obtain ⟨ls, rs, hslots, hcurrent, rfl, rfl⟩ := h
  obtain ⟨ls', rs', hslots', hcurrent', rfl, rfl⟩ := h'
  have hlength : ls.length = ls'.length := Option.some.inj (hcurrent.symm.trans hcurrent')
  obtain ⟨rfl, hrest⟩ := List.append_inj (hslots.symm.trans hslots') hlength
  obtain ⟨hc, rfl⟩ := List.cons.inj hrest
  exact ⟨rfl, Option.some.inj hc, rfl⟩

theorem places_parts {ls rs : List (Option Call)} (hslots : s.slots = ls ++ some c :: rs) :
    s.places = used ls ++ ls.length :: (used rs).map (· + (ls.length + 1)) := by
  rw [places_eq, hslots, used_append, used_cons, Option.isSome_some, if_pos rfl,
    List.singleton_append, List.map_cons, List.map_map, Nat.zero_add]
  congr 3
  funext i
  show i + 1 + ls.length = i + (ls.length + 1)
  omega

theorem placesBefore_parts {ls rs : List (Option Call)} (hslots : s.slots = ls ++ some c :: rs) :
    s.placesBefore ls.length = (used ls).reverse := by
  unfold placesBefore
  rw [places_parts hslots, List.filter_append,
    List.filter_eq_self.mpr fun i hi => decide_eq_true (lt_of_mem_used hi),
    List.filter_eq_nil_iff.mpr, List.append_nil]
  intro i hi
  rcases List.mem_cons.mp hi with rfl | hi
  · simp
  · obtain ⟨j, -, rfl⟩ := List.mem_map.mp hi
    rw [decide_eq_true_eq]
    omega

theorem placesAfter_parts {ls rs : List (Option Call)} (hslots : s.slots = ls ++ some c :: rs) :
    s.placesAfter ls.length = (used rs).map (· + (ls.length + 1)) := by
  unfold placesAfter
  have hbefore : (used ls).filter (ls.length < ·) = [] := by
    apply List.filter_eq_nil_iff.mpr
    intro i hi
    have := lt_of_mem_used hi
    rw [decide_eq_true_eq]
    omega
  have hbehind : ((used rs).map (· + (ls.length + 1))).filter (ls.length < ·) =
      (used rs).map (· + (ls.length + 1)) := by
    apply List.filter_eq_self.mpr
    intro i hi
    obtain ⟨j, -, rfl⟩ := List.mem_map.mp hi
    rw [decide_eq_true_eq]
    omega
  rw [places_parts hslots, List.filter_append, hbefore, List.nil_append,
    List.filter_cons_of_neg (by simp), hbehind]

theorem Stands.flushedAfter (h : s.Stands before c behind) :
    s.flushedAfter.Stands before c (behind.dropWhile Call.isLeg) := by
  obtain ⟨ls, rs, hslots, hcurrent, hbefore, rfl⟩ := h
  have hempty : s.emptyAfter =
      ((used rs).takeWhile (legAt rs)).map (· + (ls.length + 1)) := by
    unfold emptyAfter emptyRun
    simp only [hcurrent]
    rw [placesAfter_parts hslots, List.takeWhile_map]
    congr 1
    apply takeWhile_congr
    intro i _
    show (!(s.slots[i + (ls.length + 1)]?.join).any _) = legAt rs i
    rw [hslots, List.getElem?_append_right (by omega),
      show i + (ls.length + 1) - ls.length = i + 1 by omega, List.getElem?_cons_succ]
    rfl
  unfold CallStack.flushedAfter
  rw [leaveAll_eq, hempty]
  refine ⟨ls, clear ((used rs).takeWhile (legAt rs)) rs, ?_, hcurrent, hbefore,
    filterMap_clear_first rs⟩
  have hclear := clear_append_right ((used rs).takeWhile (legAt rs)) (ls ++ [some c]) rs
  rw [List.length_append, List.length_singleton, List.append_assoc, List.append_assoc] at hclear
  rw [hslots]
  exact hclear

theorem Stands.flushedBefore (h : s.Stands before c behind) :
    s.flushedBefore.Stands (before.reverse.dropWhile Call.isLeg).reverse c behind := by
  obtain ⟨ls, rs, hslots, hcurrent, rfl, hbehind⟩ := h
  have hempty : s.emptyBefore = (used ls).reverse.takeWhile (legAt ls) := by
    unfold emptyBefore emptyRun
    simp only [hcurrent]
    rw [placesBefore_parts hslots]
    apply takeWhile_congr
    intro i hi
    show (!(s.slots[i]?.join).any _) = legAt ls i
    rw [hslots, List.getElem?_append_left (lt_of_mem_used (List.mem_reverse.mp hi))]
    rfl
  unfold CallStack.flushedBefore
  rw [leaveAll_eq, hempty]
  refine ⟨clear ((used ls).reverse.takeWhile (legAt ls)) ls, rs, ?_, ?_, filterMap_clear_last ls,
    hbehind⟩
  · rw [hslots]
    exact clear_append_left _ _ fun i hi =>
      lt_of_mem_used (List.mem_reverse.mp (List.takeWhile_subset _ hi))
  · rw [length_clear]
    exact hcurrent

theorem used_replicate_none (n : Nat) : used (List.replicate n none) = [] := by
  induction n with
  | zero => rfl
  | succ n ih =>
    rw [List.replicate_succ, used_cons, ih]
    rfl

/-- Behind the last call of a list of slots there are only gaps. -/
theorem last_call {slots : List (Option Call)} {p : Call}
    (h : slots.filterMap id = before ++ [p]) :
    ∃ ls n, slots = ls ++ some p :: List.replicate n none ∧ ls.filterMap id = before := by
  induction slots using List.reverseRecOn with
  | nil => simp at h
  | append_singleton slots o ih =>
    rw [List.filterMap_append] at h
    cases o with
    | none =>
      obtain ⟨ls, n, rfl, hls⟩ := ih (by simpa using h)
      refine ⟨ls, n + 1, ?_, hls⟩
      rw [List.replicate_succ', List.append_assoc, List.cons_append]
    | some d =>
      obtain ⟨hls, hd⟩ := List.append_inj' h rfl
      obtain rfl : d = p := by simpa using hd
      exact ⟨slots, 0, rfl, hls⟩

theorem Stands.popped {p : Call} (h : s.Stands (before ++ [p]) c behind) :
    s.popped.Stands before p behind := by
  obtain ⟨ls, rs, hslots, hcurrent, hbefore, rfl⟩ := h
  obtain ⟨ls', n, rfl, hls'⟩ := last_call hbefore
  unfold CallStack.popped
  simp only [hcurrent]
  refine ⟨ls', List.replicate n none ++ none :: rs, ?_, ?_, hls', ?_⟩
  · show s.slots.set _ none = _
    rw [hslots, List.set_append_right _ _ (Nat.le_refl _), Nat.sub_self]
    simp
  · rw [placesBefore_parts hslots, used_append, used_cons, used_replicate_none]
    simp
  · rw [List.filterMap_append]
    simp [List.filterMap_replicate_of_none]

theorem Stands.isRoot (h : s.Stands before c behind) : s.isRoot = before.isEmpty := by
  obtain ⟨ls, rs, hslots, hcurrent, rfl, -⟩ := h
  unfold CallStack.isRoot
  rw [places_parts hslots, hcurrent]
  have hsize := length_used ls
  cases hused : used ls with
  | nil =>
    rw [hused] at hsize
    rw [List.length_eq_zero_iff.mp hsize.symm]
    simp
  | cons i is =>
    have hlt : i < ls.length := lt_of_mem_used (by rw [hused]; exact List.mem_cons_self)
    cases hfirst : ls.filterMap id with
    | nil =>
      rw [hused, hfirst] at hsize
      cases hsize
    | cons d ds =>
      simp only [Option.isSome_some, List.cons_append, List.head?_cons, Bool.true_and,
        List.isEmpty_cons, beq_eq_false_iff_ne, ne_eq, Option.some.injEq]
      omega

/-- If the first of all calls were current, none would stand before it. -/
theorem stands_first {slot : Nat} (h : s.places.head? = some slot) :
    ∃ c behind, Stands { s with current := some slot } [] c behind := by
  obtain ⟨c, hcall⟩ := mem_places.mp (List.mem_of_mem_head? h)
  let first : CallStack := { s with current := some slot }
  obtain ⟨before, behind, hstands⟩ := stands_of_call? (s := first) rfl hcall
  have hroot : first.isRoot = true := by
    show (some slot == s.places.head?) = true
    rw [h, beq_self_eq_true]
  rw [hstands.isRoot, List.isEmpty_iff] at hroot
  subst hroot
  exact ⟨c, behind, hstands⟩

theorem Stands.modifyAt (h : s.Stands before c behind) {slot : Nat} (hslot : s.current = some slot)
    (f : Call → Call) : (s.modifyAt slot f).Stands before (f c) behind := by
  obtain ⟨ls, rs, hslots, hcurrent, hbefore, hbehind⟩ := h
  obtain rfl : slot = ls.length := Option.some.inj (hslot.symm.trans hcurrent)
  refine ⟨ls, rs, ?_, hcurrent, hbefore, hbehind⟩
  show s.slots.modify ls.length _ = _
  rw [hslots, modify_middle]
  rfl

theorem Stands.grows {new : List NewCall} {opened : List Call}
    (h : s.Stands before c behind) (hg : Field.Grows new s t opened) :
    t.Stands before c (behind ++ opened) := by
  obtain ⟨ls, rs, hslots, hcurrent, hbefore, rfl⟩ := h
  refine ⟨ls, rs ++ opened.map some, ?_, hg.current.trans hcurrent, hbefore, ?_⟩
  · rw [hg.slots, hslots, List.append_assoc, List.cons_append]
  · rw [List.filterMap_append, List.filterMap_map]
    simp

end

end CallStack

end ClearSign
