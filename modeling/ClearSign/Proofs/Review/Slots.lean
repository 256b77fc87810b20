import ClearSign.Review.CallStack

/-!
Which call is in which slot, after each change of the slots.
-/

namespace ClearSign

/-- The call with one field more. -/
def Call.withField (payload : Bytes) (c : Call) : Call :=
  { c with absorbed := c.absorbed ++ payload }

/-- The call with a new descriptor. -/
def Call.withInfo (info : TransactionInfo) (c : Call) : Call := { c with info := some info }

namespace CallStack

variable {s : CallStack}

theorem mem_live {c : Call} : c ∈ s.live ↔ ∃ slot, s.call? slot = some c := by
  unfold live call?
  rw [List.mem_filterMap]
  constructor
  · rintro ⟨o, ho, rfl⟩
    obtain ⟨slot, hslot, hget⟩ := List.getElem_of_mem ho
    exact ⟨slot, by rw [List.getElem?_eq_getElem hslot, hget]; rfl⟩
  · rintro ⟨slot, hslot⟩
    cases hget : s.slots[slot]? with
    | none => simp [hget] at hslot
    | some o =>
      rw [hget] at hslot
      exact ⟨o, List.mem_of_getElem? hget, hslot⟩

theorem call?_congr {t : CallStack} (hslots : t.slots = s.slots) (slot : Nat) :
    t.call? slot = s.call? slot := by
  unfold call?
  rw [hslots]

theorem live_ne_nil {slot : Nat} {c : Call} (h : s.call? slot = some c) : s.live ≠ [] := by
  intro hnil
  have hmem := mem_live.mpr ⟨slot, h⟩
  rw [hnil] at hmem
  cases hmem

theorem lt_length {slot : Nat} {c : Call} (h : s.call? slot = some c) : slot < s.slots.length := by
  apply Nat.lt_of_not_le
  intro hbeyond
  unfold call? at h
  rw [List.getElem?_eq_none hbeyond] at h
  cases h

theorem mem_places {slot : Nat} : slot ∈ s.places ↔ ∃ c, s.call? slot = some c := by
  unfold places
  rw [List.mem_filter, List.mem_range, Option.isSome_iff_exists]
  constructor
  · rintro ⟨-, hcall⟩
    exact hcall
  · rintro ⟨c, hc⟩
    exact ⟨lt_length hc, c, hc⟩

theorem places_sorted (s : CallStack) : s.places.Pairwise (· < ·) :=
  List.Pairwise.filter _ List.pairwise_lt_range

theorem head?_places_le {first slot : Nat} (hfirst : s.places.head? = some first)
    (hslot : slot ∈ s.places) : first ≤ slot := by
  have hsorted := s.places_sorted
  cases hplaces : s.places with
  | nil =>
    rw [hplaces] at hslot
    cases hslot
  | cons i rest =>
    rw [hplaces] at hfirst hslot hsorted
    obtain rfl : i = first := Option.some.inj hfirst
    rcases List.mem_cons.mp hslot with rfl | hbehind
    · exact Nat.le_refl _
    · exact Nat.le_of_lt ((List.pairwise_cons.mp hsorted).1 slot hbehind)

/-- A list of options, read by its indices. -/
theorem map_join_range {α : Type} (os : List (Option α)) :
    ((List.range os.length).map fun i => os[i]?.join) = os := by
  apply List.ext_getElem (by simp)
  intro i _ hi
  rw [List.getElem_map, List.getElem_range, List.getElem?_eq_getElem hi]
  rfl

/-- The live calls are those in the slots in use. -/
theorem live_eq_places (s : CallStack) : s.live = s.places.filterMap s.call? := by
  have hslots : (List.range s.slots.length).map s.call? = s.slots := map_join_range s.slots
  have hall : s.live = (List.range s.slots.length).filterMap s.call? := by
    have hmap := List.filterMap_map (l := List.range s.slots.length) (f := s.call?) (g := id)
    rw [hslots] at hmap
    exact hmap
  rw [hall]
  unfold places
  rw [List.filterMap_filter]
  congr 1
  funext slot
  cases s.call? slot <;> rfl

theorem length_places (s : CallStack) : s.places.length = s.count := by
  unfold count
  rw [live_eq_places, List.length_filterMap_eq_countP, eq_comm, List.countP_eq_length]
  intro slot hslot
  obtain ⟨c, hc⟩ := mem_places.mp hslot
  rw [hc]
  rfl

/-- Of a single slot, the call is in the first one. -/
theorem eq_of_single {slot : Nat} {c d : Call} (hslots : s.slots = [some c])
    (h : s.call? slot = some d) : slot = 0 ∧ c = d := by
  unfold call? at h
  rw [hslots] at h
  cases slot with
  | zero =>
    cases h
    exact ⟨rfl, rfl⟩
  | succ slot => cases h

/-- The first slot in use has the first of the live calls. -/
theorem root_eq_bind (s : CallStack) : s.root = s.places.head?.bind s.call? := by
  unfold root
  rw [live_eq_places]
  cases hplaces : s.places with
  | nil => rfl
  | cons slot rest =>
    have hslot : slot ∈ s.places := by simp [hplaces]
    obtain ⟨c, hc⟩ := mem_places.mp hslot
    rw [List.filterMap_cons_some hc, List.head?_cons, List.head?_cons, Option.bind_some, hc]

theorem root_eq {slot : Nat} (h : s.places.head? = some slot) : s.root = s.call? slot := by
  rw [root_eq_bind, h, Option.bind_some]

/-- The last slot in use has the last of the live calls. -/
theorem getLast?_live (s : CallStack) : s.live.getLast? = s.places.getLast?.bind s.call? := by
  rw [live_eq_places]
  rcases List.eq_nil_or_concat s.places with hnone | ⟨front, slot, hplaces⟩
  · rw [hnone]
    rfl
  · rw [List.concat_eq_append] at hplaces
    have hslot : slot ∈ s.places := by simp [hplaces]
    obtain ⟨c, hc⟩ := mem_places.mp hslot
    rw [hplaces, List.filterMap_append, List.filterMap_cons_some hc, List.getLast?_concat,
      Option.bind_some, hc]
    exact List.getLast?_concat

/-- Of a single live call, every slot in use is the same. -/
theorem eq_of_count_one {i j : Nat} {c d : Call} (hcount : s.count = 1) (hi : s.call? i = some c)
    (hj : s.call? j = some d) : i = j := by
  rw [← length_places, List.length_eq_one_iff] at hcount
  obtain ⟨slot, hplaces⟩ := hcount
  have hmem := mem_places.mpr ⟨c, hi⟩
  have hmem' := mem_places.mpr ⟨d, hj⟩
  rw [hplaces, List.mem_singleton] at hmem hmem'
  rw [hmem, hmem']

theorem call?_modifyAt (s : CallStack) (slot : Nat) (f : Call → Call) (i : Nat) :
    (s.modifyAt slot f).call? i = if i = slot then (s.call? i).map f else s.call? i := by
  unfold modifyAt call?
  rw [List.getElem?_modify]
  by_cases hi : i = slot
  · subst hi
    cases s.slots[i]? with
    | none => simp
    | some o => simp
  · rw [if_neg hi]
    cases s.slots[i]? with
    | none => simp
    | some o => simp [Ne.symm hi]

/-- A call after a change is the changed one, or was there before in another slot. -/
theorem call?_modifyAt_cases {slot i : Nat} {f : Call → Call} {d : Call}
    (h : (s.modifyAt slot f).call? i = some d) :
    (i = slot ∧ ∃ c, s.call? slot = some c ∧ f c = d) ∨ (i ≠ slot ∧ s.call? i = some d) := by
  rw [call?_modifyAt] at h
  split at h
  · rename_i hi
    subst hi
    exact .inl ⟨rfl, Option.map_eq_some_iff.mp h⟩
  · rename_i hi
    exact .inr ⟨hi, h⟩

/-- Calls keep their place in line when one of them changes. -/
theorem live_modifyAt {α : Type} (s : CallStack) (slot : Nat) (f : Call → Call)
    (part : Call → α) (hf : ∀ c, part (f c) = part c) :
    (s.modifyAt slot f).live.map part = s.live.map part := by
  have hmodify : ∀ (slots : List (Option Call)) (slot : Nat),
      ((slots.modify slot (Option.map f)).filterMap id).map part =
        (slots.filterMap id).map part := by
    intro slots
    induction slots with
    | nil => intro slot; simp
    | cons o slots ih =>
      intro slot
      cases slot with
      | zero => cases o <;> simp [hf]
      | succ slot =>
        cases o with
        | none => exact ih slot
        | some c => exact congrArg (part c :: ·) (ih slot)
  exact hmodify s.slots slot

theorem currentCall_modifyAt {slot : Nat} {c : Call} (hslot : s.current = some slot)
    (hcall : s.call? slot = some c) (f : Call → Call) :
    (s.modifyAt slot f).currentCall = some (f c) := by
  show s.current.bind _ = _
  rw [hslot, Option.bind_some, call?_modifyAt, if_pos rfl, hcall]
  rfl

theorem absorb_eq {slot : Nat} {c : Call} (hslot : s.current = some slot)
    (hcall : s.call? slot = some c) (payload : Bytes) :
    s.absorb payload = .ok (s.modifyAt slot (Call.withField payload)) := by
  unfold absorb modifyCurrent currentCall
  rw [hslot, Option.bind_some, hcall]
  rfl

/-- What a change of the current call comes to. -/
theorem modifyCurrent_eq_ok {f : Call → Call} {s' : CallStack} (h : s.modifyCurrent f = .ok s') :
    ∃ slot c, s.current = some slot ∧ s.call? slot = some c ∧ s' = s.modifyAt slot f := by
  unfold modifyCurrent at h
  split at h
  · rename_i slot c hslot hcurrent
    rw [currentCall, hslot, Option.bind_some] at hcurrent
    exact ⟨slot, c, hslot, hcurrent, (Except.ok.inj h).symm⟩
  · cases h

/-- Selecting moves nothing but the mark of the current call, to one that the descriptor is
about. -/
theorem select_eq_ok {cache : Cache} {contract : Address} {selector : Selector} {chain : ChainId}
    {s' : CallStack} (h : s.select cache contract selector chain = .ok s') :
    s'.slots = s.slots ∧ ∃ slot c, s'.current = some slot ∧ s.call? slot = some c ∧
      c.answers cache contract selector chain = true := by
  unfold select at h
  split at h
  · cases h
  · rename_i slot hfind
    cases h
    obtain ⟨c, hcall⟩ := mem_places.mp (List.mem_of_find?_eq_some hfind)
    have hanswers := List.find?_some hfind
    rw [hcall, Option.any_some] at hanswers
    exact ⟨rfl, slot, c, rfl, hcall, hanswers⟩

/-- No call before the selected one is one that the descriptor is about. -/
theorem le_of_select {cache : Cache} {contract : Address} {selector : Selector} {chain : ChainId}
    {s' : CallStack} {slot i : Nat} {c : Call}
    (h : s.select cache contract selector chain = .ok s') (hslot : s'.current = some slot)
    (hcall : s.call? i = some c) (hanswers : c.answers cache contract selector chain = true) :
    slot ≤ i := by
  unfold select places at h
  split at h
  · cases h
  · rename_i first hfind
    cases h
    obtain rfl : first = slot := Option.some.inj hslot
    rw [List.find?_filter, List.find?_range_eq_some] at hfind
    obtain ⟨-, -, hbefore⟩ := hfind
    apply Nat.le_of_not_lt
    intro hi
    have hskipped := hbefore i hi
    simp [hcall, hanswers] at hskipped

/-- A descriptor is about no call without arguments. -/
theorem isSome_of_answers {c : Call} {cache : Cache} {contract : Address} {selector : Selector}
    {chain : ChainId} (h : c.answers cache contract selector chain = true) :
    c.calldata.isSome = true := by
  unfold Call.answers Call.selector? at h
  cases hdata : c.calldata with
  | none => simp [hdata] at h
  | some data => rfl

end CallStack

end ClearSign
