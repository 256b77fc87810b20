import ClearSign.Proofs.Path.Loops
import ClearSign.Proofs.Path.Registers
import ClearSign.Proofs.Path.Words

/-!
Registers read what a path leads to. Along a reading they track the loops it goes through, so that
a pass meets the arrays of the pass before with the sizes they had, no counter is used beyond its
array, and the passes end where those of the reading do.
-/

namespace ClearSign

open Odometer

/-- What reading comes to from a cursor in front of some elements on. -/
def DataPath.Rest (args : Calldata) (es ahead : List Element) (c : Cursor)
    (result : Except Error Captures) : Prop :=
  (∃ e, Cursor.pass args ahead c = .error e ∧ result = .error e) ∨
  ∃ d, Cursor.pass args ahead c = .ok d ∧
    ((advance d.counters = [] ∧ result = .ok d.captures) ∨
      advance d.counters ≠ [] ∧
        ∃ hvalid, passes args es (advance d.counters) hvalid d.captures = result)

namespace DataPath

variable {args : Calldata} {es ahead : List Element} {c : Cursor} {result : Except Error Captures}

theorem rest_of_passes {counters : List Nat} {hvalid : Valid counters} {captures : Captures}
    (h : passes args es counters hvalid captures = result) :
    Rest args es es (Cursor.start counters captures) result := by
  cases hpass : Cursor.pass args es (Cursor.start counters captures) with
  | error e => exact .inl ⟨e, hpass, by rw [← h, passes_of_error hvalid hpass]⟩
  | ok d =>
    obtain ⟨hdone, hmore⟩ := passes_of_pass hvalid hpass
    have hcounters := Cursor.counters_pass hpass (by simpa [Cursor.start, Cursor.counters])
    refine .inr ⟨d, hpass, ?_⟩
    by_cases hlast : advance d.counters = []
    · exact .inl ⟨hlast, by rw [← h, hdone hlast]⟩
    · have hnext := valid_advance hcounters.2
      exact .inr ⟨hlast, hnext, by rw [← h, hmore hnext hlast]⟩

theorem Rest.refused {e : Element} {err : Error} (h : Rest args es (e :: ahead) c result)
    (hstep : Cursor.step args c e = .error err) : result = .error err := by
  unfold Rest Cursor.pass at h
  rw [List.foldlM_cons, hstep] at h
  obtain ⟨e', he', hresult⟩ | ⟨d, hd, -⟩ := h
  · cases he'
    exact hresult
  · cases hd

theorem Rest.next {e : Element} {d : Cursor} (h : Rest args es (e :: ahead) c result)
    (hstep : Cursor.step args c e = .ok d) : Rest args es ahead d result := by
  unfold Rest Cursor.pass at h
  rwa [List.foldlM_cons, hstep] at h

end DataPath

namespace Registers

variable {args : Calldata} {es ahead : List Element} {r : Registers} {loops : List Loop}

/-- A counter in use is that of its loop. -/
theorem exists_counter (hcounters : r.counters = loops.map Loop.left) {i : Nat} {l : Loop}
    (hl : loops[i]? = some l) : ∃ c, r.left[i]? = some c ∧ c.toNat = l.left := by
  have hi : r.counters[i]? = some l.left := by
    rw [hcounters, List.getElem?_map, hl]
    rfl
  unfold counters at hi
  rw [List.getElem?_map, Option.map_eq_some_iff] at hi
  obtain ⟨c, hc, hleft⟩ := hi
  rw [List.getElem?_take] at hc
  split at hc
  · exact ⟨c, by simpa using hc, hleft⟩
  · cases hc

/-- The registers stand where reading does: the loops passed and those that are gone through again
have their counters, the way to the next pass is that of the pass before as far as there are
counters, and what is still to be read comes to the result. -/
structure Tracks (args : Calldata) (es : List Element) (result : Except Error Captures)
    (r : Registers) (ahead : List Element) (passed pending : List Loop) : Prop where
  depth : r.depth = (passed ++ pending).length
  counters : r.counters = (passed ++ pending).map Loop.left
  opened : r.opened.take r.depth = (passed ++ pending).map Loop.span
  behind : Spot.Along args Spot.start es passed r.spot ahead
  further : ∃ t rest, Spot.Along args r.spot ahead pending t rest
  rest : DataPath.Rest args es ahead (r.spot.cursor (passed.map Loop.left).reverse
    (pending.map Loop.left) r.captures) result

section

variable {result : Except Error Captures} {passed pending : List Loop}

theorem Tracks.level (h : r.Tracks args es result ahead passed pending) :
    r.spot.level = passed.length := by
  rw [h.behind.level]
  exact Nat.zero_add _

theorem Tracks.way (h : r.Tracks args es result ahead passed pending) :
    ∃ t rest, Spot.Along args Spot.start es (passed ++ pending) t rest := by
  obtain ⟨t, rest, hfurther⟩ := h.further
  exact ⟨t, rest, h.behind.trans hfurther⟩

theorem Tracks.depth_le (h : r.Tracks args es result ahead passed pending) : r.depth ≤ 8 := by
  obtain ⟨t, rest, hway⟩ := h.way
  have hlevel := hway.level
  have hle := hway.level_le (Nat.zero_le _)
  have hstart : Spot.start.level = 0 := rfl
  rw [h.depth]
  unfold maxDepth at hle
  omega

theorem Tracks.valid (h : r.Tracks args es result ahead passed pending) : Valid r.counters := by
  obtain ⟨t, rest, hway⟩ := h.way
  rw [h.counters]
  constructor
  · rw [List.length_map, ← h.depth]
    exact h.depth_le
  · intro c hc
    obtain ⟨l, hl, rfl⟩ := List.mem_map.mp hc
    obtain ⟨hpos, hle, hspan⟩ := hway.bounds l hl
    exact ⟨hpos, Nat.lt_of_le_of_lt hle hspan⟩

/-- The counter of a loop is within the size that its array had. -/
theorem Tracks.countsWithin (h : r.Tracks args es result ahead passed pending) {i : Nat}
    {l : Loop} (hl : (passed ++ pending)[i]? = some l) : r.CountsWithin i l.span := by
  obtain ⟨t, rest, hway⟩ := h.way
  obtain ⟨hpos, hle, hspan⟩ := hway.bounds l (List.mem_of_getElem? hl)
  obtain ⟨c, hc, hleft⟩ := exists_counter h.counters hl
  refine ⟨?_, hspan, c, hc, by omega, by omega⟩
  have hopened : (r.opened.take r.depth)[i]? = some l.span := by
    rw [h.opened, List.getElem?_map, hl]
    rfl
  rw [List.getElem?_take] at hopened
  split at hopened
  · exact hopened
  · cases hopened

theorem Tracks.sound (h : r.Tracks args es result ahead passed pending) : r.Sound args ahead where
  index_le := by
    rw [h.level, h.depth, List.length_append]
    exact Nat.le_add_right _ _
  depth_le := h.depth_le
  array := by
    rintro weight w rest first stop rfl hw
    have hlt := Spot.window_bounds hw
    refine ⟨Spot.level_lt_of_window hw, by omega, Spot.span_lt_radix hw, ?_⟩
    intro hreplay
    rw [h.level] at hreplay ⊢
    rw [h.depth, List.length_append] at hreplay
    obtain ⟨t, rest', hfurther⟩ := h.further
    cases hfurther with
    | here => simp at hreplay
    | @array _ _ _ _ inner _ first' stop' left _ hw' hpos hle _ =>
      cases hw.symm.trans hw'
      exact h.countsWithin (l := ⟨left, stop - first⟩) (by simp)
    | other he => exact absurd rfl (he weight w)
  turn := by
    rintro rfl i hi
    rw [h.depth] at hi
    exact ⟨_, h.countsWithin (List.getElem?_eq_getElem hi)⟩

/-- What an array has to go by once it has a counter: its loop stands behind those passed, and the
registers hold the counters of all. -/
structure Meets (args : Calldata) (r r' : Registers) (ahead : List Element)
    (passed pending : List Loop) (weight : UInt8) (stop : Nat) (l : Loop) (inner : List Loop) :
    Prop where
  spot : r'.spot = r.spot
  captures : r'.captures = r.captures
  depth : r'.depth = (passed ++ l :: inner).length
  counters : r'.counters = (passed ++ l :: inner).map Loop.left
  opened : r'.opened.take r'.depth = (passed ++ l :: inner).map Loop.span
  left_eq : l.left = (pending.map Loop.left).headD l.span
  inner_eq : inner.map Loop.left = (pending.map Loop.left).tail
  left_pos : 0 < l.left
  left_le : l.left ≤ l.span
  further : ∃ t rest, Spot.Along args (r.spot.enter weight (stop - l.left)) ahead inner t rest
  rank_le : rank maxDepth r'.counters ≤ rank maxDepth r.counters

variable {weight : UInt8} {w : Window} {first stop : Nat}

/-- An array that has no counter yet takes the next one. -/
theorem Tracks.meets_first
    (h : r.Tracks args es result (.array weight w :: ahead) passed [])
    (hw : r.spot.window args w = .ok (first, stop)) :
    ∃ r', r.meet (stop - first) = .ok r' ∧
      r.Meets args r' ahead passed [] weight stop ⟨stop - first, stop - first⟩ [] := by
  have hlevel := h.level
  have hdepth := h.depth
  have hcounters := h.counters
  have hopened := h.opened
  rw [List.append_nil] at hdepth hcounters hopened
  have hroom : r.depth < 8 := by
    rw [hdepth, ← hlevel]
    exact Spot.level_lt_of_window hw
  have hlt := Spot.window_bounds hw
  have hradix := Spot.span_lt_radix hw
  have hspan : (UInt16.ofNat (stop - first)).toNat = stop - first :=
    UInt16.toNat_ofNat_of_lt hradix
  have hsame : r.spot.level = r.depth := by rw [hlevel, hdepth]
  let r' : Registers := { r with
    left := r.left.set r.depth (UInt16.ofNat (stop - first)) hroom
    depth := r.depth + 1
    opened := r.opened.take r.depth ++ [stop - first] }
  have hr' : r'.counters = passed.map Loop.left ++ [stop - first] := by
    show List.map UInt16.toNat (List.take (r.depth + 1) (r.left.set r.depth _ hroom).toList) = _
    rw [take_set hroom, List.map_append, List.map_singleton, hspan]
    congr 1
  refine ⟨r', ?_, ?_⟩
  · unfold meet
    rw [if_pos hsame, hsame, store_eq hroom]
    rfl
  · have hlength : (r.opened.take r.depth ++ [stop - first]).length = r.depth + 1 := by
      rw [hopened, List.length_append, List.length_map, List.length_singleton, hdepth]
    exact {
      spot := rfl
      captures := rfl
      depth := by simp [r', hdepth]
      counters := by simp [hr']
      opened := by
        show List.take (r.depth + 1) _ = _
        rw [List.take_of_length_le (Nat.le_of_eq hlength), hopened]
        simp
      left_eq := rfl
      inner_eq := rfl
      left_pos := by show 0 < stop - first; omega
      left_le := Nat.le_refl _
      further := ⟨_, _, .here _ _⟩
      rank_le := by
        rw [hcounters, hr']
        exact rank_append_le _ _ _ fun c hc => counters_lt (hr' ▸ hc) }

/-- An array that has a counter is the one that took it. -/
theorem Tracks.meets_again {l : Loop} {inner : List Loop}
    (h : r.Tracks args es result (.array weight w :: ahead) passed (l :: inner))
    (hw : r.spot.window args w = .ok (first, stop)) :
    r.meet (stop - first) = .ok r ∧
      r.Meets args r ahead passed (l :: inner) weight stop l inner ∧ l.span = stop - first := by
  have hlater : r.spot.level ≠ r.depth := by
    rw [h.level, h.depth]
    simp
  obtain ⟨t, rest, hfurther⟩ := h.further
  cases hfurther with
  | array _ hw' hpos hle hinner =>
    cases hw.symm.trans hw'
    exact ⟨if_neg hlater, ⟨rfl, rfl, h.depth, h.counters, h.opened, rfl, rfl, hpos, hle,
      ⟨t, rest, hinner⟩, Nat.le_refl _⟩, rfl⟩
  | other he => exact absurd rfl (he weight w)

/-- The place that an array is entered at is counted from the end of its window. -/
theorem Meets.pass_eq {r' : Registers} {l : Loop} {inner : List Loop}
    (h : r.Meets args r' ahead passed pending weight stop l inner)
    (hlevel : r.spot.level = passed.length)
    (hw : r.spot.window args w = .ok (first, stop)) (hspan : l.span = stop - first)
    (hmeet : r.meet (stop - first) = .ok r') :
    r.pass args (.array weight w) =
      .ok { r' with spot := r.spot.enter weight (stop - l.left) } := by
  have hradix := Spot.span_lt_radix hw
  have hlt := Spot.window_bounds hw
  have hle := h.left_le
  obtain ⟨c, hc, hleft⟩ := exists_counter (i := r.spot.level) (l := l) h.counters (by
    rw [hlevel]
    simp)
  have hnat : (UInt16.ofNat (stop - first)).toNat = stop - first :=
    UInt16.toNat_ofNat_of_lt hradix
  have hcount : c ≤ UInt16.ofNat (stop - first) := by
    rw [UInt16.le_iff_toNat_le, hnat, hleft, ← hspan]
    exact hle
  have hplace : first + (UInt16.ofNat (stop - first) - c).toNat = stop - l.left := by
    rw [UInt16.toNat_sub_of_le _ _ hcount, hnat, hleft]
    omega
  simp only [pass, hw, hmeet, counter_eq hc, less_eq hcount, hplace, h.spot, refuse,
    Except.mapError, bind, Except.bind, pure, Except.pure]

/-- An element goes as it does for a cursor, and the registers track what is ahead of it. -/
def Follows (args : Calldata) (es : List Element) (result : Except Error Captures) (r : Registers)
    (e : Element) (ahead : List Element) : Prop :=
  (∃ err, r.pass args e = .error (.refused err) ∧ result = .error err) ∨
    ∃ r' passed pending, r.pass args e = .ok r' ∧ r'.Tracks args es result ahead passed pending ∧
      rank maxDepth r'.counters ≤ rank maxDepth r.counters

theorem Tracks.pass_array
    (h : r.Tracks args es result (.array weight w :: ahead) passed pending) :
    r.Follows args es result (.array weight w) ahead := by
  obtain ⟨t, rest, hfurther⟩ := h.further
  have hlevel : (passed.map Loop.left).reverse.length = r.spot.level := by
    rw [List.length_reverse, List.length_map, h.level]
  have henter := Spot.enter_cursor r.captures hlevel hfurther.counts
  cases hw : r.spot.window args w with
  | error e =>
    rw [hw] at henter
    refine .inl ⟨e, ?_, h.rest.refused henter⟩
    simp only [pass, hw, refuse, Except.mapError, bind, Except.bind]
  | ok bounds =>
    obtain ⟨first, stop⟩ := bounds
    rw [hw] at henter
    have hrest := h.rest.next henter
    -- without a pending loop the array is met for the first time
    obtain ⟨met, l, inner, hmeet, hmeets, hspan⟩ : ∃ met l inner,
        r.meet (stop - first) = .ok met ∧
          r.Meets args met ahead passed pending weight stop l inner ∧ l.span = stop - first := by
      cases pending with
      | nil =>
        obtain ⟨met, hmeet, hmeets⟩ := h.meets_first hw
        exact ⟨met, _, [], hmeet, hmeets, rfl⟩
      | cons l inner => exact ⟨r, l, inner, h.meets_again hw⟩
    have happend : (passed ++ [l]) ++ inner = passed ++ l :: inner := by simp
    have hbehind := h.behind.trans
      (.array weight hw hmeets.left_pos (hspan ▸ hmeets.left_le) (.here _ _))
    refine .inr ⟨_, passed ++ [l], inner, hmeets.pass_eq h.level hw hspan hmeet, ?_,
      hmeets.rank_le⟩
    exact {
      depth := happend.symm ▸ hmeets.depth
      counters := happend.symm ▸ hmeets.counters
      opened := happend.symm ▸ hmeets.opened
      behind := by
        rw [← hspan] at hbehind
        exact hbehind
      further := hmeets.further
      rest := by
        rw [List.map_append, List.reverse_append, hmeets.inner_eq, hmeets.captures]
        show DataPath.Rest args es ahead
          ((r.spot.enter weight (stop - l.left)).cursor (l.left :: _) _ _) result
        rw [hmeets.left_eq, hspan]
        exact hrest }

theorem Tracks.pass_other {e : Element} (he : ∀ weight w, e ≠ .array weight w)
    (h : r.Tracks args es result (e :: ahead) passed pending) :
    r.Follows args es result e ahead := by
  have hopens : ([] : Captures) = [] ∨ r.captures ≠ [] ∨ Spot.Opens (e :: ahead) := .inl rfl
  have hcursor := Spot.step_cursor args r.spot (passed.map Loop.left).reverse
    (pending.map Loop.left) [] r.captures he hopens
  simp only [List.nil_append, List.length_nil, Nat.sub_zero] at hcursor
  have hpass := r.pass_of_ne args he
  cases htake : Spot.take args Captures.capacity r.spot r.captures e with
  | error err =>
    rw [htake] at hcursor hpass
    exact .inl ⟨err, hpass, h.rest.refused hcursor⟩
  | ok captures =>
    cases hmove : r.spot.move args e with
    | error err =>
      rw [htake, hmove] at hcursor hpass
      exact .inl ⟨err, hpass, h.rest.refused hcursor⟩
    | ok u =>
      rw [htake, hmove] at hcursor hpass
      refine .inr ⟨_, passed, pending, hpass, ?_, Nat.le_refl _⟩
      exact {
        depth := h.depth
        counters := h.counters
        opened := h.opened
        behind := List.append_nil passed ▸ h.behind.trans (.other he hmove (.here _ _))
        further := by
          obtain ⟨t, rest, hfurther⟩ := h.further
          cases hfurther with
          | here => exact ⟨u, ahead, .here _ _⟩
          | array weight => exact absurd rfl (he weight _)
          | other _ hmove' hfurther =>
            cases hmove.symm.trans hmove'
            exact ⟨t, rest, hfurther⟩
        rest := h.rest.next hcursor }

/-- At the end of a pass the counters advance: reading is done, or the next pass starts with those
that are kept. -/
theorem Tracks.turn (h : r.Tracks args es result [] passed pending) :
    ∃ left, turn r.depth r.left = .ok ((advance r.counters).length, left) ∧
      ((advance r.counters = [] ∧ result = .ok r.captures) ∨
        advance r.counters ≠ [] ∧ ∃ r' : Registers,
          r' = { r with spot := Spot.start, depth := (advance r.counters).length, left } ∧
            r'.counters = advance r.counters ∧ ∃ kept, r'.Tracks args es result es [] kept) := by
  obtain ⟨t, rest, hfurther⟩ := h.further
  obtain rfl := hfurther.eq_nil
  have hdepth := h.depth
  have hcounters := h.counters
  have hopened := h.opened
  rw [List.append_nil] at hdepth hcounters hopened
  have hlength : r.counters.length = r.depth := by rw [hcounters, List.length_map, hdepth]
  have hself : (r.left.toList.take r.counters.length).map UInt16.toNat = r.counters := by
    rw [hlength]
    rfl
  obtain ⟨left, hturn, hleft⟩ := turn_eq h.valid.1 hself fun c hc => (h.valid.2 c hc).1
  rw [hlength] at hturn
  refine ⟨left, hturn, ?_⟩
  have hmet : (r.spot.cursor (passed.map Loop.left).reverse [] r.captures).counters =
      r.counters := by
    simp [Spot.cursor, Cursor.counters, hcounters]
  obtain ⟨e, he, -⟩ | ⟨d, hd, hends⟩ := h.rest
  · cases he
  cases hd
  have hends' := hmet ▸ hends
  obtain ⟨hdone, hresult⟩ | ⟨hmore, hvalid, hpasses⟩ := hends'
  · exact .inl ⟨hdone, hresult⟩
  · -- the loops that are kept lie on the way that was just gone, so the next pass meets them again
    obtain ⟨kept, u, rest, hkept, hkeptLeft, hkeptSpan⟩ := h.behind.advance
    rw [← hcounters] at hkeptLeft
    have hkeptLength : kept.length = (advance r.counters).length := by
      rw [← hkeptLeft, List.length_map]
    refine .inr ⟨hmore, _, rfl, hleft, kept, ?_⟩
    exact {
      depth := hkeptLength.symm
      counters := hleft.trans hkeptLeft.symm
      opened := by
        have hle := length_advance_le r.counters
        show r.opened.take (advance r.counters).length = _
        rw [List.nil_append, hkeptSpan, ← hopened, hkeptLength, List.take_take,
          Nat.min_eq_left (by omega)]
      behind := .here _ _
      further := ⟨u, rest, hkept⟩
      rest := by
        show DataPath.Rest args es es (Cursor.start (kept.map Loop.left) r.captures) result
        rw [hkeptLeft]
        exact DataPath.rest_of_passes hpasses }

/-- The first pass starts without counters. -/
theorem tracks_start (h : DataPath.passes args es [] valid_nil [] = result) :
    Tracks args es result ⟨Spot.start, 0, Vector.replicate 8 0, [], []⟩ es [] [] where
  depth := rfl
  counters := rfl
  opened := rfl
  behind := .here _ _
  further := ⟨_, _, .here _ _⟩
  rest := DataPath.rest_of_passes h

/-- A step ends with the result, or leads on with fewer passes or fewer elements ahead. -/
theorem Tracks.step (h : r.Tracks args es result ahead passed pending) :
    step args es (.going r ahead) = .ended (refuse result) ∨
      ∃ r' ahead' passed' pending', step args es (.going r ahead) = .going r' ahead' ∧
        r'.Tracks args es result ahead' passed' pending' ∧
        Prod.Lex (· < ·) (· < ·) (rank maxDepth r'.counters, ahead'.length)
          (rank maxDepth r.counters, ahead.length) := by
  cases ahead with
  | cons e ahead =>
    have hfollows : r.Follows args es result e ahead := by
      by_cases he : ∃ weight w, e = .array weight w
      · obtain ⟨weight, w, rfl⟩ := he
        exact h.pass_array
      · exact h.pass_other fun weight w harray => he ⟨weight, w, harray⟩
    obtain ⟨err, hpass, rfl⟩ | ⟨r', passed', pending', hpass, htracks, hrank⟩ := hfollows
    · left
      simp only [Registers.step, hpass]
      rfl
    · refine .inr ⟨r', ahead, passed', pending', by simp only [Registers.step, hpass], htracks, ?_⟩
      obtain hlt | heq := Nat.lt_or_eq_of_le hrank
      · exact .left _ _ hlt
      · rw [heq]
        exact .right _ (Nat.lt_succ_self _)
  | nil =>
    obtain ⟨left, hturn, hends⟩ := h.turn
    obtain ⟨hdone, rfl⟩ | ⟨hmore, r', rfl, hcounters, kept, htracks⟩ := hends
    · left
      rw [hdone] at hturn
      simp only [Registers.step, hturn]
      rfl
    · obtain ⟨c, cs, hadvance⟩ := List.exists_cons_of_ne_nil hmore
      refine .inr ⟨_, es, [], kept, ?_, htracks, .left _ _ ?_⟩
      · rw [hadvance] at hturn ⊢
        simp only [Registers.step, hturn, List.length_cons]
      · rw [hcounters]
        exact rank_advance h.valid.1 h.valid.2 hmore

/-- The passes lower the rank, and on one pass the elements ahead grow fewer. -/
theorem Tracks.ends {n : Nat} {r : Registers} {ahead : List Element} {passed pending : List Loop}
    (h : r.Tracks args es result ahead passed pending)
    (hrun : run args es n = .going r ahead) :
    ∃ n, run args es n = .ended (refuse result) := by
  have hnext : run args es (n + 1) = Registers.step args es (.going r ahead) := by rw [← hrun]; rfl
  obtain hend | ⟨r', ahead', passed', pending', hstep, htracks, hlt⟩ := h.step
  · exact ⟨n + 1, hnext.trans hend⟩
  · exact htracks.ends (hnext.trans hstep)
termination_by (rank maxDepth r.counters, ahead.length)
decreasing_by exact hlt

/-- Wherever reading stands, the registers track it, or the result is there. -/
def Stage.Tracked (args : Calldata) (es : List Element) (result : Except Error Captures) :
    Stage → Prop
  | .going r ahead => ∃ passed pending, r.Tracks args es result ahead passed pending
  | .ended s => s = refuse result

theorem Stage.Tracked.step {s : Stage} (h : s.Tracked args es result) :
    (Registers.step args es s).Tracked args es result := by
  cases s with
  | going r ahead =>
    obtain ⟨passed, pending, htracks⟩ := h
    obtain hend | ⟨r', ahead', passed', pending', hstep, htracks', -⟩ := htracks.step
    · rw [hend]
      rfl
    · rw [hstep]
      exact ⟨passed', pending', htracks'⟩
  | ended s => exact h

theorem Stage.Tracked.sound {s : Stage} (h : s.Tracked args es result) : s.Sound args := by
  cases s with
  | going r ahead =>
    obtain ⟨passed, pending, htracks⟩ := h
    exact htracks.sound
  | ended s =>
    obtain rfl := h
    cases result <;> intro hfault <;> cases hfault

theorem run_tracked (h : DataPath.passes args es [] valid_nil [] = result) (n : Nat) :
    (run args es n).Tracked args es result := by
  induction n with
  | zero => exact ⟨[], [], tracks_start h⟩
  | succ n ih => exact ih.step

end

end Registers

/-- Registers come to what the path leads to, or to the objection of the same pass, after finitely
many steps. No step uses a counter outside of the eight or takes a difference below zero: in front
of every array and at the end of every pass, the counters in use have passes left, as many at most
as the array had places when it took the counter, and it has that many places again. -/
theorem DataPath.run_sound (p : DataPath) (args : Calldata) :
    (∃ n, Registers.run args p.elements n = .ended (Registers.refuse (p.read args))) ∧
      ∀ n, (Registers.run args p.elements n).Sound args :=
  ⟨(Registers.tracks_start rfl).ends (n := 0) rfl, fun n => (Registers.run_tracked rfl n).sound⟩

end ClearSign
