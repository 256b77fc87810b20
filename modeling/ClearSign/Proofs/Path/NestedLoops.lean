import ClearSign.Path.Walk

/-!
A path read as nested loops. The arrays of the path are the loops, the first one outermost. For
each choice of one place in each array the whole path is gone through once, from the first word
on, and the captures of all choices stand one behind the other. `read_eq_readNested`: reading with
counters comes to the same captures and to the same objection.
-/

namespace ClearSign

/-- A place in a call, and how many arrays were passed on the way to it. -/
structure Spot where
  position : Nat
  /-- The word that references count from. -/
  base : Nat
  level : Nat

namespace Spot

def start : Spot := ⟨0, 0, 0⟩

/-- The window of the array at hand, unless it lies too deep. -/
def window (args : Calldata) (s : Spot) (w : Window) : Except Error (Nat × Nat) :=
  if Odometer.maxDepth ≤ s.level then .error .limitExceeded
  else do w.resolve (lowHalf (← args.word s.position))

/-- Goes to one place of the array at hand. -/
def enter (s : Spot) (weight : UInt8) (place : Nat) : Spot :=
  ⟨s.position + 1 + place * weight.toNat, s.position + 1, s.level + 1⟩

/-- Goes past an element that is no array. -/
def move (args : Calldata) (s : Spot) : Element → Except Error Spot
  | .tuple skip => .ok { s with base := s.position, position := s.position + skip.toNat }
  | .ref => do return { s with position := lowHalf (← args.word s.position) / 32 + s.base }
  | .leaf kind => .ok { s with position := s.position + if kind = .dynamic then 1 else 0 }
  | .slice _ | .array .. => .ok s

/-- All choices of places in the arrays ahead, the first array slowest. A choice ends early where
the path cannot be followed to the next array, or its window fails. -/
def choices (args : Calldata) : Spot → List Element → List (List Nat)
  | _, [] => [[]]
  | s, .array weight w :: es =>
    match s.window args w with
    | .error _ => [[]]
    | .ok (first, stop) =>
      (List.range' first (stop - first)).flatMap fun i =>
        (choices args (s.enter weight i) es).map (i :: ·)
  | s, e :: es =>
    match s.move args e with
    | .error _ => [[]]
    | .ok t => choices args t es

/-- The captures of one pass with one more, if there is room. -/
def add (room : Nat) (own : Captures) (bs : Bytes) : Except Error Captures :=
  if own.length < room then .ok (own ++ [Capture.whole bs]) else .error .limitExceeded

/-- The captures of one pass after an element that is no array. -/
def take (args : Calldata) (room : Nat) (s : Spot) (own : Captures) :
    Element → Except Error Captures
  | .leaf .static => do add room own (← Cursor.readBytes args s.position 32)
  | .leaf .dynamic => do
    let length := lowHalf (← args.word s.position)
    add room own (← Cursor.readBytes args (s.position + 1) length)
  | .leaf _ => .error .invalidValue
  | .slice w => own.narrowLast w
  | _ => .ok own

/-- One pass along the elements with the places that were chosen, and what it captures. -/
def once (args : Calldata) (room : Nat) :
    Spot → List Nat → Captures → List Element → Except Error Captures
  | _, _, own, [] => .ok own
  | s, places, own, .array weight w :: es => do
    let (first, _) ← s.window args w
    once args room (s.enter weight (places.headD first)) places.tail own es
  | s, places, own, e :: es => do
    let own ← take args room s own e
    once args room (← s.move args e) places own es

/-- What was captured so far, and behind it the captures of one pass from the first word on. -/
def further (args : Calldata) (es : List Element) (read : Captures) (places : List Nat) :
    Except Error Captures := do
  let own ← start.once args (Captures.capacity - read.length) places [] es
  return read ++ own

end Spot

/-- The captures of one pass for each choice, one behind the other. -/
def DataPath.readNested (p : DataPath) (args : Calldata) : Except Error Captures :=
  (Spot.start.choices args p.elements).foldlM (Spot.further args p.elements) []

namespace Captures

theorem narrowLast_append (prior own : Captures) (w : Window) (h : own ≠ []) :
    narrowLast (prior ++ own) w = (narrowLast own w).map (prior ++ ·) := by
  obtain ⟨init, last, rfl⟩ : ∃ init last, own = init ++ [last] :=
    ⟨own.dropLast, own.getLast h, (List.dropLast_concat_getLast h).symm⟩
  rw [← List.append_assoc]
  simp only [narrowLast, List.getLast?_concat, List.dropLast_concat]
  cases last.narrow w with
  | error e => rfl
  | ok c => simp [Except.map]

theorem narrowLast_ne_nil {own own' : Captures} {w : Window} (h : narrowLast own w = .ok own') :
    own ≠ [] ∧ own' ≠ [] := by
  unfold narrowLast at h
  cases hlast : own.getLast? with
  | none => simp [hlast] at h
  | some c =>
    have hne : own ≠ [] := by
      rintro rfl
      simp at hlast
    rw [hlast] at h
    cases hc : c.narrow w with
    | error e => simp [hc, Except.map] at h
    | ok d =>
      simp only [hc, Except.map, Except.ok.injEq] at h
      exact ⟨hne, by rw [← h]; simp⟩

end Captures

namespace Spot

/-- The place of a pass, with the counters it carries and the captures of all passes so far. -/
def cursor (s : Spot) (visited pending : List Nat) (captures : Captures) : Cursor :=
  ⟨s.position, s.base, visited, pending, captures⟩

theorem capture_cursor (s : Spot) (visited pending : List Nat) (prior own : Captures)
    (bs : Bytes) :
    (s.cursor visited pending (prior ++ own)).capture bs =
      (add (Captures.capacity - prior.length) own bs).map
        fun own => s.cursor visited pending (prior ++ own) := by
  have room : (prior ++ own).length < Captures.capacity ↔
      own.length < Captures.capacity - prior.length := by
    rw [List.length_append]; omega
  simp only [Cursor.capture, Captures.push, add, cursor, room]
  split
  · simp [Except.map, bind, Except.bind, pure, Except.pure]
  · rfl

/-- No slice comes before the first leaf. -/
def Opens : List Element → Prop
  | [] => True
  | .leaf _ :: _ => True
  | .slice _ :: _ => False
  | _ :: es => Opens es

/-- A pass that starts without captures of its own only ends well if it captures before it
narrows. -/
theorem opens_of_once {args : Calldata} {room : Nat} {es : List Element} {own : Captures} :
    ∀ {s : Spot} {places : List Nat}, s.once args room places [] es = .ok own → Opens es := by
  induction es with
  | nil => intro s places _; trivial
  | cons e es ih =>
    intro s places h
    cases e with
    | leaf kind => trivial
    | slice w =>
      simp [once, take, Captures.narrowLast, bind, Except.bind] at h
    | array weight w =>
      simp only [once] at h
      cases hw : s.window args w with
      | error e => simp [hw, bind, Except.bind] at h
      | ok bounds => rw [hw] at h; exact ih h
    | tuple skip => exact ih h
    | ref =>
      simp only [once, take] at h
      cases hm : s.move args .ref with
      | error e => simp [hm, bind, Except.bind] at h
      | ok t =>
        rw [hm] at h
        exact ih h

/-- One element that is no array, with what earlier passes captured kept in front. -/
theorem step_cursor (args : Calldata) (s : Spot) (visited pending : List Nat)
    (prior own : Captures) {e : Element} {es : List Element}
    (he : ∀ weight w, e ≠ .array weight w) (h : prior = [] ∨ own ≠ [] ∨ Opens (e :: es)) :
    Cursor.step args (s.cursor visited pending (prior ++ own)) e = (do
      let own ← take args (Captures.capacity - prior.length) s own e
      let t ← s.move args e
      return t.cursor visited pending (prior ++ own)) := by
  cases e with
  | array weight w => exact absurd rfl (he weight w)
  | tuple skip => rfl
  | ref =>
    simp only [Cursor.step, take, move, cursor]
    cases args.word s.position <;> rfl
  | leaf kind =>
    cases kind with
    | array | tuple => rfl
    | static =>
      simp only [Cursor.step, take, move, capture_cursor]
      change (Cursor.readBytes args s.position 32 >>= _) = _
      cases Cursor.readBytes args s.position 32 with
      | error e => rfl
      | ok bs => cases hadd : add (Captures.capacity - prior.length) own bs <;>
          simp [hadd, bind, Except.bind, Except.map, pure, Except.pure]
    | dynamic =>
      simp only [Cursor.step, take, move]
      change (args.word s.position >>= _) = _
      cases args.word s.position with
      | error e => rfl
      | ok word =>
        change (Cursor.readBytes args (s.position + 1) (lowHalf word) >>= _) = _
        cases hread : Cursor.readBytes args (s.position + 1) (lowHalf word) with
        | error e => simp [hread, bind, Except.bind]
        | ok bs =>
          have captured := capture_cursor { s with position := s.position + 1 } visited pending
            prior own bs
          simp only [cursor] at captured ⊢
          cases hadd : add (Captures.capacity - prior.length) own bs <;>
            simp_all [bind, Except.bind, Except.map, pure, Except.pure]
  | slice w =>
    simp only [Cursor.step, take, move, cursor]
    have split : Captures.narrowLast (prior ++ own) w =
        (Captures.narrowLast own w).map (prior ++ ·) := by
      rcases h with rfl | h | h
      · cases hn : Captures.narrowLast own w <;> simp [hn, Except.map]
      · exact Captures.narrowLast_append prior own w h
      · exact absurd h (by simp [Opens])
    rw [split]
    cases Captures.narrowLast own w <;> rfl

/-- After an element that is no array, a pass has captures of its own or has still to open. -/
theorem opens_of_take {args : Calldata} {room : Nat} {s : Spot} {own own' prior : Captures}
    {e : Element} {es : List Element} (h : take args room s own e = .ok own')
    (hopen : prior = [] ∨ own ≠ [] ∨ Opens (e :: es)) :
    prior = [] ∨ own' ≠ [] ∨ Opens es := by
  have add_ne_nil {bs : Bytes} (h : add room own bs = .ok own') : own' ≠ [] := by
    unfold add at h
    split at h
    · cases h; simp
    · cases h
  cases e with
  | slice w => exact .inr (.inl (Captures.narrowLast_ne_nil h).2)
  | array weight w => cases h; exact hopen
  | tuple skip => cases h; exact hopen
  | ref => cases h; exact hopen
  | leaf kind =>
    refine .inr (.inl ?_)
    cases kind with
    | array | tuple => cases h
    | static =>
      simp only [take, bind, Except.bind] at h
      split at h
      · cases h
      · exact add_ne_nil h
    | dynamic =>
      simp only [take, bind, Except.bind] at h
      split at h
      · cases h
      · split at h
        · cases h
        · exact add_ne_nil h

/-- The choices from the one that counters stand for on, that one included. -/
def remaining (args : Calldata) : Spot → List Element → List Nat → List (List Nat)
  | _, [], _ => [[]]
  | s, .array weight w :: es, counters =>
    match s.window args w with
    | .error _ => [[]]
    | .ok (first, stop) =>
      let left := counters.headD (stop - first)
      (remaining args (s.enter weight (stop - left)) es counters.tail).map ((stop - left) :: ·) ++
        (List.range' (stop - left + 1) (left - 1)).flatMap fun i =>
          (choices args (s.enter weight i) es).map (i :: ·)
  | s, e :: es, counters =>
    match s.move args e with
    | .error _ => [[]]
    | .ok t => remaining args t es counters

/-- Each counter counts passes of an array that the path leads to, within its window. -/
def Counts (args : Calldata) : Spot → List Element → List Nat → Prop
  | _, _, [] => True
  | _, [], _ :: _ => False
  | s, .array weight w :: es, left :: inner =>
    ∃ first stop, s.window args w = .ok (first, stop) ∧ 0 < left ∧ left ≤ stop - first ∧
      Counts args (s.enter weight (stop - left)) es inner
  | s, e :: es, left :: inner =>
    ∃ t, s.move args e = .ok t ∧ Counts args t es (left :: inner)

theorem window_bounds {args : Calldata} {s : Spot} {w : Window} {first stop : Nat}
    (h : s.window args w = .ok (first, stop)) : first < stop := by
  unfold window at h
  split at h
  · cases h
  · cases hword : args.word s.position with
    | error e => simp [hword, bind, Except.bind] at h
    | ok word =>
      rw [hword] at h
      exact (Window.resolve_bounds h).1

/-- Without counters all choices remain. -/
theorem remaining_nil (args : Calldata) (es : List Element) :
    ∀ s : Spot, remaining args s es [] = choices args s es := by
  induction es with
  | nil => intro s; rfl
  | cons e es ih =>
    intro s
    cases e with
    | array weight w =>
      simp only [remaining, choices]
      cases hw : s.window args w with
      | error e => rfl
      | ok bounds =>
        obtain ⟨first, stop⟩ := bounds
        have hlt := window_bounds hw
        have range : List.range' first (stop - first) =
            first :: List.range' (first + 1) (stop - first - 1) := by
          rw [← List.range'_succ]
          congr
          omega
        have hfirst : stop - (stop - first) = first := by omega
        simp only [List.headD_nil, List.tail_nil, hfirst, ih, range, List.flatMap_cons]
    | tuple | ref | leaf | slice =>
      simp only [remaining, choices]
      split
      · rfl
      · exact ih _

theorem remaining_ne_nil (args : Calldata) (es : List Element) :
    ∀ (s : Spot) (counters : List Nat), remaining args s es counters ≠ [] := by
  induction es with
  | nil => intro s counters; simp [remaining]
  | cons e es ih =>
    intro s counters
    cases e with
    | array weight w =>
      simp only [remaining]
      split
      · simp
      · intro h
        exact ih _ _ (List.map_eq_nil_iff.mp (List.append_eq_nil_iff.mp h).1)
    | tuple | ref | leaf | slice =>
      simp only [remaining]
      split
      · simp
      · exact ih _ _

theorem counts_nil (args : Calldata) (s : Spot) (es : List Element) : Counts args s es [] := by
  cases es <;> simp [Counts]

/-- Passing an array with a counter goes to the place that the counter stands for. -/
theorem enter_cursor {args : Calldata} {s : Spot} {visited counters : List Nat}
    (captures : Captures) {weight : UInt8} {w : Window} {es : List Element}
    (hlevel : visited.length = s.level) (hc : Counts args s (.array weight w :: es) counters) :
    (s.cursor visited counters captures).enter args weight w = (do
      let (first, stop) ← s.window args w
      let left := counters.headD (stop - first)
      return (s.enter weight (stop - left)).cursor (left :: visited) counters.tail captures) := by
  have place {first stop : Nat} (hw : s.window args w = .ok (first, stop)) :
      first + (stop - first - counters.headD (stop - first)) =
        stop - counters.headD (stop - first) := by
    have hlt := window_bounds hw
    cases counters with
    | nil => simp only [List.headD_nil]; omega
    | cons left inner =>
      obtain ⟨first', stop', hw', _, hle, _⟩ := hc
      rw [hw] at hw'
      cases hw'
      simp only [List.headD_cons]
      omega
  simp only [Cursor.enter, cursor, hlevel]
  unfold window at place ⊢
  split
  · rfl
  · cases hword : args.word s.position with
    | error e => rfl
    | ok word =>
      simp only [bind, Except.bind]
      cases hres : w.resolve (lowHalf word) with
      | error e => simp
      | ok bounds =>
        obtain ⟨first, stop⟩ := bounds
        have hplace := @place first stop (by simp_all [bind, Except.bind])
        simp only [enter, pure, Except.pure, hplace]

/-- What is left to do once a pass has ended well: its captures stand behind the earlier ones, and
the counters it leaves, advanced, stand for the choices that remain. -/
structure Ends (args : Calldata) (s : Spot) (es : List Element) (visited : List Nat)
    (captures : Captures) (rest : List (List Nat)) (d : Cursor) (met : List Nat) : Prop where
  captures_eq : d.captures = captures
  counters_eq : d.counters = visited.reverse ++ met
  counts : Counts args s es (Odometer.advance met)
  rest_eq : rest = if Odometer.advance met = [] then []
    else remaining args s es (Odometer.advance met)

/-- The counters of the loops inside an array, advanced, and those of the array itself. -/
theorem Ends.array {args : Calldata} {s : Spot} {es : List Element} {visited : List Nat}
    {captures : Captures} {rest : List (List Nat)} {d : Cursor} {met : List Nat} {weight : UInt8}
    {w : Window} {first stop left : Nat} (hw : s.window args w = .ok (first, stop))
    (hpos : 0 < left) (hle : left ≤ stop - first)
    (h : Ends args (s.enter weight (stop - left)) es (left :: visited) captures rest d met) :
    Ends args s (.array weight w :: es) visited captures
      (rest.map ((stop - left) :: ·) ++ (List.range' (stop - left + 1) (left - 1)).flatMap
        fun i => (choices args (s.enter weight i) es).map (i :: ·)) d (left :: met) := by
  refine ⟨h.captures_eq, by rw [h.counters_eq]; simp, ?_, ?_⟩
  · cases hadv : Odometer.advance met with
    | nil =>
      simp only [Odometer.advance, hadv]
      split
      · exact counts_nil _ _ _
      · exact ⟨first, stop, hw, by omega, by omega, counts_nil _ _ _⟩
    | cons c inner =>
      simp only [Odometer.advance, hadv]
      exact ⟨first, stop, hw, hpos, hle, hadv ▸ h.counts⟩
  · have hrest := h.rest_eq
    cases hadv : Odometer.advance met with
    | nil =>
      rw [hadv, if_pos rfl] at hrest
      simp only [Odometer.advance, hadv, hrest, List.map_nil, List.nil_append]
      by_cases hlast : left ≤ 1
      · have hzero : left - 1 = 0 := by omega
        simp [hlast, hzero]
      · have hsucc : left - 1 = (left - 2) + 1 := by omega
        have hnext : stop - (left - 1) = stop - left + 1 := by omega
        have htail : left - 1 - 1 = left - 2 := by omega
        simp only [if_neg hlast, reduceCtorEq, if_false, remaining, hw, List.headD_cons,
          List.tail_cons, remaining_nil, hnext, htail]
        rw [hsucc, List.range'_succ, List.flatMap_cons]
    | cons c inner =>
      rw [hadv, if_neg (List.cons_ne_nil _ _)] at hrest
      simp only [Odometer.advance, hadv, reduceCtorEq, if_false, remaining, hw, List.headD_cons,
        List.tail_cons, ← hrest]

/-- A pass with counters makes the first of the choices that the counters leave, and what it
leaves behind stands for the others. -/
def Runs (args : Calldata) (prior : Captures) (s : Spot) (visited counters : List Nat)
    (own : Captures) (es : List Element) : Prop :=
  ∃ places rest, remaining args s es counters = places :: rest ∧
    match s.once args (Captures.capacity - prior.length) places own es with
    | .error e => Cursor.pass args es (s.cursor visited counters (prior ++ own)) = .error e
    | .ok own' => ∃ d met,
      Cursor.pass args es (s.cursor visited counters (prior ++ own)) = .ok d ∧
        Ends args s es visited (prior ++ own') rest d met

theorem Runs.array {args : Calldata} {prior own : Captures} {s : Spot}
    {visited counters : List Nat} {weight : UInt8} {w : Window} {es : List Element}
    {first stop left : Nat} (hw : s.window args w = .ok (first, stop))
    (hleft : counters.headD (stop - first) = left) (hlevel : visited.length = s.level)
    (hc : Counts args s (.array weight w :: es) counters) (hpos : 0 < left)
    (hle : left ≤ stop - first)
    (h : Runs args prior (s.enter weight (stop - left)) (left :: visited) counters.tail own es) :
    Runs args prior s visited counters own (.array weight w :: es) := by
  obtain ⟨places, rest, hremaining, houtcome⟩ := h
  have honce : s.once args (Captures.capacity - prior.length) ((stop - left) :: places) own
      (.array weight w :: es) = (s.enter weight (stop - left)).once args
        (Captures.capacity - prior.length) places own es := by
    simp only [once, hw, bind, Except.bind, List.headD_cons, List.tail_cons]
  have hpass : Cursor.pass args (.array weight w :: es)
      (s.cursor visited counters (prior ++ own)) = Cursor.pass args es
        ((s.enter weight (stop - left)).cursor (left :: visited) counters.tail
          (prior ++ own)) := by
    simp only [Cursor.pass, List.foldlM_cons, Cursor.step, enter_cursor (prior ++ own) hlevel hc,
      hw, bind, Except.bind, hleft, pure, Except.pure]
  refine ⟨(stop - left) :: places, rest.map ((stop - left) :: ·) ++
    (List.range' (stop - left + 1) (left - 1)).flatMap fun i =>
      (choices args (s.enter weight i) es).map (i :: ·), ?_, ?_⟩
  · simp only [remaining, hw, hleft, hremaining, List.map_cons, List.cons_append]
  · rw [honce, hpass]
    split at houtcome
    · exact houtcome
    · obtain ⟨d, met, hd, hends⟩ := houtcome
      exact ⟨d, left :: met, hd, hends.array hw hpos hle⟩

/-- An array that fails stops its pass, and there is no choice behind it. -/
theorem Runs.blocked {args : Calldata} {prior own : Captures} {s : Spot}
    {visited counters : List Nat} {weight : UInt8} {w : Window} {es : List Element} {e : Error}
    (hw : s.window args w = .error e) (hlevel : visited.length = s.level)
    (hc : Counts args s (.array weight w :: es) counters) :
    Runs args prior s visited counters own (.array weight w :: es) := by
  refine ⟨[], [], by simp only [remaining, hw], ?_⟩
  simp only [once, hw, bind, Except.bind, Cursor.pass, List.foldlM_cons, Cursor.step,
    enter_cursor (prior ++ own) hlevel hc]

theorem Ends.other {args : Calldata} {s t : Spot} {es : List Element} {visited : List Nat}
    {captures : Captures} {rest : List (List Nat)} {d : Cursor} {met : List Nat} {e : Element}
    (he : ∀ weight w, e ≠ .array weight w) (hm : s.move args e = .ok t)
    (h : Ends args t es visited captures rest d met) :
    Ends args s (e :: es) visited captures rest d met := by
  refine ⟨h.captures_eq, h.counters_eq, ?_, ?_⟩
  · have hcounts := h.counts
    cases hadv : Odometer.advance met with
    | nil => exact counts_nil _ _ _
    | cons left inner =>
      rw [hadv] at hcounts
      cases e with
      | array weight w => exact absurd rfl (he weight w)
      | tuple | ref | leaf | slice => exact ⟨t, hm, hcounts⟩
  · rw [h.rest_eq]
    cases e with
    | array weight w => exact absurd rfl (he weight w)
    | tuple | ref | leaf | slice => simp only [remaining, hm]

theorem Runs.other {args : Calldata} {prior own : Captures} {s : Spot}
    {visited counters : List Nat} {e : Element} {es : List Element}
    (he : ∀ weight w, e ≠ .array weight w) (hopen : prior = [] ∨ own ≠ [] ∨ Opens (e :: es))
    (h : ∀ own' t, take args (Captures.capacity - prior.length) s own e = .ok own' →
      s.move args e = .ok t → Runs args prior t visited counters own' es) :
    Runs args prior s visited counters own (e :: es) := by
  have honce (places : List Nat) :
      s.once args (Captures.capacity - prior.length) places own (e :: es) = (do
        let own ← take args (Captures.capacity - prior.length) s own e
        once args (Captures.capacity - prior.length) (← s.move args e) places own es) := by
    cases e with
    | array weight w => exact absurd rfl (he weight w)
    | tuple | ref | leaf | slice => rfl
  have hpass : Cursor.pass args (e :: es) (s.cursor visited counters (prior ++ own)) = (do
      let own ← take args (Captures.capacity - prior.length) s own e
      Cursor.pass args es ((← s.move args e).cursor visited counters (prior ++ own))) := by
    simp only [Cursor.pass, List.foldlM_cons, step_cursor args s visited counters prior own he
      hopen, bind_assoc, pure_bind]
  obtain ⟨places, rest, hremaining⟩ :=
    List.exists_cons_of_ne_nil (remaining_ne_nil args (e :: es) s counters)
  cases ht : take args (Captures.capacity - prior.length) s own e with
  | error err =>
    refine ⟨places, rest, hremaining, ?_⟩
    simp only [honce, hpass, ht, bind, Except.bind]
  | ok own' =>
    cases hm : s.move args e with
    | error err =>
      refine ⟨places, rest, hremaining, ?_⟩
      simp only [honce, hpass, ht, hm, bind, Except.bind]
    | ok t =>
      obtain ⟨places, rest, hremaining, houtcome⟩ := h own' t ht hm
      refine ⟨places, rest, ?_, ?_⟩
      · rw [← hremaining]
        cases e with
        | array weight w => exact absurd rfl (he weight w)
        | tuple | ref | leaf | slice => simp only [remaining, hm]
      · simp only [honce, hpass, ht, hm, bind, Except.bind]
        split at houtcome
        · exact houtcome
        · obtain ⟨d, met, hd, hends⟩ := houtcome
          exact ⟨d, met, hd, hends.other he hm⟩

/-- The counters of a path are those of what lies behind an element that is no array. -/
theorem Counts.other {args : Calldata} {s t : Spot} {e : Element} {es : List Element}
    {counters : List Nat} (he : ∀ weight w, e ≠ .array weight w) (hm : s.move args e = .ok t)
    (h : Counts args s (e :: es) counters) : Counts args t es counters := by
  cases counters with
  | nil => exact counts_nil _ _ _
  | cons left inner =>
    cases e with
    | array weight w => exact absurd rfl (he weight w)
    | tuple | ref | leaf | slice =>
      obtain ⟨t', hm', hinner⟩ := h
      rw [hm] at hm'
      cases hm'
      exact hinner

theorem move_level {args : Calldata} {s t : Spot} {e : Element} (hm : s.move args e = .ok t) :
    t.level = s.level := by
  cases e with
  | tuple skip => cases hm; rfl
  | array weight w => cases hm; rfl
  | slice w => cases hm; rfl
  | leaf kind => cases kind <;> (cases hm; rfl)
  | ref =>
    simp only [move] at hm
    cases hword : args.word s.position with
    | error e => simp [hword, bind, Except.bind] at hm
    | ok word => rw [hword] at hm; cases hm; rfl

/-- Every pass whose counters count passes of the path's arrays makes a choice of places. -/
theorem runs (args : Calldata) (prior : Captures) (es : List Element) :
    ∀ (s : Spot) (visited counters : List Nat) (own : Captures), visited.length = s.level →
      Counts args s es counters → prior = [] ∨ own ≠ [] ∨ Opens es →
      Runs args prior s visited counters own es := by
  induction es with
  | nil =>
    intro s visited counters own _ hc _
    cases counters with
    | cons left inner => exact hc.elim
    | nil =>
      refine ⟨[], [], rfl, s.cursor visited [] (prior ++ own), [], rfl, rfl, rfl, ?_, ?_⟩
      · exact counts_nil _ _ _
      · simp [Odometer.advance]
  | cons e es ih =>
    intro s visited counters own hlevel hc hopen
    by_cases he : ∃ weight w, e = .array weight w
    · obtain ⟨weight, w, rfl⟩ := he
      cases hw : s.window args w with
      | error err => exact Runs.blocked hw hlevel hc
      | ok bounds =>
        obtain ⟨first, stop⟩ := bounds
        have hlt := window_bounds hw
        have enters (left : Nat) :
            (left :: visited).length = (s.enter weight (stop - left)).level := by
          simp [enter, hlevel]
        cases counters with
        | nil =>
          have hpos : 0 < ([] : List Nat).headD (stop - first) := by
            rw [List.headD_nil]
            omega
          exact Runs.array hw rfl hlevel hc hpos (Nat.le_refl _)
            (ih _ _ _ _ (enters _) (counts_nil _ _ _) hopen)
        | cons left inner =>
          obtain ⟨first', stop', hw', hpos, hle, hinner⟩ := id hc
          rw [hw] at hw'
          cases hw'
          exact Runs.array hw rfl hlevel hc hpos hle (ih _ _ _ _ (enters _) hinner hopen)
    · have he' : ∀ weight w, e ≠ .array weight w := by
        intro weight w h
        exact he ⟨weight, w, h⟩
      apply Runs.other he' hopen
      intro own' t ht hm
      have hlevel' : visited.length = t.level := by rw [move_level hm, hlevel]
      exact ih t visited counters own' hlevel' (hc.other he' hm) (opens_of_take ht hopen)

end Spot

namespace DataPath

open Odometer Spot

/-- One pass from the first word on. -/
theorem pass_start {args : Calldata} {es : List Element} {counters : List Nat}
    {captures : Captures} (hc : Counts args Spot.start es counters)
    (hopen : captures = [] ∨ Opens es) :
    ∃ places rest, remaining args Spot.start es counters = places :: rest ∧
      match Cursor.pass args es (Cursor.start counters captures) with
      | .error e => further args es captures places = .error e
      | .ok c => further args es captures places = .ok c.captures ∧ Opens es ∧
          Counts args Spot.start es (advance c.counters) ∧
          rest = if advance c.counters = [] then []
            else remaining args Spot.start es (advance c.counters) := by
  obtain ⟨places, rest, hremaining, houtcome⟩ :=
    runs args captures es Spot.start [] counters [] rfl hc (hopen.imp_right .inr)
  have hstart : Spot.start.cursor [] counters (captures ++ []) =
      Cursor.start counters captures := by
    rw [List.append_nil]; rfl
  rw [hstart] at houtcome
  refine ⟨places, rest, hremaining, ?_⟩
  split at houtcome
  · rename_i e honce
    rw [houtcome]
    simp only [further, honce, bind, Except.bind]
  · rename_i own honce
    obtain ⟨d, met, hd, hends⟩ := houtcome
    have hmet : d.counters = met := by simpa using hends.counters_eq
    rw [hd]
    refine ⟨?_, opens_of_once honce, hmet ▸ hends.counts, hmet ▸ hends.rest_eq⟩
    simp only [further, honce, bind, Except.bind, pure, Except.pure, hends.captures_eq]

/-- The passes that counters leave make the choices that the counters leave, in order. -/
theorem passes_eq_foldlM (args : Calldata) (es : List Element) (counters : List Nat)
    (hvalid : Valid counters) (captures : Captures) (hc : Counts args Spot.start es counters)
    (hopen : captures = [] ∨ Opens es) :
    passes args es counters hvalid captures =
      (remaining args Spot.start es counters).foldlM (further args es) captures := by
  obtain ⟨places, rest, hremaining, houtcome⟩ := pass_start hc hopen
  rw [hremaining, List.foldlM_cons]
  -- each pass uses up the first choice that its counters leave
  fun_induction passes args es counters hvalid captures generalizing places rest with
  | case1 counters _ captures e hpass =>
    rw [hpass] at houtcome
    rw [houtcome]
    rfl
  | case2 counters _ captures c hpass _ hdone =>
    rw [hpass] at houtcome
    obtain ⟨hfurther, _, _, hrest⟩ := houtcome
    rw [if_pos hdone] at hrest
    rw [hfurther, hrest]
    rfl
  | case3 counters _ captures c hpass _ hmore ih =>
    rw [hpass] at houtcome
    obtain ⟨hfurther, hopens, hcounts, hrest⟩ := houtcome
    rw [if_neg hmore] at hrest
    obtain ⟨places', rest', hremaining', houtcome'⟩ := pass_start hcounts (.inr hopens)
    rw [ih hcounts (.inr hopens) places' rest' hremaining' houtcome', hfurther, hrest,
      hremaining']
    rfl

/-- Reading a path with counters is reading it as nested loops. -/
theorem read_eq_readNested (p : DataPath) (args : Calldata) :
    p.read args = p.readNested args := by
  rw [read, passes_eq_foldlM args p.elements [] valid_nil [] (counts_nil _ _ _) (.inl rfl),
    remaining_nil, readNested]

end DataPath

end ClearSign
