import ClearSign.Calldata.Store
import ClearSign.Path.Capture
import ClearSign.Path.Element
import ClearSign.Path.Odometer

/-!
Reading a path. The elements run from the first word on, once for each combination of places in
the arrays they pass, the innermost array turning fastest; each pass adds its captures behind
those of the passes before. An objection of any pass ends the reading.
-/

namespace ClearSign

/-- The number that the last two bytes of a word spell. -/
def lowHalf (w : Word) : Nat := Bytes.toNat w.bytes % Odometer.radix

/-- Where a pass stands. -/
structure Cursor where
  position : Nat
  /-- The word that references count from. -/
  base : Nat
  /-- Counters of the arrays passed so far, innermost first. -/
  visited : List Nat
  /-- Counters of the arrays still ahead that are being gone through, outermost first. -/
  pending : List Nat
  captures : Captures
  deriving DecidableEq

namespace Cursor

def start (counters : List Nat) (captures : Captures) : Cursor := ⟨0, 0, [], counters, captures⟩

/-- All counters, outermost first. -/
def counters (c : Cursor) : List Nat := c.visited.reverse ++ c.pending

/-- Bytes from the words at a position on. -/
def readBytes (args : Calldata) (position length : Nat) : Except Error Bytes := do
  let words ← (List.range ((length + 31) / 32)).mapM fun i => args.word (position + i)
  return (words.flatMap Fixed.bytes).take length

def capture (c : Cursor) (bs : Bytes) : Except Error Cursor := do
  return { c with captures := ← c.captures.push (Capture.whole bs) }

/-- Passes an array. Met for the first time it starts at the first place of its window; after that
its counter says how far from the last place it is. -/
def enter (args : Calldata) (c : Cursor) (weight : UInt8) (window : Window) :
    Except Error Cursor :=
  if Odometer.maxDepth ≤ c.visited.length then .error .limitExceeded
  else
    match args.word c.position with
    | .error e => .error e
    | .ok w =>
      match window.resolve (lowHalf w) with
      | .error e => .error e
      | .ok (first, stop) =>
        let span := stop - first
        let left := c.pending.headD span
        .ok { c with
          position := c.position + 1 + (first + (span - left)) * weight.toNat
          base := c.position + 1
          visited := left :: c.visited
          pending := c.pending.tail }

def step (args : Calldata) (c : Cursor) : Element → Except Error Cursor
  | .tuple skip => .ok { c with base := c.position, position := c.position + skip.toNat }
  | .array weight window => c.enter args weight window
  | .ref => do
    let w ← args.word c.position
    return { c with position := lowHalf w / 32 + c.base }
  | .leaf .static => do c.capture (← readBytes args c.position 32)
  | .leaf .dynamic => do
    let length := lowHalf (← args.word c.position)
    let bs ← readBytes args (c.position + 1) length
    { c with position := c.position + 1 }.capture bs
  | .leaf _ => .error .invalidValue
  | .slice window => do return { c with captures := ← c.captures.narrowLast window }

def pass (args : Calldata) (elements : List Element) (c : Cursor) : Except Error Cursor :=
  elements.foldlM (step args) c

theorem loops_capture {c d : Cursor} {bs : Bytes} (h : c.capture bs = .ok d) :
    d.visited = c.visited ∧ d.pending = c.pending := by
  simp only [capture, bind, Except.bind] at h
  split at h
  · cases h
  · cases h; exact ⟨rfl, rfl⟩

theorem counters_enter {args : Calldata} {c d : Cursor} {weight : UInt8} {window : Window}
    (h : c.enter args weight window = .ok d) (hc : Odometer.Valid c.counters) :
    (∃ more, d.counters = c.counters ++ more) ∧ Odometer.Valid d.counters := by
  simp only [enter] at h
  split at h
  · cases h
  · rename_i hdepth
    split at h
    · cases h
    · rename_i w _
      split at h
      · cases h
      · rename_i first stop hwindow
        cases h
        have hb := Window.resolve_bounds hwindow
        have hw : lowHalf w < Odometer.radix := Nat.mod_lt _ (by decide)
        have heq : (Cursor.counters ⟨c.position + 1 +
              (first + (stop - first - c.pending.headD (stop - first))) * weight.toNat,
              c.position + 1, c.pending.headD (stop - first) :: c.visited, c.pending.tail,
              c.captures⟩) =
            c.counters ++ (if c.pending = [] then [stop - first] else []) := by
          cases hp : c.pending <;> simp [counters, hp]
        refine ⟨⟨_, heq⟩, ?_⟩
        rw [heq]
        split
        · rename_i hp
          refine ⟨?_, fun k hk => ?_⟩
          · simp only [counters, hp, List.append_nil, List.length_append, List.length_reverse,
              List.length_singleton]
            omega
          · rcases List.mem_append.mp hk with hk | hk
            · exact hc.2 k hk
            · simp only [List.mem_singleton] at hk; omega
        · simpa using hc

theorem counters_step {args : Calldata} {c d : Cursor} {e : Element}
    (h : step args c e = .ok d) (hc : Odometer.Valid c.counters) :
    (∃ more, d.counters = c.counters ++ more) ∧ Odometer.Valid d.counters := by
  have keep {d : Cursor} (hv : d.visited = c.visited) (hp : d.pending = c.pending) :
      (∃ more, d.counters = c.counters ++ more) ∧ Odometer.Valid d.counters := by
    have : d.counters = c.counters := by simp [counters, hv, hp]
    exact ⟨⟨[], by simp [this]⟩, this ▸ hc⟩
  cases e with
  | array weight window => exact counters_enter h hc
  | tuple skip => cases h; exact keep rfl rfl
  | ref =>
    simp only [step, bind, Except.bind] at h
    split at h
    · cases h
    · cases h; exact keep rfl rfl
  | slice window =>
    simp only [step, bind, Except.bind] at h
    split at h
    · cases h
    · cases h; exact keep rfl rfl
  | leaf kind =>
    cases kind with
    | array | tuple => cases h
    | static =>
      simp only [step, bind, Except.bind] at h
      split at h
      · cases h
      · exact keep (loops_capture h).1 (loops_capture h).2
    | dynamic =>
      simp only [step, bind, Except.bind] at h
      split at h
      · cases h
      · split at h
        · cases h
        · exact keep (loops_capture h).1 (loops_capture h).2

/-- A pass keeps the counters it starts with and opens loops only inside them. -/
theorem counters_pass {args : Calldata} {elements : List Element} {c d : Cursor}
    (h : pass args elements c = .ok d) (hc : Odometer.Valid c.counters) :
    (∃ more, d.counters = c.counters ++ more) ∧ Odometer.Valid d.counters := by
  induction elements generalizing c with
  | nil => cases h; exact ⟨⟨[], by simp⟩, hc⟩
  | cons e elements ih =>
    simp only [pass, List.foldlM_cons, bind, Except.bind] at h
    split at h
    · cases h
    · rename_i c' hstep
      obtain ⟨⟨more, hmore⟩, hc'⟩ := counters_step hstep hc
      obtain ⟨⟨more', hmore'⟩, hd⟩ := ih h hc'
      exact ⟨⟨more ++ more', by rw [hmore', hmore, List.append_assoc]⟩, hd⟩

end Cursor

namespace DataPath

open Odometer

/-- The passes that `counters` leave, behind those that gave `captures`. -/
def passes (args : Calldata) (elements : List Element) (counters : List Nat)
    (hvalid : Valid counters) (captures : Captures) : Except Error Captures :=
  match hpass : Cursor.pass args elements (Cursor.start counters captures) with
  | .error e => .error e
  | .ok c =>
    have hc := Cursor.counters_pass hpass (by simpa [Cursor.start, Cursor.counters] using hvalid)
    if hdone : advance c.counters = [] then .ok c.captures
    else passes args elements (advance c.counters) (valid_advance hc.2) c.captures
termination_by rank maxDepth counters
decreasing_by
  obtain ⟨⟨more, hmore⟩, hv⟩ := hc
  have hstart : (Cursor.start counters captures).counters = counters := by
    simp [Cursor.start, Cursor.counters]
  have hlt := rank_advance hv.1 hv.2 hdone
  rw [hmore, hstart] at hlt hv
  rw [hmore, hstart]
  exact Nat.lt_of_lt_of_le hlt (rank_append_le _ _ _ fun d hd => (hv.2 d hd).2)

/-- The byte strings that the path leads to. -/
def read (p : DataPath) (args : Calldata) : Except Error Captures :=
  passes args p.elements [] valid_nil []

end DataPath

end ClearSign
