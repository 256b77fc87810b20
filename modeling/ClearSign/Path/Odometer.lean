import ClearSign.Error

/-!
Counters of nested loops, outermost first. Each counts the passes that its loop has left, the one
under way included. `rank_advance` says that advancing lowers the rank, whatever loops were opened
inside since: that is why reading a path ends.
-/

namespace ClearSign.Odometer

/-- Loops that may be nested. -/
def maxDepth : Nat := 8

/-- A counter stays below this. -/
def radix : Nat := 0x10000

/-- No more loops than allowed, each with at least one pass left. -/
def Valid (counters : List Nat) : Prop :=
  counters.length ≤ maxDepth ∧ ∀ c ∈ counters, 0 < c ∧ c < radix

theorem valid_nil : Valid [] := ⟨by simp, by simp⟩

/-- The counters after a pass: the innermost loop with a pass left goes on, and the loops inside
it are closed. No counter is left when all passes are done. -/
def advance : List Nat → List Nat
  | [] => []
  | c :: inner =>
    match advance inner with
    | [] => if c ≤ 1 then [] else [c - 1]
    | inner => c :: inner

/-- Every rank of so many levels stays below this. -/
def ranks : (levels : Nat) → Nat
  | 0 => 1
  | levels + 1 => ranks levels * radix

theorem ranks_pos (levels : Nat) : 0 < ranks levels := by
  induction levels with
  | zero => exact Nat.one_pos
  | succ levels ih => exact Nat.mul_pos ih (by decide)

/-- The counters as the digits of a number; a loop not opened yet counts as full. -/
def rank : (levels : Nat) → List Nat → Nat
  | 0, _ => 0
  | levels + 1, [] => ranks (levels + 1) - 1
  | levels + 1, c :: inner => c * ranks levels + rank levels inner

theorem length_advance_le (cs : List Nat) : (advance cs).length ≤ cs.length := by
  induction cs with
  | nil => simp [advance]
  | cons c inner ih =>
    simp only [advance]
    split
    · split <;> simp
    · rename_i hne; simp_all

theorem mem_advance {cs : List Nat} {c : Nat} (h : c ∈ advance cs)
    (hcs : ∀ c ∈ cs, 0 < c ∧ c < radix) : 0 < c ∧ c < radix := by
  induction cs with
  | nil => simp [advance] at h
  | cons d inner ih =>
    have hd := hcs d (by simp)
    simp only [advance] at h
    split at h
    · split at h
      · simp at h
      · simp only [List.mem_singleton] at h; omega
    · rcases List.mem_cons.mp h with rfl | h
      · exact hd
      · exact ih h fun c hc => hcs c (List.mem_cons_of_mem _ hc)

theorem valid_advance {cs : List Nat} (h : Valid cs) : Valid (advance cs) :=
  ⟨Nat.le_trans (length_advance_le cs) h.1, fun _ hc => mem_advance hc h.2⟩

theorem rank_lt (levels : Nat) (cs : List Nat) (h : ∀ c ∈ cs, c < radix) :
    rank levels cs < ranks levels := by
  induction levels generalizing cs with
  | zero => simp [rank, ranks]
  | succ levels ih =>
    have hpos := ranks_pos (levels + 1)
    cases cs with
    | nil => simp only [rank]; omega
    | cons c inner =>
      have hc := h c (by simp)
      have hi := ih inner fun d hd => h d (List.mem_cons_of_mem _ hd)
      simp only [rank, ranks]
      calc c * ranks levels + rank levels inner
          < c * ranks levels + ranks levels := by omega
        _ = (c + 1) * ranks levels := by rw [Nat.succ_mul]
        _ ≤ radix * ranks levels := Nat.mul_le_mul_right _ hc
        _ = ranks levels * radix := Nat.mul_comm _ _

/-- Opening loops inside never raises the rank. -/
theorem rank_append_le (levels : Nat) (cs more : List Nat) (h : ∀ c ∈ cs ++ more, c < radix) :
    rank levels (cs ++ more) ≤ rank levels cs := by
  induction levels generalizing cs with
  | zero => simp [rank]
  | succ levels ih =>
    cases cs with
    | nil =>
      have := rank_lt (levels + 1) more h
      simp only [List.nil_append, rank]
      omega
    | cons c inner =>
      have := ih inner fun d hd => h d (List.mem_cons_of_mem _ hd)
      simp only [List.cons_append, rank]
      omega

theorem rank_advance {levels : Nat} {cs : List Nat} (hlen : cs.length ≤ levels)
    (h : ∀ c ∈ cs, 0 < c ∧ c < radix) (hne : advance cs ≠ []) :
    rank levels (advance cs) < rank levels cs := by
  induction cs generalizing levels with
  | nil => simp [advance] at hne
  | cons c inner ih =>
    cases levels with
    | zero => simp at hlen
    | succ levels =>
      have hc := h c (by simp)
      have hin : ∀ d ∈ inner, 0 < d ∧ d < radix := fun d hd => h d (List.mem_cons_of_mem _ hd)
      have hlen' : inner.length ≤ levels := by simpa using hlen
      simp only [advance] at hne ⊢
      split
      · split
        · simp_all
        · have full : rank levels [] + 1 = ranks levels := by
            have hpos := ranks_pos levels
            cases levels with
            | zero => simp [rank, ranks]
            | succ n => simp only [rank]; omega
          have split : (c - 1 + 1) * ranks levels = (c - 1) * ranks levels + ranks levels :=
            Nat.succ_mul _ _
          rw [Nat.sub_add_cancel hc.1] at split
          simp only [rank]
          omega
      · rename_i hadv
        have := ih hlen' hin hadv
        simp only [rank]
        omega

end ClearSign.Odometer
