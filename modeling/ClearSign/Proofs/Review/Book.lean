import ClearSign.Proofs.Review.Slots
import ClearSign.Review.Basic
import Mathlib.Data.List.Perm.Subperm

/-!
Books of rows. A book says which rows of a table were shown for which call; no row is shown for two
calls, so that a table announces at least as many calls as a book of it has.
-/

namespace ClearSign

/-- Rows that were shown for calls, by the numbers of the calls. -/
abbrev Book := List (Nat × List Row)

namespace Book

variable {book more : Book}

def keys (book : Book) : List Nat := book.map Prod.fst

def rows (book : Book) : Table := book.flatMap Prod.snd

/-- The book of calls whose numbers start later. -/
def shifted (past : Nat) (book : Book) : Book := book.map fun p => (past + p.1, p.2)

@[simp] theorem keys_append (book more : Book) :
    (book ++ more : Book).keys = book.keys ++ more.keys := List.map_append

@[simp] theorem rows_append (book more : Book) :
    (book ++ more : Book).rows = book.rows ++ more.rows := List.flatMap_append

theorem mem_keys {k : Nat} : k ∈ book.keys ↔ ∃ rows, (k, rows) ∈ book := by
  simp [keys]

theorem sublist_rows {k : Nat} {rows : List Row} (h : (k, rows) ∈ book) :
    rows.Sublist book.rows := by
  unfold Book.rows
  rw [List.flatMap_def]
  exact List.sublist_flatten_of_mem (List.mem_map_of_mem h)

theorem mem_shifted {past slot : Nat} {rows : List Row} :
    (past + slot, rows) ∈ book.shifted past ↔ (slot, rows) ∈ book := by
  simp [shifted]

theorem keys_shifted (past : Nat) (book : Book) :
    (book.shifted past).keys = book.keys.map (past + ·) := by
  simp [shifted, keys]

theorem rows_shifted (past : Nat) (book : Book) : (book.shifted past).rows = book.rows := by
  simp [shifted, rows, List.flatMap_map]

/-- The book is one of rows of a table for some of so many calls, and announces each of them. -/
structure Fits (table : Table) (calls : Nat) (book : Book) : Prop where
  nodup : book.keys.Nodup
  bound : ∀ k ∈ book.keys, k < calls
  intents : ∀ k rows, (k, rows) ∈ book → ∃ row ∈ rows, row.key = Review.intentKey
  shown : book.rows.Sublist table

namespace Fits

variable {table table' : Table} {calls calls' : Nat}

theorem empty (table : Table) (calls : Nat) : Fits table calls [] where
  nodup := List.nodup_nil
  bound := by simp [keys]
  intents := by simp
  shown := List.nil_sublist _

theorem mono (h : Fits table calls book) (htable : table.Sublist table') (hcalls : calls ≤ calls') :
    Fits table' calls' book where
  nodup := h.nodup
  bound k hk := Nat.lt_of_lt_of_le (h.bound k hk) hcalls
  intents := h.intents
  shown := h.shown.trans htable

/-- Rows that come later may be those of further calls. -/
theorem append (h : Fits table calls book) (hmore : Fits table' calls more)
    (hfresh : ∀ k ∈ more.keys, k ∉ book.keys) : Fits (table ++ table') calls (book ++ more) where
  nodup := by
    rw [keys_append]
    refine List.nodup_append.mpr ⟨h.nodup, hmore.nodup, ?_⟩
    rintro k hk _ hk' rfl
    exact hfresh k hk' hk
  bound k hk := by
    rw [keys_append, List.mem_append] at hk
    exact hk.elim (h.bound k) (hmore.bound k)
  intents k rows hk := (List.mem_append.mp hk).elim (h.intents k rows) (hmore.intents k rows)
  shown := by
    rw [rows_append]
    exact h.shown.append hmore.shown

theorem nil_of_none (h : Fits table 0 book) : book = [] := by
  cases book with
  | nil => rfl
  | cons entry book => exact absurd (h.bound entry.1 List.mem_cons_self) (Nat.not_lt_zero _)

end Fits

/-- With a row of a kind for each entry, there are as many such rows as entries. -/
theorem length_le_countP {p : Row → Bool}
    (h : ∀ k rows, (k, rows) ∈ book → ∃ row ∈ rows, p row = true) :
    book.length ≤ book.rows.countP p := by
  induction book with
  | nil => exact Nat.zero_le _
  | cons entry book ih =>
    have hfirst : 0 < entry.2.countP p :=
      List.countP_pos_iff.mpr (h entry.1 entry.2 List.mem_cons_self)
    have hrest := ih fun k rows hmem => h k rows (List.mem_cons_of_mem _ hmem)
    show book.length + 1 ≤ (entry.2 ++ Book.rows book).countP p
    rw [List.countP_append]
    omega

/-- A table announces at least as many calls as there are in a book of it. -/
theorem Fits.countP_le {α : Type} {table : Table} {calls : Nat} (h : Fits table calls book)
    {os : List (Option α)} (hall : ∀ k o, os[k]? = some (some o) → k ∈ book.keys) :
    os.countP Option.isSome ≤ table.countP fun row => row.key == Review.intentKey := by
  let used := (List.range os.length).filter fun k => os[k]?.join.isSome
  have hused : os.countP Option.isSome = used.length := by
    have hcount := congrArg (List.countP Option.isSome) (CallStack.map_join_range os)
    rw [List.countP_map, List.countP_eq_length_filter] at hcount
    exact hcount.symm
  have hsub : used ⊆ book.keys := by
    intro k hk
    obtain ⟨o, ho⟩ := Option.isSome_iff_exists.mp (List.mem_filter.mp hk).2
    exact hall k o (Option.join_eq_some_iff.mp ho)
  have hnodup : used.Nodup := List.nodup_range.filter _
  calc os.countP Option.isSome
      = used.length := hused
    _ ≤ book.keys.length := (List.subperm_of_subset hnodup hsub).length_le
    _ = book.length := List.length_map _
    _ ≤ book.rows.countP fun row => row.key == Review.intentKey :=
        length_le_countP fun k rows hmem => by simpa using h.intents k rows hmem
    _ ≤ table.countP fun row => row.key == Review.intentKey := h.shown.countP_le

end Book

end ClearSign
