import ClearSign.Field.Format
import ClearSign.Proofs.Action

/-!
What showing cells leaves in the table: a row for each cell that is made before the first
objection, as long as there is room. Hidden cells take no room.
-/

namespace ClearSign

namespace Cells

/-- The cells before the first objection, without the hidden ones. -/
def made : Cells → List Cell
  | [] => []
  | .error _ :: _ => []
  | .ok none :: cells => made cells
  | .ok (some c) :: cells => c :: made cells

/-- The first objection, if there is one. -/
def verdict : Cells → Except Error Unit
  | [] => .ok ()
  | .error e :: _ => .error e
  | .ok _ :: cells => verdict cells

section

variable {cs : List (Except Error Cell)}

/-- A cell that is made is the one that was tried at its place. -/
theorem getElem?_made_tried {i : Nat} {c : Cell} (h : (made (tried cs))[i]? = some c) :
    cs[i]? = some (.ok c) := by
  induction cs generalizing i with
  | nil => cases h
  | cons first cs ih =>
    cases first with
    | error e => cases h
    | ok d =>
      cases i with
      | zero =>
        cases h
        rfl
      | succ i => exact ih h

theorem length_made_tried_le (cs : List (Except Error Cell)) :
    (made (tried cs)).length ≤ cs.length := by
  induction cs with
  | nil => exact Nat.le_refl _
  | cons first cs ih =>
    cases first with
    | error e => exact Nat.zero_le _
    | ok d => exact Nat.succ_le_succ ih

theorem length_made_tried (h : verdict (tried cs) = .ok ()) :
    (made (tried cs)).length = cs.length := by
  induction cs with
  | nil => rfl
  | cons first cs ih =>
    cases first with
    | error e => cases h
    | ok d => exact congrArg Nat.succ (ih h)

/-- What was tried behind the cells that are made is an objection. -/
theorem error_of_made_tried {x : Except Error Cell}
    (h : cs[(made (tried cs)).length]? = some x) : ∃ e, x = .error e := by
  induction cs with
  | nil => cases h
  | cons first cs ih =>
    cases first with
    | error e =>
      cases h
      exact ⟨e, rfl⟩
    | ok d => exact ih h

end

end Cells

namespace Field

open ClearSign.Action

variable {host : Host} {cache : Cache} {field : Field} {r : Review}

/-- The row that a cell becomes. It closes an intent if the current call is complete. -/
def rowOf (key : String) (closes : Bool) (c : Cell) : Row :=
  Row.make (.param c.kind) key c.text c.extra closes

theorem exec_addCell (key : String) (c : Cell) :
    (addCell host key (.ok (some c))).exec r =
      if r.table.length < host.settings.maxRows then
        (.ok (), { r with table := r.table ++ [rowOf key r.calls.isVerified c] })
      else (.error .outOfMemory, r) := by
  unfold addCell Review.addRow Table.add
  rw [exec_bind]
  simp only [exec_ofExcept, exec_update]
  by_cases hroom : r.table.length < host.settings.maxRows
  · simp only [if_pos hroom]
    rfl
  · simp only [if_neg hroom]
    rfl

/-- Cells are shown up to the first objection, or until the table is full. -/
theorem exec_forM_addCell (key : String) (cells : Cells) :
    (cells.forM (addCell host key)).exec r =
      (if (Cells.made cells).length ≤ host.settings.maxRows - r.table.length then
          Cells.verdict cells
        else .error .outOfMemory,
      { r with
        table := r.table ++ ((Cells.made cells).take (host.settings.maxRows - r.table.length)).map
          (rowOf key r.calls.isVerified) }) := by
  induction cells generalizing r with
  | nil => simp [Cells.made, Cells.verdict]
  | cons cell cells ih =>
    have hfirst : (cell :: cells).forM (addCell host key) =
        addCell host key cell >>= fun _ => cells.forM (addCell host key) := rfl
    rw [hfirst, exec_bind]
    match cell with
    | .error e =>
      have hstop : (addCell host key (.error e)).exec r = (.error e, r) := rfl
      simp [hstop, Cells.made, Cells.verdict]
    | .ok none =>
      have hhidden : (addCell host key (.ok none)).exec r = (.ok (), r) := rfl
      rw [hhidden]
      exact ih
    | .ok (some c) =>
      by_cases hroom : r.table.length < host.settings.maxRows
      · have hleft : host.settings.maxRows - r.table.length =
            host.settings.maxRows - (r.table.length + 1) + 1 := by omega
        simp only [exec_addCell, if_pos hroom, ih, Cells.made, Cells.verdict, List.length_append,
          List.length_cons, List.length_nil, Nat.zero_add, hleft, Nat.add_le_add_iff_right,
          List.take_succ_cons, List.map_cons, List.append_assoc, List.singleton_append]
      · have hfull : host.settings.maxRows - r.table.length = 0 := by omega
        simp [exec_addCell, if_neg hroom, Cells.made, hfull]

/-- Cells that can all be shown or not at all get rows one by one. What stops them is the table or
the first that cannot be made, and either refuses the field. -/
theorem exec_forM_tried (host : Host) (r : Review) (key : String) (cs : List (Except Error Cell)) :
    ∃ shown : List Cell,
      (((Cells.tried cs).forM (addCell host key)).exec r).2 =
        { r with table := r.table ++ shown.map (rowOf key r.calls.isVerified) } ∧
      shown.length ≤ cs.length ∧
      (shown.length < cs.length →
        ∃ e, (((Cells.tried cs).forM (addCell host key)).exec r).1 = .error e) ∧
      (∀ (i : Nat) c, shown[i]? = some c → cs[i]? = some (.ok c)) ∧
      ∀ x, cs[shown.length]? = some x →
        host.settings.maxRows ≤ r.table.length + shown.length ∨ ∃ e, x = .error e := by
  rw [exec_forM_addCell]
  have hlength := Cells.length_made_tried_le cs
  by_cases hroom : (Cells.made (Cells.tried cs)).length ≤ host.settings.maxRows - r.table.length
  · rw [if_pos hroom, List.take_of_length_le hroom]
    refine ⟨_, rfl, hlength, ?_, fun i c => Cells.getElem?_made_tried,
      fun x hx => .inr (Cells.error_of_made_tried hx)⟩
    intro hshort
    cases hverdict : Cells.verdict (Cells.tried cs) with
    | error e => exact ⟨e, rfl⟩
    | ok u =>
      have hall := Cells.length_made_tried hverdict
      omega
  · rw [if_neg hroom]
    refine ⟨_, rfl, ?_, fun _ => ⟨_, rfl⟩, ?_, fun x _ => .inl ?_⟩
    · rw [List.length_take]
      omega
    · intro i c hshown
      rw [List.getElem?_take] at hshown
      split at hshown
      · exact Cells.getElem?_made_tried hshown
      · cases hshown
    · rw [List.length_take]
      omega

/-- A field that shows something is formatted by showing its cells. -/
theorem format_eq (hkind : field.param.kind ≠ .calldata) :
    field.format host cache = (do
      let scope : Scope := ⟨host, cache, (← get).calls.currentCall⟩
      (← .ofExcept (field.param.cells scope field)).forM (addCell host field.name)) := by
  unfold format
  cases hparam : field.param with
  | calldata p =>
    rw [hparam] at hkind
    exact absurd rfl hkind
  | _ => rfl

theorem exec_format {cells : Cells} (hkind : field.param.kind ≠ .calldata)
    (hcells : field.param.cells ⟨host, cache, r.calls.currentCall⟩ field = .ok cells) :
    (field.format host cache).exec r = (cells.forM (addCell host field.name)).exec r := by
  rw [format_eq hkind, exec_get_bind, exec_bind, exec_ofExcept, hcells]

/-- A field without cells is refused and shows nothing. -/
theorem exec_format_refused {e : Error} (hkind : field.param.kind ≠ .calldata)
    (hcells : field.param.cells ⟨host, cache, r.calls.currentCall⟩ field = .error e) :
    (field.format host cache).exec r = (.error e, r) := by
  rw [format_eq hkind, exec_get_bind, exec_bind, exec_ofExcept, hcells]

end Field

end ClearSign
