import ClearSign.Field.Format
import ClearSign.Proofs.Action
import ClearSign.Proofs.Text.Checksum

/-!
The rows that the steps of a review show. Rows come behind those that are there, and none is taken
back; a call without arguments that leaves is described by rows of its own.
-/

namespace ClearSign

open Refusal

namespace Row

/-- What a row says, apart from how it is shown. -/
structure Shows (key value : String) (row : Row) : Prop where
  key : row.key = key
  value : row.value = value

theorem shows_make (kind : RowKind) (key value : String) (extra : Option Extra) (closes : Bool) :
    (make kind key value extra closes).Shows key value := by
  cases kind <;> exact ⟨rfl, rfl⟩

end Row

namespace Review

open ClearSign.Action

variable {host : Host} {r r' : Review}

/-- Who a call goes to: a name that the registry trusts, or else the address. -/
def destinationText (host : Host) (c : Call) : String :=
  match host.registry.trustedName? [.account] [.ens, .lab, .mab] c.chain c.destination with
  | some name => name.name
  | none => Checksum.text c.chain c.destination

/-- Where no name is trusted, the text reads as the address that the call goes to. -/
theorem destinationText_names {c : Call} (hnone : host.registry.trustedName? [.account]
    [.ens, .lab, .mab] c.chain c.destination = none) :
    Checksum.Names c.destination (destinationText host c) := by
  unfold destinationText
  rw [hnone]
  exact Checksum.names_text c.chain c.destination

/-- What a call without arguments is described by: of what kind it is, how much it sends if it
sends an amount, in the currency of the chain that a descriptor names, and to whom. -/
inductive LegRows (host : Host) (c : Call) : List Row → Prop
  | sent {intent shown payee : Row} (amount : Word) (info : TransactionInfo) :
    c.amount = some amount → intent.Shows intentKey "Send" →
    shown.Shows "Amount" (Decimal.amountText Decimal.nativePlaces
      (host.settings.tickerOf host.registry info.chain) amount.bytes) →
    payee.Shows "To" (destinationText host c) → LegRows host c [intent, shown, payee]
  | empty {intent payee : Row} :
    c.amount = none → intent.Shows intentKey "Empty transaction" →
    payee.Shows "To" (destinationText host c) → LegRows host c [intent, payee]

/-- The first of the rows says of what kind the call is. -/
theorem LegRows.exists_intent {c : Call} {rows : List Row} (h : LegRows host c rows) :
    ∃ row ∈ rows, row.key = intentKey := by
  cases h with
  | sent amount info _ hintent => exact ⟨_, List.mem_cons_self, hintent.key⟩
  | empty _ hintent => exact ⟨_, List.mem_cons_self, hintent.key⟩

/-- One of the rows says to whom the call goes: where no name is trusted, it reads as the address. -/
theorem LegRows.exists_payee {c : Call} {rows : List Row} (h : LegRows host c rows)
    (hnone : host.registry.trustedName? [.account] [.ens, .lab, .mab] c.chain c.destination =
      none) : ∃ row ∈ rows, row.key = "To" ∧ Checksum.Names c.destination row.value := by
  have hnames := destinationText_names hnone
  cases h with
  | sent amount info _ _ _ hpayee =>
    refine ⟨_, by simp, hpayee.key, ?_⟩
    rwa [hpayee.value]
  | empty _ _ hpayee =>
    refine ⟨_, by simp, hpayee.key, ?_⟩
    rwa [hpayee.value]

theorem exists_info_of_amountChain {c : Call} {root : Option Call} {chain : ChainId}
    (h : amountChain c root = .ok chain) : ∃ info : TransactionInfo, info.chain = chain := by
  unfold amountChain at h
  split at h
  · rename_i info _
    exact ⟨info, Except.ok.inj h⟩
  · cases h

theorem addRow_makes {kind : RowKind} {key value : String} {extra : Option Extra}
    (h : (addRow host kind key value extra).exec r = (.ok (), r')) :
    r' = { r with table := r.table ++ [Row.make kind key value extra r.calls.isVerified] } := by
  unfold addRow at h
  rw [update_answers, bind_eq_ok] at h
  obtain ⟨table, hadd, h⟩ := h
  rw [pure_eq_ok] at h
  unfold Table.add at hadd
  split at hadd
  · cases hadd
    exact h.symm
  · cases hadd

theorem addRow_answers {kind : RowKind} {key value : String} {extra : Option Extra}
    (h : (addRow host kind key value extra).exec r = (.ok (), r')) :
    ∃ row : Row, row.Shows key value ∧ r' = { r with table := r.table ++ [row] } :=
  ⟨_, Row.shows_make .., addRow_makes h⟩

theorem addIntent_answers {operation : String}
    (h : (addIntent host operation).exec r = (.ok (), r')) :
    ∃ row : Row, row.Shows intentKey operation ∧ r' = { r with table := r.table ++ [row] } := by
  unfold addIntent at h
  rw [exec_get_bind] at h
  exact addRow_answers h

theorem addDestination_answers {c : Call} (h : (addDestination host c).exec r = (.ok (), r')) :
    ∃ row : Row, row.Shows "To" (destinationText host c) ∧
      r' = { r with table := r.table ++ [row] } := by
  unfold addDestination at h
  unfold destinationText
  cases hname : host.registry.trustedName? [.account] [.ens, .lab, .mab] c.chain c.destination with
  | some name =>
    simp only [hname] at h
    exact addRow_answers h
  | none =>
    simp only [hname] at h
    exact addRow_answers h

/-- A call that is described leaves its slot and shows its rows. -/
theorem describe_answers {slot : Nat} (h : (describe host slot).exec r = (.ok (), r')) :
    ∃ c rows, r.calls.call? slot = some c ∧ LegRows host c rows ∧
      r' = ⟨{ r.calls with slots := r.calls.slots.set slot none }, r.table ++ rows⟩ := by
  unfold describe at h
  rw [exec_get_bind] at h
  cases hcall : r.calls.call? slot with
  | none =>
    simp only [hcall] at h
    cases h
  | some c =>
    simp only [hcall, exec_set_bind] at h
    cases hamount : c.amount with
    | none =>
      simp only [hamount, bind_answers] at h
      obtain ⟨⟨⟩, _, hannounce, haddress⟩ := h
      obtain ⟨intent, hintent, rfl⟩ := addIntent_answers hannounce
      obtain ⟨payee, hpayee, rfl⟩ := addDestination_answers haddress
      exact ⟨c, [intent, payee], rfl, .empty hamount hintent hpayee, by simp⟩
    | some amount =>
      simp only [hamount, exec_get_bind, bind_answers, ofExcept_answers] at h
      obtain ⟨chain, _, ⟨hchain, rfl⟩, ⟨⟩, _, hannounce, ⟨⟩, _, hshow, haddress⟩ := h
      obtain ⟨info, rfl⟩ := exists_info_of_amountChain hchain
      obtain ⟨intent, hintent, rfl⟩ := addIntent_answers hannounce
      obtain ⟨shown, hshown, rfl⟩ := addRow_answers hshow
      obtain ⟨payee, hpayee, rfl⟩ := addDestination_answers haddress
      exact ⟨c, [intent, shown, payee], rfl,
        .sent amount info hamount hintent hshown hpayee, by simp⟩

end Review

namespace Field

open ClearSign.Action

variable {host : Host} {r r' : Review}

theorem addCell_answers {key : String} {cell : Except Error (Option Cell)}
    (h : (addCell host key cell).exec r = (.ok (), r')) :
    ∃ rows, r' = { r with table := r.table ++ rows } := by
  unfold addCell at h
  rw [bind_answers] at h
  obtain ⟨shown, mid, hcell, h⟩ := h
  obtain ⟨-, rfl⟩ := ofExcept_answers.mp hcell
  cases shown with
  | none =>
    cases h
    exact ⟨[], by rw [List.append_nil]⟩
  | some c =>
    obtain ⟨row, -, rfl⟩ := Review.addRow_answers h
    exact ⟨[row], rfl⟩

theorem forM_addCell_answers {key : String} {cells : Cells}
    (h : (cells.forM (addCell host key)).exec r = (.ok (), r')) :
    ∃ rows, r' = { r with table := r.table ++ rows } := by
  induction cells generalizing r with
  | nil =>
    cases h
    exact ⟨[], by rw [List.append_nil]⟩
  | cons cell cells ih =>
    rw [forM_cons_answers] at h
    obtain ⟨_, hcell, hrest⟩ := h
    obtain ⟨first, rfl⟩ := addCell_answers hcell
    obtain ⟨rest, rfl⟩ := ih hrest
    exact ⟨first ++ rest, by rw [List.append_assoc]⟩

end Field

end ClearSign
