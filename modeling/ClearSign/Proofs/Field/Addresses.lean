import ClearSign.Proofs.Field.Gating

/-!
Addresses under the rule of a field, shown raw and shown by name. Both ways hold the constraints,
padded with zeros in front, against the twenty bytes of the address that is shown. Raw, any
constraint of up to twenty bytes counts. By name, none counts that is longer than the byte string
that the address came from; byte strings shorter than an address may be ruled on differently.
-/

namespace ClearSign

/-- What a rule makes of a byte string: it is shown, it is hidden, or it refuses the field. -/
def Cell.ruling (cell : Except Error (Option Cell)) : Except Error Bool := cell.map Option.isSome

/-- Some constraint is the address. -/
def Listed (constraints : List Bytes) (a : Address) : Prop := ∃ k ∈ constraints, Padded k a

/-- Some constraint is the address and no longer than the byte string it came from. -/
def Covered (constraints : List Bytes) (c : Capture) : Prop :=
  ∃ k ∈ constraints, k.length ≤ c.bytes.length ∧ Padded k c.toAddress

instance (constraints : List Bytes) (a : Address) : Decidable (Listed constraints a) :=
  inferInstanceAs (Decidable (∃ k ∈ constraints, _))

instance (constraints : List Bytes) : DecidablePred (Covered constraints) := fun _ =>
  inferInstanceAs (Decidable (∃ k ∈ constraints, _))

/-- An address of its whole length is covered if it is listed. -/
theorem covered_iff_listed {constraints : List Bytes} {c : Capture} (h : 20 ≤ c.bytes.length) :
    Covered constraints c ↔ Listed constraints c.toAddress :=
  exists_congr fun _ => and_congr_right fun _ =>
    and_iff_right_of_imp fun hpadded => Nat.le_trans hpadded.1 h

theorem Covered.listed {constraints : List Bytes} {c : Capture} (h : Covered constraints c) :
    Listed constraints c.toAddress := by
  obtain ⟨k, hk, -, hpadded⟩ := h
  exact ⟨k, hk, hpadded⟩

namespace Visibility

/-- A rule that looks at the constraints tells from its answer whether one was met. -/
theorem admits_eq_iff {rule : Visibility} {a b : Bool} :
    rule.admits a = rule.admits b ↔ rule = .always ∨ a = b := by
  cases rule <;> cases a <;> cases b <;> simp [admits]

/-- The rule tells a listed address apart from one that is not covered. -/
def Parts (rule : Visibility) (constraints : List Bytes) (c : Capture) : Prop :=
  rule ≠ .always ∧ Listed constraints c.toAddress ∧ ¬ Covered constraints c

theorem admits_listed_eq_covered {rule : Visibility} {constraints : List Bytes} {c : Capture} :
    rule.admits (decide (Listed constraints c.toAddress)) =
      rule.admits (decide (Covered constraints c)) ↔ ¬ rule.Parts constraints c := by
  rw [admits_eq_iff, decide_eq_decide]
  unfold Parts
  have hlisted : Covered constraints c → Listed constraints c.toAddress := Covered.listed
  by_cases hcovered : Covered constraints c
  · simp [hcovered, hlisted hcovered]
  · by_cases halways : rule = .always <;> simp [hcovered, halways]

end Visibility

theorem Cell.ruling_gate (field : Field) (matched : Bool) (cell : Cell) :
    ruling (gate field matched cell) = field.visibility.admits matched := by
  rw [gate_eq]
  unfold ruling
  cases field.visibility.admits matched with
  | error e => rfl
  | ok shown => cases shown <;> rfl

namespace Param

variable {scope : Scope} {field : Field} {chain : ChainId} {c : Capture}

theorem Single.rawCell_address {p : Single} (haddress : p.value.family = .address) :
    p.rawCell scope field chain c =
      Cell.gate field (decide (Listed field.constraints c.toAddress))
        (.plain .raw (Checksum.text chain c.toAddress)) := by
  have hmeets : meetsAddress field.constraints 20 c.toAddress =
      decide (Listed field.constraints c.toAddress) := by
    rw [Bool.eq_iff_iff, decide_eq_true_iff]
    exact meetsAddress_iff (Nat.le_refl 20)
  unfold rawCell rawText rawMeets
  rw [haddress, ← hmeets]
  rfl

theorem NameQuery.cell_alone {q : NameQuery} (halone : q.senders = []) :
    q.cell scope field chain c =
      Cell.gate field (decide (Covered field.constraints c))
        (q.cellOf scope chain c.toAddress) := by
  have hmeets : meetsAddress field.constraints c.bytes.length c.toAddress =
      decide (Covered field.constraints c) := by
    rw [Bool.eq_iff_iff, decide_eq_true_iff]
    exact meetsAddress_bounded
  unfold cell address
  rw [halone, ← hmeets]
  rfl

/-- Shown raw and shown by name, a byte string is ruled on in the same way, whatever the chains that
the addresses are written and looked up on. -/
def RuledAlike (p : Single) (q : NameQuery) (field : Field) (scope : Scope) (c : Capture) : Prop :=
  ∀ chain chain', Cell.ruling (p.rawCell scope field chain c) =
    Cell.ruling (q.cell scope field chain' c)

theorem ruledAlike_iff {p : Single} {q : NameQuery} (haddress : p.value.family = .address)
    (halone : q.senders = []) :
    RuledAlike p q field scope c ↔ ¬ field.visibility.Parts field.constraints c := by
  unfold RuledAlike
  simp only [Single.rawCell_address haddress, NameQuery.cell_alone halone, Cell.ruling_gate,
    Visibility.admits_listed_eq_covered, forall_const]

end Param

namespace Cells

/-- Cells that are ruled on in the same way are as many, and end in the same way. -/
theorem made_verdict_of_rulings {cs ds : Cells} (h : cs.map Cell.ruling = ds.map Cell.ruling) :
    (made cs).length = (made ds).length ∧ verdict cs = verdict ds := by
  induction cs generalizing ds with
  | nil =>
    obtain rfl := List.map_eq_nil_iff.mp h.symm
    exact ⟨rfl, rfl⟩
  | cons first cs ih =>
    obtain ⟨other, ds, rfl, hfirst, hrest⟩ := List.map_eq_cons_iff.mp h.symm
    obtain ⟨hmade, hverdict⟩ := ih hrest.symm
    match first, other with
    | .error e, .error e' =>
      cases hfirst
      exact ⟨rfl, rfl⟩
    | .error _, .ok _ => cases hfirst
    | .ok _, .error _ => cases hfirst
    | .ok none, .ok none => exact ⟨hmade, hverdict⟩
    | .ok (some _), .ok (some _) => exact ⟨congrArg Nat.succ hmade, hverdict⟩
    | .ok none, .ok (some _) => cases hfirst
    | .ok (some _), .ok none => cases hfirst

end Cells

namespace Field

open ClearSign.Action

/-- Two fields have the same fate: they are answered alike and show as many rows. -/
def SameFate (host : Host) (cache : Cache) (r : Review) (f g : Field) : Prop :=
  ((f.format host cache).exec r).1 = ((g.format host cache).exec r).1 ∧
    ((f.format host cache).exec r).2.table.length = ((g.format host cache).exec r).2.table.length

theorem sameFate_of_rulings {host : Host} {cache : Cache} {r : Review} {f g : Field}
    {cs ds : Cells} (hf : f.param.kind ≠ .calldata) (hg : g.param.kind ≠ .calldata)
    (hcs : f.param.cells ⟨host, cache, r.calls.currentCall⟩ f = .ok cs)
    (hds : g.param.cells ⟨host, cache, r.calls.currentCall⟩ g = .ok ds)
    (h : cs.map Cell.ruling = ds.map Cell.ruling) : SameFate host cache r f g := by
  obtain ⟨hmade, hverdict⟩ := Cells.made_verdict_of_rulings h
  unfold SameFate
  rw [exec_format hf hcs, exec_format hg hds, exec_forM_addCell, exec_forM_addCell, hmade,
    hverdict]
  simp only [List.length_append, List.length_map, List.length_take, hmade, and_self]

/-- Addresses shown raw and addresses shown by name are ruled on by the address that is shown, with
one exception: shown by name, a byte string shorter than an address is not held against the
constraints that are longer than itself. So they are ruled on differently where the rule looks at
constraints, some constraint is the address, and each that is so is longer than the byte string.
Where that is the case of no byte string of a field, both fields have the same fate. -/
theorem addresses_ruledAlike (field : Field) (p : Param.Single) (q : Param.NameQuery)
    (haddress : p.value.family = .address) (halone : q.senders = []) :
    (∀ scope c chain,
      p.rawCell scope field chain c = Cell.gate field
        (decide (Listed field.constraints c.toAddress))
        (.plain .raw (Checksum.text chain c.toAddress)) ∧
      q.cell scope field chain c = Cell.gate field (decide (Covered field.constraints c))
        (q.cellOf scope chain c.toAddress)) ∧
    (∀ scope c, Param.RuledAlike p q field scope c ↔
      ¬ field.visibility.Parts field.constraints c) ∧
    (∀ c, field.visibility.Parts field.constraints c → c.bytes.length < 20) ∧
    ∀ host cache r call info captures, r.calls.currentCall = some call → call.info = some info →
      call.chain ≠ 0 → p.value.resolve (some call) = .ok captures →
      q.value.resolve (some call) = .ok captures →
      (∀ c ∈ captures, ¬ field.visibility.Parts field.constraints c) →
      SameFate host cache r { field with param := .raw p } { field with param := .trustedName q } := by
  refine ⟨fun scope c chain => ⟨Param.Single.rawCell_address haddress,
    Param.NameQuery.cell_alone halone⟩, fun scope c => Param.ruledAlike_iff haddress halone, ?_, ?_⟩
  · rintro c ⟨-, hlisted, huncovered⟩
    refine Nat.lt_of_not_le fun hlong => huncovered ?_
    exact (covered_iff_listed hlong).mpr hlisted
  · intro host cache r call info captures hcall hinfo hchain hp hq halike
    have hscope : (Scope.mk host cache r.calls.currentCall).chain = .ok info.chain := by
      unfold Scope.chain Scope.info
      rw [hcall, Option.bind_some, hinfo]
      rfl
    have hlinked : Param.callChain ⟨host, cache, r.calls.currentCall⟩ = .ok call.chain := by
      unfold Param.callChain
      rw [hcall]
      exact if_neg hchain
    rw [← hcall] at hp hq
    refine sameFate_of_rulings (fun h => nomatch h) (fun h => nomatch h)
      ((Param.cells_raw hp).mpr ⟨_, hscope, rfl⟩)
      ((Param.cells_trustedName hq).mpr ⟨_, hlinked, rfl⟩) ?_
    rw [List.map_map, List.map_map]
    refine List.map_congr_left fun c hc => ?_
    have hruled : Param.RuledAlike p q { field with param := .raw p }
        ⟨host, cache, r.calls.currentCall⟩ c :=
      (Param.ruledAlike_iff haddress halone).mpr (halike c hc)
    exact hruled info.chain call.chain

/-- A value that stands for one byte. -/
def sampleByte : Value := ⟨1, .address, none, .constant [7]⟩

/-- A field whose value must be an address. -/
def sampleListed (constraint : Bytes) : Field :=
  ⟨1, "a", .raw ⟨1, sampleByte⟩, .mustBe, [constraint]⟩

open Session in
/-- A constraint of one byte lets the byte through both ways. -/
theorem addresses_ruledAlike_short :
    let device := sampleDevice .transaction
    let s := after device [sampleArguments, sampleInfo []]
    SameFate device.toHost s.cache s.review (sampleListed [7])
      { sampleListed [7] with param := .trustedName ⟨1, sampleByte, [], [], []⟩ } := by
  intro device s
  have hcurrent : (s.review.calls.currentCall.any fun c => c.info.isSome && c.chain != 0) =
      true := by decide +kernel
  obtain ⟨call, hcall, hknown⟩ := (Option.any_eq_true _ _).mp hcurrent
  rw [Bool.and_eq_true, bne_iff_ne] at hknown
  obtain ⟨info, hinfo⟩ := Option.isSome_iff_exists.mp hknown.1
  obtain ⟨-, -, -, hfate⟩ := addresses_ruledAlike (sampleListed [7]) ⟨1, sampleByte⟩
    ⟨1, sampleByte, [], [], []⟩ rfl rfl
  refine hfate device.toHost s.cache s.review call info [Capture.whole [7]] hcall hinfo hknown.2
    rfl rfl ?_
  rintro c hc ⟨-, -, huncovered⟩
  rw [List.mem_singleton.mp hc] at huncovered
  exact huncovered (by decide)

/-- Written out, the same address lets it through raw only. -/
theorem not_ruledAlike :
    ¬ ∀ (field : Field) (p : Param.Single) (q : Param.NameQuery) (scope : Scope) (c : Capture),
      p.value.family = .address → q.senders = [] → Param.RuledAlike p q field scope c := by
  intro h
  have halike := h (sampleListed (Fixed.align 20 [7]).bytes) ⟨1, sampleByte⟩
    ⟨1, sampleByte, [], [], []⟩ ⟨(Session.sampleDevice .transaction).toHost, Cache.empty, none⟩
    (Capture.whole [7]) rfl rfl
  exact (Param.ruledAlike_iff rfl rfl).mp halike ⟨by decide, by decide, by decide⟩

end Field

end ClearSign
