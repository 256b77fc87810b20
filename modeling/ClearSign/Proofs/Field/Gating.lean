import ClearSign.Proofs.Field.Showing
import ClearSign.Proofs.Field.Visibility

/-!
Which byte strings of a field its rule lets through, for the two kinds that look at the rule: raw
values and addresses shown by name. What a byte string is held against are its own bytes and the
constraints, never the text that the display has room for.
-/

namespace ClearSign

namespace Visibility

/-- The byte strings that are shown, by which of them meet a constraint. -/
def selects (rule : Visibility) (meets : Capture → Prop) [DecidablePred meets]
    (captures : Captures) : Captures :=
  match rule with
  | always => captures
  | mustBe => captures.takeWhile fun c => decide (meets c)
  | ifNotIn => captures.filter fun c => !decide (meets c)

/-- What comes of the field as a whole. -/
def judges (rule : Visibility) (meets : Capture → Prop) [DecidablePred meets]
    (captures : Captures) : Except Error Unit :=
  match rule with
  | mustBe => if ∀ c ∈ captures, meets c then .ok () else .error .constraintRejected
  | always | ifNotIn => .ok ()

theorem length_selects_le (rule : Visibility) (meets : Capture → Prop) [DecidablePred meets]
    (captures : Captures) : (rule.selects meets captures).length ≤ captures.length := by
  cases rule with
  | always => exact Nat.le_refl _
  | mustBe => exact (List.takeWhile_sublist _).length_le
  | ifNotIn => exact List.length_filter_le _ _

/-- A rule objects to a field in one way only. -/
theorem judges_cases (rule : Visibility) (meets : Capture → Prop) [DecidablePred meets]
    (captures : Captures) : rule.judges meets captures = .ok () ∨
      rule.judges meets captures = .error .constraintRejected := by
  cases rule with
  | mustBe =>
    by_cases hall : ∀ c ∈ captures, meets c
    · exact .inl (if_pos hall)
    · exact .inr (if_neg hall)
  | always | ifNotIn => exact .inl rfl

end Visibility

/-- A constraint is an address once it is padded with zeros in front. -/
def Padded (constraint : Bytes) (a : Address) : Prop :=
  constraint.length ≤ 20 ∧ List.replicate (20 - constraint.length) 0 ++ constraint = a.bytes

instance (constraint : Bytes) (a : Address) : Decidable (Padded constraint a) :=
  inferInstanceAs (Decidable (_ ∧ _))

theorem align_eq_iff {constraint : Bytes} {a : Address} (h : constraint.length ≤ 20) :
    Fixed.align 20 constraint = a ↔ List.replicate (20 - constraint.length) 0 ++ constraint =
      a.bytes := by
  have hpadded : (Fixed.align 20 constraint).bytes =
      List.replicate (20 - constraint.length) 0 ++ constraint := by
    have hwhole : constraint.length - 20 = 0 := by omega
    show Bytes.alignRight 20 constraint = _
    rw [Bytes.alignRight, hwhole, List.drop_zero]
  rw [← hpadded]
  constructor
  · intro ha
    rw [ha]
  · exact Fixed.ext

/-- An address meets a constraint that is no longer than the bound and becomes the address. -/
theorem meetsAddress_bounded {constraints : List Bytes} {bound : Nat} {a : Address} :
    meetsAddress constraints bound a = true ↔
      ∃ k ∈ constraints, k.length ≤ bound ∧ Padded k a := by
  unfold meetsAddress
  rw [List.any_eq_true]
  apply exists_congr
  intro k
  simp only [Bool.and_eq_true, decide_eq_true_eq, beq_iff_eq]
  constructor
  · rintro ⟨hk, hlength, ha⟩
    exact ⟨hk, hlength.1, hlength.2, (align_eq_iff hlength.2).mp ha⟩
  · rintro ⟨hk, hbound, hlength, ha⟩
    exact ⟨hk, ⟨hbound, hlength⟩, (align_eq_iff hlength).mpr ha⟩

theorem meetsAddress_iff {constraints : List Bytes} {bound : Nat} {a : Address}
    (hbound : 20 ≤ bound) :
    meetsAddress constraints bound a = true ↔ ∃ k ∈ constraints, Padded k a := by
  rw [meetsAddress_bounded]
  refine exists_congr fun k => and_congr_right fun _ => ?_
  exact and_iff_right_of_imp fun hpadded => Nat.le_trans hpadded.1 hbound

/-- A constraint equals a byte string of a type: as a number of whatever width, as an address, or
byte for byte. -/
def TypeFamily.Equates (family : TypeFamily) (constraint bs : Bytes) : Prop :=
  match family with
  | .uint => constraint.toNat = bs.toNat
  | .address => Padded constraint (Fixed.align 20 bs)
  | .int | .ufixed | .fixed | .bool | .bytes | .string => constraint = bs

instance (family : TypeFamily) (constraint bs : Bytes) :
    Decidable (family.Equates constraint bs) :=
  match family with
  | .uint => inferInstanceAs (Decidable (constraint.toNat = bs.toNat))
  | .address => inferInstanceAs (Decidable (Padded constraint (Fixed.align 20 bs)))
  | .int | .ufixed | .fixed | .bool | .bytes | .string =>
    inferInstanceAs (Decidable (constraint = bs))

namespace Param

/-- The address that is looked up for a byte string: that of the device, where it stands for the
device. -/
def NameQuery.subject (p : NameQuery) (wallet : Address) (c : Capture) : Address :=
  if p.senders.contains c.toAddress then wallet else c.toAddress

/-- Some constraint equals a byte string as the field has it read. -/
def Satisfies (p : Param) (wallet : Address) (constraints : List Bytes) (c : Capture) : Prop :=
  match p with
  | .raw p => ∃ k ∈ constraints, p.value.family.Equates k c.bytes
  | .trustedName p => ∃ k ∈ constraints, Padded k (p.subject wallet c)
  | .amount _ | .tokenAmount _ | .nft _ | .datetime _ | .duration _ | .unit _ | .enum _
  | .calldata _ | .token _ | .network _ => False

instance (p : Param) (wallet : Address) (constraints : List Bytes) :
    DecidablePred (p.Satisfies wallet constraints) := fun c =>
  match p with
  | .raw p => inferInstanceAs (Decidable (∃ k ∈ constraints, p.value.family.Equates k c.bytes))
  | .trustedName p => inferInstanceAs (Decidable (∃ k ∈ constraints, Padded k (p.subject wallet c)))
  | .amount _ | .tokenAmount _ | .nft _ | .datetime _ | .duration _ | .unit _ | .enum _
  | .calldata _ | .token _ | .network _ => isFalse id

/-- The byte strings are such that the rule of the field has a say: raw ones of a type that is
shown at all, and ones that are as long as an address where names are looked up. -/
def IsGated (p : Param) (captures : Captures) : Prop :=
  match p with
  | .raw p => p.value.family ≠ .ufixed ∧ p.value.family ≠ .fixed
  | .trustedName _ => ∀ c ∈ captures, 20 ≤ c.bytes.length
  | .amount _ | .tokenAmount _ | .nft _ | .datetime _ | .duration _ | .unit _ | .enum _
  | .calldata _ | .token _ | .network _ => False

/-- What a byte string is shown as, whether or not it is shown: raw it is the text of its type on
the chain of the descriptor; an address is its name on the chain of the call, or itself. -/
def Displays (p : Param) (scope : Scope) (info : TransactionInfo) (call : Call)
    (wallet : Address) (c : Capture) (cell : Cell) : Prop :=
  match p with
  | .raw p => ∃ text, rawText scope.host.settings.displayWidth info.chain p.value c.bytes =
      .ok text ∧ cell = .plain .raw text
  | .trustedName p => cell = p.cellOf scope call.chain (p.subject wallet c)
  | .amount _ | .tokenAmount _ | .nft _ | .datetime _ | .duration _ | .unit _ | .enum _
  | .calldata _ | .token _ | .network _ => False

theorem rawMeets_iff {family : TypeFamily} {constraints : List Bytes} {bs : Bytes} :
    rawMeets family constraints bs = true ↔ ∃ k ∈ constraints, family.Equates k bs := by
  cases family with
  | uint => simp [rawMeets, TypeFamily.Equates]
  | address => exact meetsAddress_iff (Nat.le_refl 20)
  | _ => simp [rawMeets, TypeFamily.Equates]

/-- Of a type that is shown at all, every byte string has a text. -/
theorem exists_rawText (width : Nat) (chain : ChainId) {v : Value} (hufixed : v.family ≠ .ufixed)
    (hfixed : v.family ≠ .fixed) :
    ∃ text : Bytes → String, ∀ bs, rawText width chain v bs = .ok (text bs) := by
  unfold rawText
  cases hfamily : v.family with
  | ufixed => exact absurd hfamily hufixed
  | fixed => exact absurd hfamily hfixed
  | _ => exact ⟨_, fun _ => rfl⟩

end Param

namespace Cell

variable {field : Field} {matched : Bool} {cell : Cell}

theorem gate_eq : gate field matched cell =
    (field.visibility.admits matched).map fun shown => if shown then some cell else none := by
  unfold gate
  cases field.visibility.admits matched with
  | error e => rfl
  | ok shown => cases shown <;> rfl

end Cell

namespace Cells

variable (field : Field) (meets : Capture → Prop) [DecidablePred meets] (cell : Capture → Cell)

/-- Cells that are gated are made of the byte strings that the rule selects. -/
theorem made_gated (captures : Captures) :
    made (captures.map fun c => Cell.gate field (decide (meets c)) (cell c)) =
      (field.visibility.selects meets captures).map cell := by
  simp only [Cell.gate_eq]
  induction captures with
  | nil => cases field.visibility <;> rfl
  | cons c captures ih =>
    by_cases hmeets : meets c
    · cases hrule : field.visibility <;>
        simp_all [Visibility.admits, Visibility.selects, made, Except.map]
    · cases hrule : field.visibility <;>
        simp_all [Visibility.admits, Visibility.selects, made, Except.map]

theorem verdict_gated (captures : Captures) :
    verdict (captures.map fun c => Cell.gate field (decide (meets c)) (cell c)) =
      field.visibility.judges meets captures := by
  simp only [Cell.gate_eq]
  induction captures with
  | nil => cases field.visibility <;> rfl
  | cons c captures ih =>
    by_cases hmeets : meets c
    · cases hrule : field.visibility <;>
        simp_all [Visibility.admits, Visibility.judges, verdict, Except.map]
    · cases hrule : field.visibility <;>
        simp_all [Visibility.admits, Visibility.judges, verdict, Except.map]

end Cells

namespace Param

variable {field : Field} {captures : Captures}

/-- Raw byte strings are gated by the constraints that equal them. -/
theorem Single.cells_eq_gated {p : Single} {info : TransactionInfo} (scope : Scope)
    (wallet : Address) (hinfo : scope.info = .ok info)
    (hresolve : scope.resolve p.value = .ok captures) (hgated : (Param.raw p).IsGated captures) :
    ∃ cell : Capture → Cell,
      (∀ call c, (Param.raw p).Displays scope info call wallet c (cell c)) ∧
      (Param.raw p).cells scope field = .ok (captures.map fun c =>
        Cell.gate field (decide ((Param.raw p).Satisfies wallet field.constraints c))
          (cell c)) := by
  obtain ⟨text, htext⟩ :=
    exists_rawText scope.host.settings.displayWidth info.chain hgated.1 hgated.2
  refine ⟨fun c => .plain .raw (text c.bytes), fun _ c => ⟨_, htext c.bytes, rfl⟩, ?_⟩
  have hchain : scope.chain = .ok info.chain := by
    unfold Scope.chain
    rw [hinfo]
    rfl
  have hcell (c : Capture) : p.rawCell scope field info.chain c = Cell.gate field
      (decide ((Param.raw p).Satisfies wallet field.constraints c))
      (.plain .raw (text c.bytes)) := by
    have hmeets : rawMeets p.value.family field.constraints c.bytes =
        decide ((Param.raw p).Satisfies wallet field.constraints c) := by
      rw [Bool.eq_iff_iff, decide_eq_true_iff]
      exact rawMeets_iff
    unfold rawCell
    rw [htext, hmeets]
    rfl
  unfold cells
  simp only [hchain, hresolve, bind, Except.bind, pure, Except.pure, Except.ok.injEq]
  exact List.map_congr_left fun c _ => hcell c

/-- Addresses that are looked up are gated by the constraints that equal them, once the device
stands in for the senders. -/
theorem NameQuery.cells_eq_gated {p : NameQuery} {call : Call} {wallet : Address} (scope : Scope)
    (hcall : scope.call = some call) (hchain : call.chain ≠ 0)
    (hwallet : scope.host.registry.wallet = .ok wallet)
    (hresolve : scope.resolve p.value = .ok captures)
    (hgated : (Param.trustedName p).IsGated captures) :
    ∃ cell : Capture → Cell,
      (∀ info c, (Param.trustedName p).Displays scope info call wallet c (cell c)) ∧
      (Param.trustedName p).cells scope field = .ok (captures.map fun c =>
        Cell.gate field (decide ((Param.trustedName p).Satisfies wallet field.constraints c))
          (cell c)) := by
  refine ⟨fun c => p.cellOf scope call.chain (p.subject wallet c), fun _ _ => rfl, ?_⟩
  have haddress (c : Capture) : p.address scope c = .ok (p.subject wallet c) := by
    unfold address subject
    split
    · exact hwallet
    · rfl
  have hcell (c : Capture) (hc : c ∈ captures) : p.cell scope field call.chain c = Cell.gate field
      (decide ((Param.trustedName p).Satisfies wallet field.constraints c))
      (p.cellOf scope call.chain (p.subject wallet c)) := by
    have hmeets : meetsAddress field.constraints c.bytes.length (p.subject wallet c) =
        decide ((Param.trustedName p).Satisfies wallet field.constraints c) := by
      rw [Bool.eq_iff_iff, decide_eq_true_iff]
      exact meetsAddress_iff (hgated c hc)
    unfold cell
    rw [haddress, ← hmeets]
    rfl
  have hlinked : callChain scope = .ok call.chain := by
    unfold callChain
    rw [hcall]
    exact if_neg hchain
  unfold cells
  simp only [hlinked, hresolve, bind, Except.bind, pure, Except.pure, Except.ok.injEq]
  exact List.map_congr_left hcell

/-- The cells of a field whose rule has a say are gated by what its byte strings satisfy. -/
theorem cells_eq_gated {p : Param} {v : Value} {call : Call} {info : TransactionInfo}
    {wallet : Address} (scope : Scope) (hcall : scope.call = some call)
    (hinfo : call.info = some info) (hchain : call.chain ≠ 0)
    (hwallet : scope.host.registry.wallet = .ok wallet) (hvalue : p.shown? = some v)
    (hresolve : scope.resolve v = .ok captures) (hgated : p.IsGated captures) :
    ∃ cell : Capture → Cell,
      (∀ c, p.Displays scope info call wallet c (cell c)) ∧
      p.cells scope field = .ok (captures.map fun c =>
        Cell.gate field (decide (p.Satisfies wallet field.constraints c)) (cell c)) := by
  cases p with
  | raw p =>
    obtain rfl : p.value = v := Option.some.inj hvalue
    have hscope : scope.info = .ok info := by
      unfold Scope.info
      rw [hcall, Option.bind_some, hinfo]
    obtain ⟨cell, hdisplays, hcells⟩ := Single.cells_eq_gated scope wallet hscope hresolve hgated
    exact ⟨cell, hdisplays call, hcells⟩
  | trustedName p =>
    obtain rfl : p.value = v := Option.some.inj hvalue
    obtain ⟨cell, hdisplays, hcells⟩ :=
      NameQuery.cells_eq_gated scope hcall hchain hwallet hresolve hgated
    exact ⟨cell, hdisplays info, hcells⟩
  | _ => exact hgated.elim

theorem IsGated.kind_ne {p : Param} (h : p.IsGated captures) : p.kind ≠ .calldata := by
  cases p with
  | calldata p => exact h.elim
  | _ =>
    intro hkind
    cases hkind

end Param

namespace Field

open ClearSign.Action

/-- A field whose rule has a say shows the byte strings that the rule selects, in order, and ends
as the rule judges, as long as the table has room for all of them and the device has an address.
Neither depends on how much of a byte string the display has room for. -/
theorem format_gated (host : Host) (cache : Cache) (field : Field) (r : Review) (call : Call)
    (info : TransactionInfo) (wallet : Address) (v : Value) (captures : Captures)
    (hcall : r.calls.currentCall = some call) (hinfo : call.info = some info)
    (hchain : call.chain ≠ 0) (hwallet : host.registry.wallet = .ok wallet)
    (hvalue : field.param.shown? = some v) (hresolve : v.resolve (some call) = .ok captures)
    (hgated : field.param.IsGated captures)
    (hroom : r.table.length + captures.length ≤ host.settings.maxRows) :
    ∃ cell : Capture → Cell,
      (∀ c, field.param.Displays ⟨host, cache, some call⟩ info call wallet c (cell c)) ∧
      (field.format host cache).exec r =
        (field.visibility.judges (field.param.Satisfies wallet field.constraints) captures,
        { r with
          table := r.table ++
            (field.visibility.selects (field.param.Satisfies wallet field.constraints)
              captures).map fun c => rowOf field.name r.calls.isVerified (cell c) }) := by
  obtain ⟨cell, hdisplays, hcells⟩ := Param.cells_eq_gated ⟨host, cache, some call⟩ rfl hinfo
    hchain hwallet hvalue hresolve hgated
  refine ⟨cell, hdisplays, ?_⟩
  have hfits : ((field.visibility.selects (field.param.Satisfies wallet field.constraints)
      captures).map cell).length ≤ host.settings.maxRows - r.table.length := by
    have hselects := field.visibility.length_selects_le
      (field.param.Satisfies wallet field.constraints) captures
    rw [List.length_map]
    omega
  rw [← hcall] at hcells
  rw [exec_format hgated.kind_ne hcells, exec_forM_addCell, Cells.made_gated,
    Cells.verdict_gated, if_pos hfits, List.take_of_length_le hfits, List.map_map]
  rfl

open Session

/-- A field that shows the numbers of a list under a rule, with the number one as constraint. -/
def sampleGated (rule : Visibility) : Field :=
  ⟨1, "a", .raw ⟨1, sampleNumbers .uint 0⟩, rule, [[1]]⟩

/-- Of the numbers one, two, three and one, those that are not one are shown, or the first up to the
one that had to be one. -/
theorem format_gated_numbers :
    let device := sampleDevice .transaction
    let s := after device (sampleWords [4, 1, 2, 3, 1] [])
    ∃ left kept : List Row,
      ((sampleGated .ifNotIn).format device.toHost s.cache).exec s.review =
        (.ok (), { s.review with table := s.review.table ++ left }) ∧
      left.map Row.value = ["2", "3"] ∧
      ((sampleGated .mustBe).format device.toHost s.cache).exec s.review =
        (.error .constraintRejected, { s.review with table := s.review.table ++ kept }) ∧
      kept.map Row.value = ["1"] := by
  intro device s
  have hcurrent : (s.review.calls.currentCall.any fun c => c.info.isSome && c.chain != 0) =
      true := by decide +kernel
  obtain ⟨call, hcall, hknown⟩ := (Option.any_eq_true _ _).mp hcurrent
  rw [Bool.and_eq_true, bne_iff_ne] at hknown
  obtain ⟨info, hinfo⟩ := Option.isSome_iff_exists.mp hknown.1
  have hresolve : ((sampleNumbers .uint 0).resolve s.review.calls.currentCall).toOption.map
      List.length = some 4 := by decide +kernel
  obtain ⟨captures, hresolve, hlength⟩ := Option.map_eq_some_iff.mp hresolve
  rw [Refusal.toOption_eq_some, hcall] at hresolve
  have hempty : s.review.table = [] := by decide +kernel
  have hroom : s.review.table.length + captures.length ≤ device.settings.maxRows := by
    rw [hempty, hlength]
    decide
  have hgated (rule : Visibility) := format_gated device.toHost s.cache (sampleGated rule) s.review
    call info (Fixed.zero 20) _ captures hcall hinfo hknown.2 rfl rfl hresolve
    ⟨by decide, by decide⟩ hroom
  obtain ⟨_, -, hleft⟩ := hgated .ifNotIn
  obtain ⟨_, -, hkept⟩ := hgated .mustBe
  have hruns :
      (((sampleGated .ifNotIn).format device.toHost s.cache).exec s.review).2.table.map
        Row.value = ["2", "3"] ∧
      (((sampleGated .mustBe).format device.toHost s.cache).exec s.review).1.toBool = false ∧
      (((sampleGated .mustBe).format device.toHost s.cache).exec s.review).2.table.map
        Row.value = ["1"] := by decide +kernel
  rw [hleft, hkept] at hruns
  obtain ⟨hleftValues, hrefused, hkeptValues⟩ := hruns
  rw [hempty] at hleftValues hkeptValues
  have hrejected := (Visibility.judges_cases .mustBe _ captures).resolve_left fun hok =>
    absurd (congrArg Except.toBool hok) (Bool.eq_false_iff.mp hrefused)
  exact ⟨_, _, hleft, hleftValues, hkept.trans (Prod.ext hrejected rfl), hkeptValues⟩

end Field

end ClearSign
