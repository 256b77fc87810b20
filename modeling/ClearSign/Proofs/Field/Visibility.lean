import ClearSign.Proofs.Review.Rows
import ClearSign.Proofs.Session.Run

/-!
Which fields their rule turns down. A value that must meet a constraint and meets none turns a
field down if it is shown raw, or if it is an address that is shown by name. The other kinds of
fields show a value whatever their rule says.
-/

namespace ClearSign

open Refusal

namespace Field

/-- A constraint equals a byte string: byte for byte, as a number, or as an address. -/
def Matches (constraint bs : Bytes) : Prop :=
  constraint = bs ∨ constraint.toNat = bs.toNat ∨
    constraint.length ≤ 20 ∧ Fixed.align 20 constraint = Fixed.align 20 bs

/-- The field as it would be without its rule. -/
def unruled (field : Field) : Field := { field with visibility := .always }

end Field

namespace Cell

variable {field : Field} {matched : Bool} {cell : Cell}

theorem gate_unruled : gate field.unruled matched cell = .ok (some cell) := rfl

theorem gate_mustBe (h : field.visibility = .mustBe) {shown : Option Cell} :
    gate field matched cell = .ok shown ↔ matched = true ∧ some cell = shown := by
  unfold gate
  rw [h]
  cases matched with
  | false =>
    simp only [Bool.false_eq_true, false_and, iff_false]
    intro hshown
    cases hshown
  | true => simp [Visibility.admits, bind, Except.bind, pure, Except.pure]

end Cell

theorem meetsAddress_eq_false {constraints : List Bytes} {bs : Bytes}
    (h : ∀ k ∈ constraints, ¬ Field.Matches k bs) (bound : Nat) :
    meetsAddress constraints bound (Fixed.align 20 bs) = false := by
  unfold meetsAddress
  rw [List.any_eq_false]
  intro k hk hmeets
  simp only [Bool.and_eq_true, decide_eq_true_eq, beq_iff_eq] at hmeets
  exact h k hk (.inr (.inr ⟨hmeets.1.2, hmeets.2⟩))

namespace Param

/-- The value that a field shows, if it shows one. -/
def shown? : Param → Option Value
  | .raw p => some p.value
  | .amount p => some p.value
  | .tokenAmount p => some p.value
  | .nft p => some p.id
  | .datetime p => some p.value
  | .duration p => some p.value
  | .unit p => some p.value
  | .enum p => some p.value
  | .trustedName p => some p.value
  | .calldata _ => none
  | .token p => some p.address
  | .network p => some p.value

/-- What a field asks of a byte string that it shows, where its rule asks anything: of an address
that stands for the device it asks it of that of the device. -/
def Meets (scope : Scope) (constraints : List Bytes) (c : Capture) : Param → Prop
  | .raw p => rawMeets p.value.family constraints c.bytes = true
  | .trustedName p => ∃ a, p.address scope c = .ok a ∧
      meetsAddress constraints c.bytes.length a = true
  | _ => True

variable {scope : Scope} {field : Field} {chain : ChainId} {c : Capture}

theorem rawMeets_eq_false {constraints : List Bytes} {bs : Bytes}
    (h : ∀ k ∈ constraints, ¬ Field.Matches k bs) (family : TypeFamily) :
    rawMeets family constraints bs = false := by
  have hbytes : constraints.contains bs = false := by
    rw [List.contains_eq_mem, decide_eq_false_iff_not]
    intro hmem
    exact h bs hmem (.inl rfl)
  have hnumber : (constraints.any fun k => k.toNat == bs.toNat) = false := by
    rw [List.any_eq_false]
    intro k hk hequal
    exact h k hk (.inr (.inl (beq_iff_eq.mp hequal)))
  cases family with
  | uint => exact hnumber
  | address => exact meetsAddress_eq_false h 20
  | _ => exact hbytes

theorem Single.rawCell_mustBe {p : Single} (h : field.visibility = .mustBe)
    (shown : Option Cell) : p.rawCell scope field chain c = .ok shown ↔
      rawMeets p.value.family field.constraints c.bytes = true ∧
        p.rawCell scope field.unruled chain c = .ok shown := by
  unfold rawCell
  simp only [bind_eq_ok, Cell.gate_mustBe h, Cell.gate_unruled, Except.ok.injEq]
  constructor
  · rintro ⟨text, htext, hmeets, hshown⟩
    exact ⟨hmeets, text, htext, hshown⟩
  · rintro ⟨hmeets, text, htext, hshown⟩
    exact ⟨text, htext, hmeets, hshown⟩

theorem NameQuery.cell_mustBe {p : NameQuery} (h : field.visibility = .mustBe)
    (shown : Option Cell) : p.cell scope field chain c = .ok shown ↔
      (∃ a, p.address scope c = .ok a ∧
        meetsAddress field.constraints c.bytes.length a = true) ∧
      p.cell scope field.unruled chain c = .ok shown := by
  unfold cell
  simp only [bind_eq_ok, Cell.gate_mustBe h, Cell.gate_unruled, Except.ok.injEq]
  constructor
  · rintro ⟨a, ha, hmeets, hshown⟩
    exact ⟨⟨a, ha, hmeets⟩, a, ha, hshown⟩
  · rintro ⟨⟨a, ha, hmeets⟩, a', ha', hshown⟩
    obtain rfl : a = a' := Except.ok.inj (ha.symm.trans ha')
    exact ⟨a, ha, hmeets, hshown⟩

theorem cells_raw {p : Single} {captures : Captures} {made : Cells}
    (hresolve : p.value.resolve scope.call = .ok captures) :
    (Param.raw p).cells scope field = .ok made ↔
      ∃ chain, scope.chain = .ok chain ∧ captures.map (p.rawCell scope field chain) = made := by
  unfold cells Scope.resolve
  simp only [hresolve, bind_eq_ok, pure_eq_ok, Except.ok.injEq, exists_eq_left']

theorem cells_trustedName {p : NameQuery} {captures : Captures} {made : Cells}
    (hresolve : p.value.resolve scope.call = .ok captures) :
    (Param.trustedName p).cells scope field = .ok made ↔
      ∃ chain, callChain scope = .ok chain ∧
        captures.map (p.cell scope field chain) = made := by
  unfold cells Scope.resolve
  simp only [hresolve, bind_eq_ok, pure_eq_ok, Except.ok.injEq, exists_eq_left']

/-- Kinds that show neither raw values nor names have no use for the rule of the field. -/
theorem cells_unruled {p : Param} (hraw : p.kind ≠ .raw) (hname : p.kind ≠ .trustedName) :
    p.cells scope field.unruled = p.cells scope field := by
  cases p with
  | raw => exact absurd rfl hraw
  | trustedName => exact absurd rfl hname
  | _ => rfl

end Param

namespace Field

open ClearSign.Action

variable {host : Host} {cache : Cache} {field : Field} {r r' : Review} {v : Value}
  {captures : Captures}

theorem addCell_answers_iff {key : String} {cell : Except Error (Option Cell)} :
    (addCell host key cell).exec r = (.ok (), r') ↔
      ∃ shown, cell = .ok shown ∧ (addCell host key (.ok shown)).exec r = (.ok (), r') := by
  cases cell with
  | ok shown => simp
  | error e =>
    constructor
    · intro h
      cases h
    · rintro ⟨_, h, -⟩
      cases h

/-- Two ways to make cells, of which the first makes what the second makes, but only of byte
strings that pass a test: its cells are shown just if all pass and those of the second are. -/
theorem forM_addCell_iff {key : String} {f g : Capture → Except Error (Option Cell)}
    {Passes : Capture → Prop} (hcell : ∀ c shown, f c = .ok shown ↔ Passes c ∧ g c = .ok shown) :
    ((captures.map f).forM (addCell host key)).exec r = (.ok (), r') ↔
      (∀ c ∈ captures, Passes c) ∧
        ((captures.map g).forM (addCell host key)).exec r = (.ok (), r') := by
  induction captures generalizing r with
  | nil => simp
  | cons c captures ih =>
    simp only [List.map_cons, forM_cons_answers, List.forall_mem_cons, ih]
    constructor
    · rintro ⟨mid, hfirst, hall, hrest⟩
      obtain ⟨shown, hshown, hrow⟩ := addCell_answers_iff.mp hfirst
      obtain ⟨hpasses, hshown⟩ := (hcell c shown).mp hshown
      exact ⟨⟨hpasses, hall⟩, mid, addCell_answers_iff.mpr ⟨shown, hshown, hrow⟩, hrest⟩
    · rintro ⟨⟨hpasses, hall⟩, mid, hfirst, hrest⟩
      obtain ⟨shown, hshown, hrow⟩ := addCell_answers_iff.mp hfirst
      exact ⟨mid, addCell_answers_iff.mpr ⟨shown, (hcell c shown).mpr ⟨hpasses, hshown⟩, hrow⟩,
        hall, hrest⟩

/-- The same of cells that need a chain to be known. -/
theorem shown_mapped_iff {key : String} {chain? : Except Error ChainId}
    {f g : ChainId → Capture → Except Error (Option Cell)} {Passes : Capture → Prop}
    (hcell : ∀ chain c shown, f chain c = .ok shown ↔ Passes c ∧ g chain c = .ok shown) :
    (∃ cells, (∃ chain, chain? = .ok chain ∧ captures.map (f chain) = cells) ∧
        (cells.forM (addCell host key)).exec r = (.ok (), r')) ↔
      (∀ c ∈ captures, Passes c) ∧
        ∃ cells, (∃ chain, chain? = .ok chain ∧ captures.map (g chain) = cells) ∧
          (cells.forM (addCell host key)).exec r = (.ok (), r') := by
  constructor
  · rintro ⟨_, ⟨chain, hchain, rfl⟩, h⟩
    obtain ⟨hall, h⟩ := (forM_addCell_iff (hcell chain)).mp h
    exact ⟨hall, _, ⟨chain, hchain, rfl⟩, h⟩
  · rintro ⟨hall, _, ⟨chain, hchain, rfl⟩, h⟩
    exact ⟨_, ⟨chain, hchain, rfl⟩, (forM_addCell_iff (hcell chain)).mpr ⟨hall, h⟩⟩

/-- A field that shows something is formatted by showing its cells. -/
theorem format_answers_iff (hshown : field.param.shown? = some v) :
    (field.format host cache).exec r = (.ok (), r') ↔
      ∃ cells, field.param.cells ⟨host, cache, r.calls.currentCall⟩ field = .ok cells ∧
        (cells.forM (addCell host field.name)).exec r = (.ok (), r') := by
  unfold format
  rw [exec_get_bind]
  cases hparam : field.param with
  | calldata p =>
    rw [hparam] at hshown
    cases hshown
  | _ =>
    simp only [bind_answers, ofExcept_answers]
    constructor
    · rintro ⟨cells, _, ⟨hcells, rfl⟩, h⟩
      exact ⟨cells, hcells, h⟩
    · rintro ⟨cells, hcells, h⟩
      exact ⟨cells, r, ⟨hcells, rfl⟩, h⟩

/-- A field that must meet its constraints is shown just if it would be shown without them and
each byte string that it shows passes what its kind asks of it. -/
theorem format_mustBe_iff (hmust : field.visibility = .mustBe)
    (hshown : field.param.shown? = some v)
    (hresolve : v.resolve r.calls.currentCall = .ok captures) :
    (field.format host cache).exec r = (.ok (), r') ↔
      (∀ c ∈ captures,
        field.param.Meets ⟨host, cache, r.calls.currentCall⟩ field.constraints c) ∧
      (field.unruled.format host cache).exec r = (.ok (), r') := by
  have hunruled : field.unruled.param.shown? = some v := hshown
  rw [format_answers_iff hshown, format_answers_iff hunruled]
  show _ ↔ _ ∧ ∃ cells, field.param.cells _ field.unruled = .ok cells ∧
    (cells.forM (addCell host field.name)).exec r = (.ok (), r')
  -- Two kinds look at the rule; of the others the cells are the same without it.
  cases hparam : field.param with
  | raw p =>
    rw [hparam] at hshown
    obtain rfl : p.value = v := Option.some.inj hshown
    have hscope : p.value.resolve (Scope.call ⟨host, cache, r.calls.currentCall⟩) = _ := hresolve
    simp only [Param.cells_raw hscope]
    exact shown_mapped_iff fun chain c => p.rawCell_mustBe hmust
  | trustedName p =>
    rw [hparam] at hshown
    obtain rfl : p.value = v := Option.some.inj hshown
    have hscope : p.value.resolve (Scope.call ⟨host, cache, r.calls.currentCall⟩) = _ := hresolve
    simp only [Param.cells_trustedName hscope]
    exact shown_mapped_iff fun chain c => p.cell_mustBe hmust
  | _ =>
    rw [Param.cells_unruled (by simp [Param.kind]) (by simp [Param.kind])]
    simp [Param.Meets]

/-- Where no constraint is an address, one that is looked up can only meet them by standing for
the device. -/
theorem meets_trustedName_iff {scope : Scope} {constraints : List Bytes} {p : Param.NameQuery}
    {c : Capture} (hunmet : ∀ k ∈ constraints, ¬ Matches k c.bytes) :
    (Param.trustedName p).Meets scope constraints c ↔
      p.senders.contains c.toAddress = true ∧
        ∃ wallet, scope.host.registry.wallet = .ok wallet ∧
          meetsAddress constraints c.bytes.length wallet = true := by
  show (∃ a, p.address scope c = .ok a ∧ meetsAddress constraints c.bytes.length a = true) ↔ _
  unfold Param.NameQuery.address
  by_cases hsender : p.senders.contains c.toAddress = true
  · rw [if_pos hsender]
    constructor
    · intro hwallet
      exact ⟨hsender, hwallet⟩
    · rintro ⟨-, hwallet⟩
      exact hwallet
  · rw [if_neg hsender]
    constructor
    · rintro ⟨a, ha, hmeets⟩
      cases ha
      have hno : meetsAddress constraints c.bytes.length c.toAddress = false :=
        meetsAddress_eq_false hunmet c.bytes.length
      rw [hno] at hmeets
      cases hmeets
    · rintro ⟨hyes, -⟩
      exact absurd hyes hsender

/-- A field that must meet its constraints, and that shows byte strings of which none is one of
them, is turned down if it is shown raw. If it is shown by name it is turned down unless each of
the byte strings stands for the device, whose address is a constraint. Any other field is shown
just as it would be without its rule. -/
theorem mustBe_unmet_iff (host : Host) (cache : Cache) (field : Field) (r r' : Review) (v : Value)
    (captures : Captures) (hmust : field.visibility = .mustBe)
    (hshown : field.param.shown? = some v)
    (hresolve : v.resolve r.calls.currentCall = .ok captures) (hsome : captures ≠ [])
    (hunmet : ∀ c ∈ captures, ∀ k ∈ field.constraints, ¬ Matches k c.bytes) :
    (field.format host cache).exec r = (.ok (), r') ↔
      field.param.kind ≠ .raw ∧
      (∀ p, field.param = .trustedName p → ∀ c ∈ captures,
        p.senders.contains c.toAddress = true ∧
          ∃ wallet, host.registry.wallet = .ok wallet ∧
            meetsAddress field.constraints c.bytes.length wallet = true) ∧
      (field.unruled.format host cache).exec r = (.ok (), r') := by
  rw [format_mustBe_iff hmust hshown hresolve, ← and_assoc]
  apply and_congr_left'
  cases hparam : field.param with
  | raw p =>
    obtain ⟨c, hc⟩ := List.exists_mem_of_ne_nil captures hsome
    have hno := Param.rawMeets_eq_false (hunmet c hc) p.value.family
    simp only [Param.kind, ne_eq, not_true_eq_false, false_and, iff_false]
    intro hmeets
    have hyes : Param.rawMeets p.value.family field.constraints c.bytes = true := hmeets c hc
    rw [hno] at hyes
    cases hyes
  | trustedName p =>
    simp only [Param.kind, ne_eq, reduceCtorEq, not_false_eq_true, true_and,
      Param.trustedName.injEq, forall_eq']
    exact forall₂_congr fun c hc => meets_trustedName_iff (hunmet c hc)
  | _ => simp [Param.Meets, Param.kind]

/-- A field that shows an amount, and that must meet constraints of which there are none. -/
def sampleRuled : Field :=
  ⟨1, "a", .amount ⟨1, ⟨1, .uint, none, .constant [1]⟩⟩, .mustBe, []⟩

open Tlv Session in
/-- It can be asked for. -/
example : (Field.parse (write 0 [1] ++ write 1 [97] ++ write 2 [1] ++
    write 3 (write 0 [1] ++ write 1 (sampleValue 1 [1])) ++ write 4 [1])).toOption =
      some sampleRuled := by decide +kernel

open Session in
/-- As it is shown without its rule, it is shown with it. -/
theorem mustBe_unmet_iff_amount :
    let device := sampleDevice .transaction
    let s := after device [sampleArguments, sampleInfo []]
    ∃ r', (sampleRuled.unruled.format device.toHost s.cache).exec s.review = (.ok (), r') ∧
      (sampleRuled.format device.toHost s.cache).exec s.review = (.ok (), r') := by
  intro device s
  have hrun : ((sampleRuled.unruled.format device.toHost s.cache).exec s.review).1.toBool =
      true := by decide +kernel
  obtain ⟨⟨⟩, hanswer⟩ := exists_of_toBool hrun
  obtain ⟨r', hunruled⟩ : ∃ r',
      (sampleRuled.unruled.format device.toHost s.cache).exec s.review = (.ok (), r') :=
    ⟨_, Prod.ext hanswer rfl⟩
  refine ⟨r', hunruled, (mustBe_unmet_iff device.toHost s.cache sampleRuled s.review _ _ _ rfl rfl
    rfl (List.cons_ne_nil _ _) ?_).mpr ⟨by decide, ?_, hunruled⟩⟩
  · intro c _ k hk
    cases hk
  · intro p hp
    cases hp

open Session in
/-- A field that must meet a constraint, and has none, shows its amount. -/
theorem mustBe_ignored :
    ¬ ∀ (host : Host) (cache : Cache) (field : Field) (r r' : Review) (v : Value)
      (captures : Captures), field.visibility = .mustBe → field.param.shown? = some v →
      v.resolve r.calls.currentCall = .ok captures → captures ≠ [] →
      (∀ c ∈ captures, ∀ k ∈ field.constraints, ¬ Matches k c.bytes) →
      (field.format host cache).exec r ≠ (.ok (), r') := by
  intro h
  let device := sampleDevice .transaction
  let s := after device [sampleArguments, sampleInfo []]
  have hrun : ((sampleRuled.format device.toHost s.cache).exec s.review).1.toBool = true := by
    decide +kernel
  obtain ⟨⟨⟩, hanswer⟩ := exists_of_toBool hrun
  refine h device.toHost s.cache sampleRuled s.review _ _ _ rfl rfl rfl (List.cons_ne_nil _ _) ?_
    (Prod.ext hanswer rfl)
  intro c _ k hk
  cases hk

end Field

end ClearSign
