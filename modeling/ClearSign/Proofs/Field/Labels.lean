import ClearSign.Proofs.Bytes
import ClearSign.Proofs.Field.Showing
import ClearSign.Proofs.Session.Run

/-!
How values of enumerations get their names. A label is found by the chain, the contract behind the
target, the function, the enumeration and one byte. Of a longer byte string that byte is the last,
so a byte string is named by the number it spells just as long as the number fits a byte.
-/

namespace ClearSign

open Refusal

/-- The current call runs a function of a target under a descriptor, and its arguments are all
there. -/
def Invokes (current : Option Call) (info : TransactionInfo) (target : Address)
    (selector : Selector) : Prop :=
  ∃ call data, current = some call ∧ call.info = some info ∧ call.target = some target ∧
    call.calldata = some data ∧ data.selector? = .ok selector

theorem Invokes.unique {current : Option Call} {info info' : TransactionInfo}
    {target target' : Address} {selector selector' : Selector}
    (h : Invokes current info target selector) (h' : Invokes current info' target' selector') :
    info = info' ∧ target = target' ∧ selector = selector' := by
  obtain ⟨call, data, rfl, hinfo, htarget, hdata, hselector⟩ := h
  obtain ⟨_, _, ⟨⟩, hinfo', htarget', hdata', hselector'⟩ := h'
  cases hdata.symm.trans hdata'
  exact ⟨Option.some.inj (hinfo.symm.trans hinfo'), Option.some.inj (htarget.symm.trans htarget'),
    Except.ok.inj (hselector.symm.trans hselector')⟩

/-- A label of the cache that is for an enumeration of the function that a call runs: on the chain
that its descriptor names, of the contract behind its target. -/
def EnumLabel.IsFor (l : EnumLabel) (cache : Cache) (current : Option Call) (id : UInt8) : Prop :=
  ∃ info target, Invokes current info target l.selector ∧ l.chain = info.chain ∧
    l.contract = cache.resolve info.chain target l.selector ∧ l.id = id ∧ l ∈ cache.labels

/-- The value of a label is the number that a byte string spells. -/
def ReadsWhole (value : UInt8) (bs : Bytes) : Prop := value.toNat = bs.toNat

/-- The value of a label is the last byte of a byte string. -/
def ReadsLast (value : UInt8) (bs : Bytes) : Prop := bs.getLast? = some value

/-- By its last byte a byte string is read as its number just if the number fits a byte. -/
theorem ReadsLast.whole_iff {value : UInt8} {bs : Bytes} (h : ReadsLast value bs) :
    ReadsWhole value bs ↔ bs.toNat < 256 := by
  obtain ⟨front, rfl⟩ := List.getLast?_eq_some_iff.mp h
  have hvalue := value.toNat_lt
  unfold ReadsWhole
  rw [Bytes.toNat_concat]
  omega

theorem ReadsWhole.lt {value : UInt8} {bs : Bytes} (h : ReadsWhole value bs) : bs.toNat < 256 := by
  have hvalue := value.toNat_lt
  unfold ReadsWhole at h
  omega

namespace Cache

variable {cache : Cache} {current : Option Call} {info : TransactionInfo} {target : Address}
  {selector : Selector} {id value : UInt8} {l : EnumLabel}

theorem isFor_of_label? (hcall : Invokes current info target selector)
    (h : cache.label? info.chain target selector id value = some l) :
    l.IsFor cache current id ∧ l.value = value := by
  unfold label? at h
  have hkey := List.find?_some h
  simp only [Bool.and_eq_true, beq_iff_eq] at hkey
  obtain ⟨⟨⟨⟨hchain, hcontract⟩, rfl⟩, hid⟩, hvalue⟩ := hkey
  exact ⟨⟨info, target, hcall, hchain, hcontract, hid, List.mem_of_find?_eq_some h⟩, hvalue⟩

theorem exists_label? (hcall : Invokes current info target selector)
    (h : l.IsFor cache current id) :
    ∃ found, cache.label? info.chain target selector id l.value = some found := by
  obtain ⟨info', target', hcall', hchain, hcontract, hid, hmem⟩ := h
  obtain ⟨rfl, rfl, rfl⟩ := hcall.unique hcall'
  unfold label?
  rw [← Option.isSome_iff_exists, List.find?_isSome]
  exact ⟨l, hmem, by simp [hchain, hcontract, hid]⟩

end Cache

namespace Param

variable {p : Choice} {scope : Scope} {field : Field} {captures : Captures}
  {info : TransactionInfo} {target : Address} {selector : Selector} {c : Capture}

theorem Choice.cell_eq_ok {chain : ChainId} {cell : Cell} :
    p.cell scope chain target selector c = .ok cell ↔
      ∃ last l, c.bytes.getLast? = some last ∧
        scope.cache.label? chain target selector p.id last = some l ∧
        cell = .plain .enum l.name := by
  unfold Choice.cell
  cases hlast : c.bytes.getLast? with
  | none => simp
  | some last =>
    cases hlabel : scope.cache.label? chain target selector p.id last with
    | none => simp [hlabel]
    | some l => simp [hlabel, eq_comm]

/-- A byte string is shown by the name of a label for its last byte. -/
theorem Choice.exists_label (hcall : Invokes scope.call info target selector) {cell : Cell}
    (h : p.cell scope info.chain target selector c = .ok cell) :
    ∃ l : EnumLabel, l.IsFor scope.cache scope.call p.id ∧ ReadsLast l.value c.bytes ∧
      cell = .plain .enum l.name := by
  obtain ⟨last, l, hlast, hlabel, hcell⟩ := Choice.cell_eq_ok.mp h
  obtain ⟨hfor, rfl⟩ := Cache.isFor_of_label? hcall hlabel
  exact ⟨l, hfor, hlast, hcell⟩

/-- A byte string is shown if there is a label for its last byte. -/
theorem Choice.exists_cell (scope : Scope) {l : EnumLabel}
    (hcall : Invokes scope.call info target selector) (hfor : l.IsFor scope.cache scope.call p.id)
    (hlast : ReadsLast l.value c.bytes) :
    ∃ cell, p.cell scope info.chain target selector c = .ok cell := by
  obtain ⟨found, hfound⟩ := Cache.exists_label? hcall hfor
  exact ⟨_, Choice.cell_eq_ok.mpr ⟨l.value, found, hlast, hfound, rfl⟩⟩

theorem chain_eq_ok {chain : ChainId} : scope.chain = .ok chain ↔
    ∃ call info, scope.call = some call ∧ call.info = some info ∧ info.chain = chain := by
  unfold Scope.chain Scope.info
  cases hcall : scope.call with
  | none => simp [Functor.map, Except.map]
  | some call => cases hinfo : call.info <;> simp [hinfo, Functor.map, Except.map]

theorem calledFunction_eq_ok : calledFunction scope = .ok (target, selector) ↔
    ∃ call data, scope.call = some call ∧ call.target = some target ∧
      call.calldata = some data ∧ data.selector? = .ok selector := by
  unfold calledFunction
  cases hcall : scope.call with
  | none => simp
  | some call =>
    cases htarget : call.target with
    | none => simp [htarget]
    | some target' =>
      cases hdata : call.calldata with
      | none => simp [htarget, hdata]
      | some data =>
        cases hselector : data.selector? <;>
          simp [htarget, hdata, hselector, bind, Except.bind, pure, Except.pure]

/-- A field of an enumeration has cells as soon as it has byte strings and the call runs a
function. -/
theorem cells_enum_eq_ok (scope : Scope) (field : Field) {cells : Cells}
    (hresolve : scope.resolve p.value = .ok captures) :
    (Param.enum p).cells scope field = .ok cells ↔
      ∃ info target selector, Invokes scope.call info target selector ∧
        .tried (captures.map (p.cell scope info.chain target selector)) = cells := by
  unfold Param.cells
  simp only [bind_eq_ok, pure_eq_ok, hresolve, Except.ok.injEq, exists_eq_left']
  constructor
  · rintro ⟨chain, hchain, ⟨target, selector⟩, hfunction, hcells⟩
    obtain ⟨call, info, hcall, hinfo, rfl⟩ := chain_eq_ok.mp hchain
    obtain ⟨call', data, hcall', hfunction⟩ := calledFunction_eq_ok.mp hfunction
    cases hcall.symm.trans hcall'
    exact ⟨info, target, selector, ⟨call, data, hcall, hinfo, hfunction⟩, hcells⟩
  · rintro ⟨info, target, selector, ⟨call, data, hcall, hinfo, hfunction⟩, hcells⟩
    exact ⟨info.chain, chain_eq_ok.mpr ⟨call, info, hcall, hinfo, rfl⟩, (target, selector),
      calledFunction_eq_ok.mpr ⟨call, data, hcall, hfunction⟩, hcells⟩

end Param

namespace Field

open ClearSign.Action

variable {host : Host} {cache : Cache} {field : Field} {p : Param.Choice} {r : Review}
  {captures : Captures}

/-- What a field leaves behind that shows byte strings by labels of an enumeration: rows for the
first of them, in order, each with the name of a label that is for the enumeration and reads the
byte string, and a refusal if there is a byte string without a row. -/
def ShowsLabels (reads : UInt8 → Bytes → Prop) (host : Host) (cache : Cache) (field : Field)
    (id : UInt8) (r : Review) (captures : Captures) : Prop :=
  ∃ rows : List Row,
    ((field.format host cache).exec r).2 = { r with table := r.table ++ rows } ∧
    rows.length ≤ captures.length ∧
    (rows.length < captures.length → ∃ e, ((field.format host cache).exec r).1 = .error e) ∧
    ∀ (i : Nat) row, rows[i]? = some row → ∃ (c : Capture) (l : EnumLabel),
      captures[i]? = some c ∧ l.IsFor cache r.calls.currentCall id ∧ reads l.value c.bytes ∧
      row = rowOf field.name r.calls.isVerified (.plain .enum l.name)

/-- The first byte string without a row has no label for its last byte, or the table is full. -/
def StopsAtLabel (host : Host) (cache : Cache) (id : UInt8) (r : Review) (captures : Captures)
    (table : Table) : Prop :=
  ∀ c, captures[table.length - r.table.length]? = some c → host.settings.maxRows ≤ table.length ∨
    ∀ l : EnumLabel, l.IsFor cache r.calls.currentCall id → ¬ ReadsLast l.value c.bytes

/-- A field of an enumeration goes by the last bytes. -/
theorem showsLabels_last (hparam : field.param = .enum p)
    (hresolve : p.value.resolve r.calls.currentCall = .ok captures) :
    ShowsLabels ReadsLast host cache field p.id r captures ∧
      StopsAtLabel host cache p.id r captures ((field.format host cache).exec r).2.table := by
  let scope : Scope := ⟨host, cache, r.calls.currentCall⟩
  have hkind : field.param.kind ≠ .calldata := by
    rw [hparam]
    exact ParamKind.noConfusion
  cases hcells : field.param.cells scope field with
  | error e =>
    have hnone : ∀ l : EnumLabel, ¬ l.IsFor cache r.calls.currentCall p.id := by
      rintro l ⟨info, target, hcall, -⟩
      have hok := (Param.cells_enum_eq_ok scope field hresolve).mpr
        ⟨info, target, l.selector, hcall, rfl⟩
      rw [hparam, hok] at hcells
      cases hcells
    rw [ShowsLabels, exec_format_refused hkind hcells]
    refine ⟨⟨[], by simp, Nat.zero_le _, fun _ => ⟨e, rfl⟩, ?_⟩, fun c _ => .inr ?_⟩
    · intro i row hrow
      simp at hrow
    · intro l hl
      exact absurd hl (hnone l)
  | ok cells =>
    obtain ⟨info, target, selector, hcall, rfl⟩ :=
      (Param.cells_enum_eq_ok scope field hresolve).mp (hparam ▸ hcells)
    obtain ⟨shown, htable, hlength, hshort, hmade, hstop⟩ :=
      exec_forM_tried host r field.name
        (captures.map (p.cell scope info.chain target selector))
    rw [List.length_map] at hlength hshort
    rw [ShowsLabels, exec_format hkind hcells, htable]
    refine ⟨⟨_, rfl, by rwa [List.length_map], by rwa [List.length_map], ?_⟩, ?_⟩
    · intro i row hrow
      rw [List.getElem?_map, Option.map_eq_some_iff] at hrow
      obtain ⟨cell, hcell, rfl⟩ := hrow
      have hplace := hmade i cell hcell
      rw [List.getElem?_map, Option.map_eq_some_iff] at hplace
      obtain ⟨c, hc, hok⟩ := hplace
      obtain ⟨l, hfor, hlast, rfl⟩ := Param.Choice.exists_label hcall hok
      exact ⟨c, l, hc, hfor, hlast, rfl⟩
    · intro c hc
      rw [List.length_append, List.length_map, Nat.add_sub_cancel_left] at hc
      rw [List.length_append, List.length_map]
      refine (hstop _ (by rw [List.getElem?_map, hc]; rfl)).imp_right ?_
      rintro ⟨e, he⟩ l hfor hlast
      obtain ⟨cell, hok⟩ := Param.Choice.exists_cell scope hcall hfor hlast
      rw [hok] at he
      cases he

/-- A field of an enumeration names its byte strings by their last bytes. The names are those of
the numbers they spell just if each number that is shown fits a byte; a byte string that spells a
larger one is shown by the name of another number. -/
theorem showsLabels_whole_iff (host : Host) (cache : Cache) (field : Field) (p : Param.Choice)
    (r : Review) (captures : Captures) (hparam : field.param = .enum p)
    (hresolve : p.value.resolve r.calls.currentCall = .ok captures) :
    ShowsLabels ReadsLast host cache field p.id r captures ∧
      StopsAtLabel host cache p.id r captures ((field.format host cache).exec r).2.table ∧
      (ShowsLabels ReadsWhole host cache field p.id r captures ↔
        ∀ (i : Nat) c, captures[i]? = some c →
          r.table.length + i < ((field.format host cache).exec r).2.table.length →
          c.bytes.toNat < 256) := by
  obtain ⟨hlast, hstop⟩ := showsLabels_last hparam hresolve
  refine ⟨hlast, hstop, ?_⟩
  constructor
  · rintro ⟨rows, htable, -, -, hrows⟩ i c hc hshown
    rw [htable, List.length_append, Nat.add_lt_add_iff_left] at hshown
    obtain ⟨c', l, hc', -, hread, -⟩ := hrows i _ (List.getElem?_eq_getElem hshown)
    cases hc.symm.trans hc'
    exact hread.lt
  · intro hfits
    obtain ⟨rows, htable, hlength, hshort, hrows⟩ := hlast
    refine ⟨rows, htable, hlength, hshort, ?_⟩
    intro i row hrow
    obtain ⟨c, l, hc, hfor, hread, hname⟩ := hrows i row hrow
    have hshown : r.table.length + i < ((field.format host cache).exec r).2.table.length := by
      obtain ⟨hi, -⟩ := List.getElem?_eq_some_iff.mp hrow
      rw [htable, List.length_append]
      omega
    exact ⟨c, l, hc, hfor, hread.whole_iff.mpr (hfits i c hc hshown), hname⟩

/-- A field that shows a constant by its name in the fifth enumeration of a function. -/
def sampleChoice (constant : Bytes) : Field :=
  ⟨1, "a", .enum ⟨1, 5, ⟨1, .uint, none, .constant constant⟩⟩, .always, []⟩

open Tlv Session in
/-- The sample call with its descriptor, and a label for the number two of that enumeration. -/
def sampleLabelled : Session :=
  after (sampleDevice .transaction) [sampleBegin,
    whole .enumLabel (write 0 [1] ++ write 1 [1] ++ write 2 [7] ++ write 3 [1, 2, 3, 4] ++
      write 4 [5] ++ write 5 [2] ++ write 6 [98] ++ write 0xff []),
    sampleInfo []]

open Session in
/-- Two is shown, by the name of its label. -/
theorem showsLabels_whole_iff_two :
    let device := sampleDevice .transaction
    (((sampleChoice [2]).format device.toHost sampleLabelled.cache).exec
      sampleLabelled.review).1.toBool = true ∧
    ShowsLabels ReadsWhole device.toHost sampleLabelled.cache (sampleChoice [2]) 5
      sampleLabelled.review [Capture.whole [2]] := by
  refine ⟨by decide +kernel, ?_⟩
  refine (showsLabels_whole_iff (sampleDevice .transaction).toHost sampleLabelled.cache
    (sampleChoice [2]) _ sampleLabelled.review [Capture.whole [2]] rfl rfl).2.2.mpr ?_
  intro i c hc _
  cases i with
  | zero =>
    cases hc
    decide
  | succ i => cases hc

open Session in
/-- The number 258, whose last byte is two, is shown by the name of two. -/
theorem showsLabels_misnames :
    ¬ ∀ (host : Host) (cache : Cache) (field : Field) (p : Param.Choice) (r : Review)
      (captures : Captures), field.param = .enum p →
      p.value.resolve r.calls.currentCall = .ok captures →
      ShowsLabels ReadsWhole host cache field p.id r captures := by
  intro h
  obtain ⟨rows, htable, -, -, hrows⟩ := h (sampleDevice .transaction).toHost sampleLabelled.cache
    (sampleChoice [1, 2]) _ sampleLabelled.review [Capture.whole [1, 2]] rfl rfl
  have hshown : (((sampleChoice [1, 2]).format (sampleDevice .transaction).toHost
      sampleLabelled.cache).exec sampleLabelled.review).2.table.length =
        sampleLabelled.review.table.length + 1 := by decide +kernel
  rw [htable, List.length_append, Nat.add_left_cancel_iff] at hshown
  have hfirst : 0 < rows.length := by omega
  obtain ⟨c, l, hc, -, hread, -⟩ := hrows 0 _ (List.getElem?_eq_getElem hfirst)
  cases hc
  exact absurd hread.lt (by decide)

end Field

end ClearSign
