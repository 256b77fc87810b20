import ClearSign.Proofs.Bytes
import ClearSign.Proofs.Field.NestedCalls
import ClearSign.Proofs.Field.Showing
import ClearSign.Proofs.Text.Duration
import ClearSign.Proofs.Text.Instant

/-!
Numbers that fields tell: lengths of time, instants, and the chains of the calls that a field
opens. Of a byte string the low 64 bits are told, whatever comes before them, so the number that it
spells is told just as long as it fits.
-/

namespace ClearSign

/-- What a field makes of a number: the text of a row, or the chain of a call. -/
inductive Figure
  | duration (text : String)
  | instant (text : String)
  | chain (id : ChainId)
  deriving DecidableEq

namespace Figure

def Says : Figure → Nat → Prop
  | duration text, n => Duration.Says text n
  | instant text, n => Civil.SaysText text n
  | chain id, n => id.toNat = n

/-- No figure says two numbers. -/
theorem Says.unique {t : Figure} {n n' : Nat} (h : t.Says n) (h' : t.Says n') : n = n' := by
  cases t with
  | duration text => exact Duration.Says.unique h h'
  | instant text => exact Civil.SaysText.unique h h'
  | chain id => exact h.symm.trans h'

end Figure

namespace Param

/-- The value whose byte strings are told as numbers, if the parameter has one. -/
def counted? : Param → Option Value
  | .duration p => some p.value
  | .datetime p =>
    match p.scale with
    | .unix => some p.value
    | .blockHeight => none
  | .calldata p => p.chain
  | _ => none

/-- A byte string that stands for no instant but for all time. -/
def isEndless : Param → Bytes → Bool
  | .datetime p, bs => p.isUnlimited bs
  | _, _ => false

/-- What has been told from one review to a later one, by rows or by calls. -/
def figures (param : Param) (r r' : Review) : List Figure :=
  match param with
  | .duration _ => (r'.table.drop r.table.length).map fun row => .duration row.value
  | .datetime _ => (r'.table.drop r.table.length).map fun row => .instant row.value
  | .calldata _ => (r'.calls.live.drop r.calls.live.length).map fun c => .chain c.chain
  | _ => []

theorem figures_self (param : Param) (r : Review) : param.figures r r = [] := by
  unfold figures
  split <;> simp

end Param

namespace Field

open ClearSign.Action

def figures (host : Host) (cache : Cache) (field : Field) (r : Review) : List Figure :=
  field.param.figures r ((field.format host cache).exec r).2

/-- What a field leaves behind that tells the numbers which its byte strings are read as: rows or
calls on top of those that are there, for the first of the byte strings and in order, and a refusal
if there is a byte string of which nothing is told. -/
structure Counts (reads : Bytes → Nat) (host : Host) (cache : Cache) (field : Field) (r : Review)
    (captures : Captures) : Prop where
  table : r.table <+: ((field.format host cache).exec r).2.table
  live : r.calls.live <+: ((field.format host cache).exec r).2.calls.live
  length_le : (field.figures host cache r).length ≤ captures.length
  refused : (field.figures host cache r).length < captures.length →
    ∃ e, ((field.format host cache).exec r).1 = .error e
  each : ∀ (i : Nat) t, (field.figures host cache r)[i]? = some t →
    ∃ c : Capture, captures[i]? = some c ∧
      if field.param.isEndless c.bytes then t = .instant "Unlimited" else t.Says (reads c.bytes)

/-- Numbers are told as they are, and those that do not fit 64 bits are refused. -/
structure CountsWhole (host : Host) (cache : Cache) (field : Field) (r : Review)
    (captures : Captures) : Prop extends Counts Bytes.toNat host cache field r captures where
  too_wide : ∀ c ∈ captures, field.param.isEndless c.bytes = false → 2 ^ 64 ≤ c.bytes.toNat →
    ∃ e, ((field.format host cache).exec r).1 = .error e

/-- The number that the last 64 bits spell. -/
def lowBits (bs : Bytes) : Nat := bs.toNat % 2 ^ 64

section

variable {reads : Bytes → Nat} {host : Host} {cache : Cache} {field : Field} {r : Review}
  {captures : Captures} {v : Value}

theorem length_figures_eq (h : Counts reads host cache field r captures)
    (hok : ((field.format host cache).exec r).1 = .ok ()) :
    (field.figures host cache r).length = captures.length := by
  apply Nat.le_antisymm h.length_le
  by_contra hshort
  obtain ⟨e, he⟩ := h.refused (Nat.not_le.mp hshort)
  rw [hok] at he
  cases he

/-- What a field has made, row by row or call by call, tells its numbers one by one. -/
theorem counts_of_made {α : Type} (made : List α) (g : α → Figure)
    (htable : r.table <+: ((field.format host cache).exec r).2.table)
    (hlive : r.calls.live <+: ((field.format host cache).exec r).2.calls.live)
    (hfigures : field.figures host cache r = made.map g) (hlength : made.length ≤ captures.length)
    (hrefused : made.length < captures.length →
      ∃ e, ((field.format host cache).exec r).1 = .error e)
    (heach : ∀ (i : Nat) a, made[i]? = some a → ∃ c : Capture, captures[i]? = some c ∧
      if field.param.isEndless c.bytes then g a = .instant "Unlimited"
      else (g a).Says (reads c.bytes)) :
    Counts reads host cache field r captures where
  table := htable
  live := hlive
  length_le := by rwa [hfigures, List.length_map]
  refused := by rwa [hfigures, List.length_map]
  each i t ht := by
    rw [hfigures, List.getElem?_map, Option.map_eq_some_iff] at ht
    obtain ⟨a, ha, rfl⟩ := ht
    exact heach i a ha

/-- A field that shows each byte string tells it by the text of its row. -/
theorem counts_of_cells {f : Capture → Cell} {g : String → Figure}
    (hkind : field.param.kind ≠ .calldata)
    (hcells : field.param.cells ⟨host, cache, r.calls.currentCall⟩ field =
      .ok (.shown (captures.map f)))
    (hfigures : ∀ r', field.param.figures r r' =
      (r'.table.drop r.table.length).map fun row => g row.value)
    (hfigure : ∀ c, if field.param.isEndless c.bytes then g (f c).text = .instant "Unlimited"
      else (g (f c).text).Says (reads c.bytes)) :
    Counts reads host cache field r captures := by
  have hshown : Cells.shown (captures.map f) = Cells.tried ((captures.map f).map .ok) := by
    simp [Cells.shown, Cells.tried, Except.map]
  obtain ⟨shown, hafter, hlength, hshort, hmade, -⟩ :=
    exec_forM_tried host r field.name ((captures.map f).map .ok)
  rw [← hshown, ← exec_format hkind hcells] at hafter hshort
  simp only [List.length_map] at hlength hshort
  apply counts_of_made shown fun c => g c.text
  · rw [hafter]
    exact List.prefix_append _ _
  · simp only [hafter, List.prefix_rfl]
  · rw [figures, hfigures, hafter, List.drop_left, List.map_map]
    rfl
  · exact hlength
  · exact hshort
  · intro i cell hcell
    have hplace := hmade i cell hcell
    simp only [List.getElem?_map, Option.map_eq_some_iff, Except.ok.injEq] at hplace
    obtain ⟨_, ⟨c, hc, rfl⟩, rfl⟩ := hplace
    exact ⟨c, hc, hfigure c⟩

theorem counts_of_refused {e : Error} (h : (field.format host cache).exec r = (.error e, r)) :
    Counts reads host cache field r captures := by
  apply counts_of_made ([] : List Figure) id
  · simp only [h, List.prefix_rfl]
  · simp only [h, List.prefix_rfl]
  · rw [figures, h, Param.figures_self, List.map_nil]
  · exact Nat.zero_le _
  · exact fun _ => ⟨e, by rw [h]⟩
  · simp

/-- The calls that a field opens before the first that is refused. -/
theorem opens_of_format {p : Param.NestedCall} {resolved : Param.NestedCall.Resolved}
    (hparam : field.param = .calldata p)
    (hresolved : p.resolve ⟨host, cache, r.calls.currentCall⟩ = .ok resolved) :
    ((field.format host cache).exec r).2.table = r.table ∧
      ∃ new : List Call, new.length ≤ resolved.calldata.length ∧
        (((field.format host cache).exec r).1 = .ok () →
          new.length = resolved.calldata.length) ∧
        ((field.format host cache).exec r).2.calls.live = r.calls.live ++ new ∧
        ∀ (i : Nat) c, new[i]? = some c → ∃ from_ blob,
          p.Describes ⟨host, cache, r.calls.currentCall⟩ i blob from_ c := by
  let scope : Scope := ⟨host, cache, r.calls.currentCall⟩
  have hsized : p.Sized scope resolved := Param.NestedCall.sized_of_resolve hresolved
  have hcount : (Param.NestedCall.calls resolved).length = resolved.calldata.length := by
    simp [Param.NestedCall.calls]
  rw [exec_format_calldata hparam, hresolved]
  simp only [exec_openCalls]
  rcases hopen : ((Param.NestedCall.calls resolved).forM (openOne host)).exec
    { r with calls := r.calls.announce (Param.NestedCall.calls resolved).length } with ⟨answer, r'⟩
  obtain ⟨htable, -, -, new, hlength, hall, hnew⟩ := opens_forM
    (fun i from_ c => ∃ blob, resolved.calldata[i]? = some blob ∧
      p.Describes scope i blob.bytes from_ c)
    (fun i new from_ hi => describes_of_calls hsized hi from_) hopen
  refine ⟨htable, new, hcount ▸ hlength, fun hok => hcount ▸ hall hok, hnew.live, ?_⟩
  intro i c hc
  obtain ⟨from_, -, blob, -, hdescribes⟩ := hnew.each i c hc
  exact ⟨from_, blob.bytes, hdescribes⟩

/-- A field that opens calls tells a number by the chain of each of them. -/
theorem counts_of_calls {p : Param.NestedCall} (hparam : field.param = .calldata p)
    (hchain : p.chain = some v) (hresolve : v.resolve r.calls.currentCall = .ok captures) :
    Counts lowBits host cache field r captures := by
  let scope : Scope := ⟨host, cache, r.calls.currentCall⟩
  cases hresolved : p.resolve scope with
  | error e =>
    refine counts_of_refused (e := e) ?_
    rw [exec_format_calldata hparam, hresolved]
  | ok resolved =>
    have hsized := Param.NestedCall.sized_of_resolve hresolved
    obtain ⟨captures', hcaptures, hcount⟩ :=
      Param.NestedCall.sized?_resolve (hchain ▸ hsized.chain)
    obtain rfl : captures = captures' := Except.ok.inj (hresolve.symm.trans hcaptures)
    obtain ⟨htable, new, hlength, hall, hlive, hdescribes⟩ := opens_of_format hparam hresolved
    -- A value of more or fewer byte strings than there are blobs has been refused before.
    rw [← hcount] at hlength hall
    apply counts_of_made new fun c => .chain c.chain
    · simp only [htable, List.prefix_rfl]
    · rw [hlive]
      exact List.prefix_append _ _
    · rw [figures, hparam]
      simp only [Param.figures, hlive, List.drop_left]
    · exact hlength
    · intro hshort
      cases hanswer : ((field.format host cache).exec r).1 with
      | error e => exact ⟨e, rfl⟩
      | ok u => exact absurd (hall hanswer) (Nat.ne_of_lt hshort)
    · intro i call hcall
      obtain ⟨from_, blob, hcallOf⟩ := hdescribes i call hcall
      have hgiven := hcallOf.chain
      rw [hchain] at hgiven
      obtain ⟨bs, ⟨captures', c, hcaptures', hc, rfl⟩, hvalue⟩ := hgiven
      obtain rfl : captures = captures' := Except.ok.inj (hresolve.symm.trans hcaptures')
      refine ⟨c, hc, ?_⟩
      rw [hparam]
      show call.chain.toNat = lowBits c.bytes
      rw [hvalue, Bytes.toNat_toUInt64, lowBits]

theorem says_durationCell (c : Capture) :
    Figure.Says (.duration (Param.Single.durationCell c).text) (lowBits c.bytes) := by
  rw [lowBits, ← Bytes.toNat_toUInt64]
  exact Duration.says_text _

theorem says_datetimeCell {p : Param.Datetime} (hscale : p.scale = .unix) (c : Capture) :
    if p.isUnlimited c.bytes then Figure.instant (p.cell c).text = .instant "Unlimited"
    else Figure.Says (.instant (p.cell c).text) (lowBits c.bytes) := by
  have htext : (p.cell c).text = if p.isUnlimited c.bytes then "Unlimited"
      else Civil.dateTimeText c.toUInt64.toNat := by
    show p.text c = _
    rw [Param.Datetime.text, hscale]
  rw [htext, lowBits, ← Bytes.toNat_toUInt64]
  split
  · rfl
  · exact Civil.saysText_dateTimeText _

/-- Whatever a byte string spells, its low 64 bits are told. -/
theorem counts_lowBits (hcounted : field.param.counted? = some v)
    (hresolve : v.resolve r.calls.currentCall = .ok captures) :
    Counts lowBits host cache field r captures := by
  cases hparam : field.param with
  | duration p =>
    rw [hparam] at hcounted
    cases hcounted
    refine counts_of_cells (f := Param.Single.durationCell) (g := .duration)
      (by rw [hparam]; exact ParamKind.noConfusion) ?_ (by rw [hparam]; exact fun _ => rfl) ?_
    · rw [hparam]
      simp only [Param.cells, Scope.resolve, hresolve]
      rfl
    · rw [hparam]
      exact says_durationCell
  | datetime p =>
    obtain ⟨hscale, hvalue⟩ : p.scale = .unix ∧ p.value = v := by
      rw [hparam, Param.counted?] at hcounted
      split at hcounted
      · exact ⟨‹_›, Option.some.inj hcounted⟩
      · cases hcounted
    subst hvalue
    refine counts_of_cells (f := p.cell) (g := .instant)
      (by rw [hparam]; exact ParamKind.noConfusion) ?_ (by rw [hparam]; exact fun _ => rfl) ?_
    · rw [hparam]
      simp only [Param.cells, Scope.resolve, hresolve]
      rfl
    · rw [hparam]
      exact says_datetimeCell hscale
  | calldata p =>
    rw [hparam] at hcounted
    exact counts_of_calls hparam hcounted hresolve
  | _ =>
    rw [hparam] at hcounted
    cases hcounted

/-- The numbers that are told are those of the whole byte strings just if each of them fits. -/
theorem Counts.whole_iff (h : Counts lowBits host cache field r captures) :
    CountsWhole host cache field r captures ↔ ∀ (i : Nat) c, captures[i]? = some c →
      i < (field.figures host cache r).length → field.param.isEndless c.bytes = false →
      c.bytes.toNat < 2 ^ 64 := by
  constructor
  · intro hwhole i c hc hi hendless
    have hlist := List.getElem?_eq_getElem hi
    obtain ⟨c', hc', hlow⟩ := h.each i _ hlist
    cases hc.symm.trans hc'
    obtain ⟨c', hc', hfigure⟩ := hwhole.each i _ hlist
    cases hc.symm.trans hc'
    rw [if_neg (by simp [hendless])] at hlow hfigure
    rw [hfigure.unique hlow]
    exact Nat.mod_lt _ (by decide)
  · intro hfits
    refine ⟨⟨h.table, h.live, h.length_le, h.refused, ?_⟩, ?_⟩
    · intro i t ht
      obtain ⟨c, hc, hlow⟩ := h.each i t ht
      refine ⟨c, hc, ?_⟩
      cases hendless : field.param.isEndless c.bytes with
      | true => rwa [hendless] at hlow
      | false =>
        obtain ⟨hi, -⟩ := List.getElem?_eq_some_iff.mp ht
        rw [hendless, lowBits, Nat.mod_eq_of_lt (hfits i c hc hi hendless)] at hlow
        exact hlow
    · intro c hc hendless hwide
      obtain ⟨i, hi⟩ := List.getElem?_of_mem hc
      cases hanswer : ((field.format host cache).exec r).1 with
      | error e => exact ⟨e, rfl⟩
      | ok u =>
        obtain ⟨hlt, -⟩ := List.getElem?_eq_some_iff.mp hi
        rw [← length_figures_eq h hanswer] at hlt
        exact absurd (hfits i c hi hlt hendless) (Nat.not_lt.mpr hwide)

end

/-- A field that tells lengths of time, instants or chains tells the low 64 bits of its byte
strings, in order and each of them unless it is refused; only a byte string that stands for all time
is shown as such. The numbers that it tells are those of its byte strings, and none that is wider
goes unrefused, just if each number that is told fits 64 bits. -/
theorem counts_whole_iff_fits (host : Host) (cache : Cache) (field : Field) (v : Value) (r : Review)
    (captures : Captures) (hcounted : field.param.counted? = some v)
    (hresolve : v.resolve r.calls.currentCall = .ok captures) :
    Counts lowBits host cache field r captures ∧
      (CountsWhole host cache field r captures ↔ ∀ (i : Nat) c, captures[i]? = some c →
        i < (field.figures host cache r).length → field.param.isEndless c.bytes = false →
        c.bytes.toNat < 2 ^ 64) := by
  have hlow : Counts lowBits host cache field r captures := counts_lowBits hcounted hresolve
  exact ⟨hlow, hlow.whole_iff⟩

def sampleCounting (param : Param) : Field := ⟨1, "a", param, .always, []⟩

/-- A call to a constant address on a given chain. -/
def sampleLegOn (chain : Value) : Param.NestedCall :=
  ⟨1, .constant .bytes [], .constant .address [8], some chain, none, none, none⟩

/-- A call without arguments on the first chain. -/
def sampleReview : Review :=
  ⟨⟨[some ⟨none, none, Fixed.zero 20, none, none, 1, []⟩], some 0, 0, 0⟩, []⟩

def sampleFigures (param : Param) : List Figure :=
  (sampleCounting param).figures Review.sampleHost Cache.empty sampleReview

def SampleWhole (param : Param) (number : Bytes) : Prop :=
  CountsWhole Review.sampleHost Cache.empty (sampleCounting param) sampleReview
    [Capture.whole number]

/-- Five seconds, an instant five seconds after the first, and the chain of that number. -/
theorem counts_whole_iff_fits_five :
    let five : Value := .constant .uint [5]
    (sampleFigures (.duration ⟨1, five⟩) = [.duration "05s"] ∧
      SampleWhole (.duration ⟨1, five⟩) [5]) ∧
    (sampleFigures (.datetime ⟨1, five, .unix⟩) = [.instant "1970-01-01 12:00:05 AM UTC"] ∧
      SampleWhole (.datetime ⟨1, five, .unix⟩) [5]) ∧
    (sampleFigures (.calldata (sampleLegOn five)) = [.chain 5] ∧
      SampleWhole (.calldata (sampleLegOn five)) [5]) := by
  intro five
  have hwhole (param : Param) (hcounted : param.counted? = some five) : SampleWhole param [5] := by
    apply (counts_whole_iff_fits Review.sampleHost Cache.empty (sampleCounting param) five
      sampleReview [Capture.whole [5]] hcounted rfl).2.mpr
    intro i c hc _ _
    cases i with
    | zero =>
      cases hc
      decide
    | succ i => cases hc
  exact ⟨⟨by decide +kernel, hwhole _ rfl⟩, ⟨by decide +kernel, hwhole _ rfl⟩,
    ⟨by decide +kernel, hwhole _ rfl⟩⟩

/-- Five more than the numbers that there are in 64 bits. -/
def sampleWide : Bytes := [1, 0, 0, 0, 0, 0, 0, 0, 5]

theorem not_sampleWhole_wide {param : Param} (hendless : param.isEndless sampleWide = false)
    (hok : (((sampleCounting param).format Review.sampleHost Cache.empty).exec sampleReview).1 =
      .ok ()) : ¬ SampleWhole param sampleWide := by
  intro hwhole
  obtain ⟨e, he⟩ := hwhole.too_wide _ List.mem_cons_self hendless (by decide)
  rw [hok] at he
  cases he

/-- This number is told as five by each of these fields. -/
theorem numbers_reduced :
    let wide : Value := .constant .uint sampleWide
    (sampleFigures (.duration ⟨1, wide⟩) = [.duration "05s"] ∧
      ¬ SampleWhole (.duration ⟨1, wide⟩) sampleWide) ∧
    (sampleFigures (.datetime ⟨1, wide, .unix⟩) = [.instant "1970-01-01 12:00:05 AM UTC"] ∧
      ¬ SampleWhole (.datetime ⟨1, wide, .unix⟩) sampleWide) ∧
    (sampleFigures (.calldata (sampleLegOn wide)) = [.chain 5] ∧
      ¬ SampleWhole (.calldata (sampleLegOn wide)) sampleWide) := by
  intro wide
  exact ⟨⟨by decide +kernel, not_sampleWhole_wide rfl (by decide +kernel)⟩,
    ⟨by decide +kernel, not_sampleWhole_wide (by decide) (by decide +kernel)⟩,
    ⟨by decide +kernel, not_sampleWhole_wide rfl (by decide +kernel)⟩⟩

end Field
end ClearSign
