import ClearSign.Proofs.Field.Showing
import ClearSign.Proofs.Field.Visibility
import Mathlib.Data.List.Forall2

/-!
What a field that shows something does to a session: it adds rows, and touches nothing else. The
rows stand for the byte strings of its main value, one by one and in order, without those that its
rule hides; a field that is refused has rows for the byte strings before the one that refused it.
-/

namespace ClearSign

open Refusal

/-- A byte string that a field shows, and the one that belongs to it: the address of the token of an
amount, or of the collection of an id. -/
structure Item where
  main : Capture
  beside : Option Capture
  deriving DecidableEq

namespace Param

/-- What belongs to the byte strings of a parameter, in order: to each amount its token, if there
are tokens, and to each id its collection or the only one. -/
def Beside (scope : Scope) (besides : List (Option Capture)) : Param → Prop
  | .tokenAmount p =>
    match p.token with
    | some address => ∃ tokens, scope.resolve address = .ok tokens ∧ besides = tokens.map some
    | none => ∀ b ∈ besides, b = none
  | .nft p => ∃ collections, scope.resolve p.collection = .ok collections ∧
      (besides = collections.map some ∨
        ∃ only, collections = [only] ∧ ∀ b ∈ besides, b = some only)
  | _ => ∀ b ∈ besides, b = none

/-- The byte strings that a parameter shows, of the value that is its main one. -/
structure Lists (scope : Scope) (p : Param) (v : Value) (items : List Item) : Prop where
  main : scope.resolve v = .ok (items.map Item.main)
  beside : p.Beside scope (items.map Item.beside)

/-- What a byte string is shown as, by the kind of the parameter. -/
inductive Pictures (scope : Scope) : Param → Item → Cell → Prop
  | raw {p : Single} {c : Capture} {chain : ChainId} {text : String} :
      scope.chain = .ok chain →
      rawText scope.host.settings.displayWidth chain p.value c.bytes = .ok text →
      Pictures scope (.raw p) ⟨c, none⟩ (.plain .raw text)
  | amount {p : Single} {c : Capture} {chain : ChainId} : scope.chain = .ok chain →
      Pictures scope (.amount p) ⟨c, none⟩ (Single.amountCell (scope.ticker chain) c)
  | tokenAmount {p : TokenAmount} {c : Capture} {token : Option Capture} {chain : ChainId} :
      scope.chain = .ok chain →
      Pictures scope (.tokenAmount p) ⟨c, token⟩ (p.cell (p.currency scope chain token) c)
  | nft {p : Nft} {c collection : Capture} {chain : ChainId} {cell : Cell} :
      scope.chain = .ok chain → Nft.cell scope chain collection.toAddress c = .ok cell →
      Pictures scope (.nft p) ⟨c, some collection⟩ cell
  | datetime {p : Datetime} {c : Capture} : Pictures scope (.datetime p) ⟨c, none⟩ (p.cell c)
  | duration {p : Single} {c : Capture} :
      Pictures scope (.duration p) ⟨c, none⟩ (Single.durationCell c)
  | unit {p : Quantity} {c : Capture} : Pictures scope (.unit p) ⟨c, none⟩ (p.cell c)
  | enum {p : Choice} {c : Capture} {chain : ChainId} {contract : Address} {selector : Selector}
      {cell : Cell} : scope.chain = .ok chain → calledFunction scope = .ok (contract, selector) →
      p.cell scope chain contract selector c = .ok cell → Pictures scope (.enum p) ⟨c, none⟩ cell
  | trustedName {p : NameQuery} {c : Capture} {chain : ChainId} {address : Address} :
      callChain scope = .ok chain → p.address scope c = .ok address →
      Pictures scope (.trustedName p) ⟨c, none⟩ (p.cellOf scope chain address)
  | token {p : Token} {c : Capture} {chain : ChainId} {cell : Cell} : scope.chain = .ok chain →
      p.cell scope chain c = .ok cell → Pictures scope (.token p) ⟨c, none⟩ cell
  | network {p : Single} {c : Capture} {cell : Cell} : Single.networkCell scope c = .ok cell →
      Pictures scope (.network p) ⟨c, none⟩ cell

end Param

namespace Field

/-- The rule of a field hides a byte string: one that is shown raw, or by name, and that meets a
constraint it was not to meet. -/
def hides (field : Field) (scope : Scope) (c : Capture) : Bool :=
  field.visibility == .ifNotIn &&
    match field.param with
    | .raw p => Param.rawMeets p.value.family field.constraints c.bytes
    | .trustedName p => (p.address scope c).toOption.any fun address =>
        meetsAddress field.constraints c.bytes.length address
    | _ => false

/-- A row shows a byte string of a field. -/
def IsRow (field : Field) (scope : Scope) (closes : Bool) (item : Item) (row : Row) : Prop :=
  ∃ cell, field.param.Pictures scope item cell ∧ row = rowOf field.name closes cell

/-- Rows for some byte strings of a field, in order, without those that are hidden. -/
def Rows (field : Field) (scope : Scope) (closes : Bool) (items : List Item) (rows : List Row) :
    Prop :=
  List.Forall₂ (field.IsRow scope closes)
    (items.filter fun item => !field.hides scope item.main) rows

/-- A cell that is made for a byte string shows it, or it is hidden. -/
def Answers (field : Field) (scope : Scope) (item : Item) (cell : Except Error (Option Cell)) :
    Prop :=
  ∀ shown, cell = .ok shown →
    (field.hides scope item.main = true ∧ shown = none) ∨
    (field.hides scope item.main = false ∧ ∃ c, shown = some c ∧ field.param.Pictures scope item c)

section

variable {field : Field} {scope : Scope} {closes : Bool} {item : Item} {items : List Item}
  {rows : List Row} {cells : Cells} {r : Review}

theorem Rows.hidden (hhidden : field.hides scope item.main = true)
    (h : field.Rows scope closes items rows) : field.Rows scope closes (item :: items) rows := by
  unfold Rows
  rwa [List.filter_cons_of_neg (by simp [hhidden])]

theorem Rows.cons {cell : Cell} (hshown : field.hides scope item.main = false)
    (hcell : field.param.Pictures scope item cell) (h : field.Rows scope closes items rows) :
    field.Rows scope closes (item :: items) (rowOf field.name closes cell :: rows) := by
  unfold Rows
  rw [List.filter_cons_of_pos (by simp [hshown])]
  exact .cons ⟨cell, hcell, rfl⟩ h

/-- What showing some byte strings has come to: rows for all of them, or for those before the one
that was refused. -/
structure Shows (field : Field) (scope : Scope) (r : Review) (items : List Item)
    (rows : List Row) (outcome : Except Error Unit × Review) : Prop where
  frame : outcome.2 = { r with table := r.table ++ rows }
  all : outcome.1 = .ok () → field.Rows scope r.calls.isVerified items rows
  front : ∀ e, outcome.1 = .error e →
    ∃ k, k < items.length ∧ field.Rows scope r.calls.isVerified (items.take k) rows

open ClearSign.Action

theorem Shows.refused {e : Error} (item : Item) (items : List Item) :
    field.Shows scope r (item :: items) [] (.error e, r) where
  frame := by simp
  all := nofun
  front := fun _ _ => ⟨0, by simp, List.Forall₂.nil⟩

/-- Cells are shown until one is refused. -/
theorem forM_addCell_shows (host : Host) (h : List.Forall₂ (field.Answers scope) items cells)
    (r : Review) :
    ∃ rows, field.Shows scope r items rows ((cells.forM (addCell host field.name)).exec r) := by
  -- Each row leaves another table to the rest, so the induction is for all reviews at once.
  induction h generalizing r with
  | nil => exact ⟨[], ⟨by simp, fun _ => List.Forall₂.nil, nofun⟩⟩
  | @cons item cell items cells hcell _ ih =>
    have hfirst : (cell :: cells).forM (addCell host field.name) =
        addCell host field.name cell >>= fun _ => cells.forM (addCell host field.name) := rfl
    rw [hfirst, exec_bind]
    cases cell with
    | error e => exact ⟨[], .refused item items⟩
    | ok shown =>
      obtain ⟨hhidden, rfl⟩ | ⟨hshown, cell, rfl, hpicture⟩ := hcell shown rfl
      · have hskip : (addCell host field.name (.ok none)).exec r = (.ok (), r) := rfl
        rw [hskip]
        obtain ⟨rows, hrest⟩ := ih r
        refine ⟨rows, hrest.frame, fun hok => (hrest.all hok).hidden hhidden, fun e he => ?_⟩
        obtain ⟨k, hk, hrows⟩ := hrest.front e he
        exact ⟨k + 1, Nat.succ_lt_succ hk, hrows.hidden hhidden⟩
      · by_cases hroom : r.table.length < host.settings.maxRows
        · rw [exec_addCell, if_pos hroom]
          obtain ⟨rows, hrest⟩ :=
            ih { r with table := r.table ++ [rowOf field.name r.calls.isVerified cell] }
          refine ⟨rowOf field.name r.calls.isVerified cell :: rows, ?_,
            fun hok => (hrest.all hok).cons hshown hpicture, fun e he => ?_⟩
          · rw [hrest.frame]
            simp
          · obtain ⟨k, hk, hrows⟩ := hrest.front e he
            exact ⟨k + 1, Nat.succ_lt_succ hk, hrows.cons hshown hpicture⟩
        · rw [exec_addCell, if_neg hroom]
          exact ⟨[], .refused item items⟩

end

end Field

namespace Cell

/-- The rule of a field hides what meets a constraint it was not to meet, and nothing else. -/
theorem gate_eq_ok {field : Field} {matched : Bool} {cell : Cell} {shown : Option Cell}
    (h : gate field matched cell = .ok shown) :
    ((field.visibility == .ifNotIn && matched) = true ∧ shown = none) ∨
      ((field.visibility == .ifNotIn && matched) = false ∧ shown = some cell) := by
  unfold gate at h
  cases hrule : field.visibility <;> cases matched <;> rw [hrule] at h <;> cases h <;> simp

end Cell

namespace Param

/-- Kinds that show byte strings together with others. -/
def isPaired : Param → Bool
  | .tokenAmount _ | .nft _ => true
  | _ => false

/-- Kinds that look at the rule of their field. -/
def isRuled : Param → Bool
  | .raw _ | .trustedName _ => true
  | _ => false

variable {scope : Scope} {captures : Captures}

theorem eq_of_mem_mapIdx {α : Type} {a b : α} (h : b ∈ captures.mapIdx fun _ _ => a) : b = a := by
  obtain ⟨i, hi, hb⟩ := List.mem_mapIdx.mp h
  exact hb.symm

theorem beside_none {p : Param} (h : p.isPaired = false) (scope : Scope) (captures : Captures) :
    p.Beside scope (captures.mapIdx fun _ _ => none) := by
  cases p with
  | tokenAmount | nft => cases h
  | _ => exact fun b => eq_of_mem_mapIdx

/-- To each amount belongs its token. -/
theorem beside_tokens {p : TokenAmount} {tokens : Captures}
    (h : p.tokens scope captures = .ok tokens) :
    (Param.tokenAmount p).Beside scope (captures.mapIdx fun i _ => tokens[i]?) := by
  unfold TokenAmount.tokens at h
  cases haddress : p.token with
  | none =>
    rw [haddress] at h
    cases h
    simp only [Beside, haddress]
    exact fun b => eq_of_mem_mapIdx
  | some address =>
    rw [haddress] at h
    obtain ⟨found, hfound, h⟩ := bind_eq_ok.mp h
    by_cases hlength : found.length = captures.length
    · rw [if_pos hlength] at h
      cases h
      simp only [Beside, haddress]
      refine ⟨tokens, hfound, List.ext_getElem (by simp [hlength]) fun i hi _ => ?_⟩
      simp
    · rw [if_neg hlength] at h
      cases h

/-- To each id belongs its collection, or the only one. -/
theorem beside_collections {p : Nft} {collections : Captures}
    (hresolve : scope.resolve p.collection = .ok collections)
    (h : pairable collections captures = true) :
    (Param.nft p).Beside scope
      (captures.mapIdx fun i _ => collections[i]?.or collections.head?) := by
  unfold pairable at h
  rw [Bool.and_eq_true, Bool.or_eq_true, beq_iff_eq, beq_iff_eq] at h
  refine ⟨collections, hresolve, ?_⟩
  obtain ⟨-, honly | hlength⟩ := h
  · obtain ⟨only, rfl⟩ := List.length_eq_one_iff.mp honly
    refine .inr ⟨only, rfl, fun b hb => ?_⟩
    obtain ⟨i, hi, rfl⟩ := List.mem_mapIdx.mp hb
    cases i <;> rfl
  · refine .inl (List.ext_getElem (by simp [hlength]) fun i hi hi' => ?_)
    rw [List.length_map] at hi'
    simp [List.getElem?_eq_getElem hi']

end Param

namespace Field

variable {field : Field} {scope : Scope} {item : Item} {c : Capture} {param : Param}

theorem hides_eq_false (h : field.param.isRuled = false) (scope : Scope) (c : Capture) :
    field.hides scope c = false := by
  unfold hides
  cases hparam : field.param with
  | raw | trustedName =>
    rw [hparam] at h
    cases h
  | _ => exact Bool.and_false _

theorem answers_map (hshown : field.hides scope item.main = false) {tried : Except Error Cell}
    (h : ∀ cell, tried = .ok cell → field.param.Pictures scope item cell) :
    field.Answers scope item (tried.map some) := by
  cases tried with
  | error e =>
    intro shown h
    cases h
  | ok cell =>
    rintro _ ⟨⟩
    exact .inr ⟨hshown, cell, rfl, h cell rfl⟩

theorem answers_gate {matched : Bool} {cell : Cell}
    (hhides : field.hides scope item.main = (field.visibility == .ifNotIn && matched))
    (h : field.param.Pictures scope item cell) :
    field.Answers scope item (Cell.gate field matched cell) := by
  intro shown hgate
  rw [hhides]
  obtain ⟨hhidden, hnone⟩ | ⟨hshown, hsome⟩ := Cell.gate_eq_ok hgate
  · exact .inl ⟨hhidden, hnone⟩
  · exact .inr ⟨hshown, cell, hsome, h⟩

theorem answers_raw {p : Param.Single} {chain : ChainId} (hparam : field.param = .raw p)
    (hchain : scope.chain = .ok chain) :
    field.Answers scope ⟨c, none⟩ (p.rawCell scope field chain c) := by
  intro shown h
  obtain ⟨text, htext, hgate⟩ := bind_eq_ok.mp h
  refine answers_gate ?_ (hparam ▸ .raw hchain htext) shown hgate
  unfold hides
  rw [hparam]

theorem answers_name {p : Param.NameQuery} {chain : ChainId} (hparam : field.param = .trustedName p)
    (hchain : Param.callChain scope = .ok chain) :
    field.Answers scope ⟨c, none⟩ (p.cell scope field chain c) := by
  intro shown h
  obtain ⟨address, haddress, hgate⟩ := bind_eq_ok.mp h
  refine answers_gate ?_ (hparam ▸ .trustedName hchain haddress) shown hgate
  unfold hides
  rw [hparam]
  show (_ && (p.address scope c).toOption.any _) = _
  rw [haddress]
  rfl

theorem map_mapIdx {α β γ : Type} (f : Nat → α → β) (g : β → γ) (as : List α) :
    (as.mapIdx f).map g = as.mapIdx fun i a => g (f i a) := by
  rw [List.mapIdx_eq_zipIdx_map, List.mapIdx_eq_zipIdx_map, List.map_map]
  rfl

theorem mapIdx_eq_map {α β : Type} (f : α → β) (as : List α) :
    (as.mapIdx fun _ a => f a) = as.map f := by
  apply List.ext_getElem?
  intro i
  rw [List.getElem?_mapIdx, List.getElem?_map]

theorem forall₂_mapIdx {α β γ : Type} {R : β → γ → Prop} {f : Nat → α → β} {g : Nat → α → γ}
    (as : List α) (h : ∀ i a, R (f i a) (g i a)) :
    List.Forall₂ R (as.mapIdx f) (as.mapIdx g) := by
  rw [List.mapIdx_eq_zipIdx_map, List.mapIdx_eq_zipIdx_map, List.forall₂_map_left_iff,
    List.forall₂_map_right_iff, List.forall₂_same]
  exact fun p _ => h p.2 p.1

section

variable {v : Value} {captures : Captures}

/-- Cells for byte strings that have others beside them, place by place. -/
theorem exists_lists_beside (hresolve : scope.resolve v = .ok captures)
    {beside : Nat → Option Capture}
    (hbeside : param.Beside scope (captures.mapIdx fun i _ => beside i))
    {f : Nat → Capture → Except Error (Option Cell)}
    (h : ∀ i c, field.Answers scope ⟨c, beside i⟩ (f i c)) :
    ∃ items, param.Lists scope v items ∧
      List.Forall₂ (field.Answers scope) items (captures.mapIdx f) := by
  refine ⟨captures.mapIdx fun i c => ⟨c, beside i⟩, ⟨?_, ?_⟩, forall₂_mapIdx captures h⟩
  · rw [hresolve, map_mapIdx, mapIdx_eq_map fun c => c, List.map_id']
  · rwa [map_mapIdx]

/-- Cells for byte strings that stand by themselves. -/
theorem exists_lists_alone (halone : param.isPaired = false)
    (hresolve : scope.resolve v = .ok captures) {f : Capture → Except Error (Option Cell)}
    (h : ∀ c, field.Answers scope ⟨c, none⟩ (f c)) :
    ∃ items, param.Lists scope v items ∧
      List.Forall₂ (field.Answers scope) items (captures.map f) := by
  rw [← mapIdx_eq_map]
  exact exists_lists_beside hresolve (Param.beside_none halone scope captures) fun _ => h

/-- Cells that can be made or not, of a kind that has no use for the rule. -/
theorem exists_lists_tried (hparam : field.param = param) (halone : param.isPaired = false)
    (hunruled : param.isRuled = false) (hresolve : scope.resolve v = .ok captures)
    {f : Capture → Except Error Cell}
    (h : ∀ c cell, f c = .ok cell → param.Pictures scope ⟨c, none⟩ cell) :
    ∃ items, param.Lists scope v items ∧
      List.Forall₂ (field.Answers scope) items (Cells.tried (captures.map f)) := by
  subst hparam
  rw [Cells.tried, List.map_map]
  exact exists_lists_alone halone hresolve fun c =>
    answers_map (hides_eq_false hunruled scope c) (h c)

/-- Cells that can all be made, of a kind that has no use for the rule. -/
theorem exists_lists_shown (hparam : field.param = param) (halone : param.isPaired = false)
    (hunruled : param.isRuled = false) (hresolve : scope.resolve v = .ok captures)
    {f : Capture → Cell}
    (h : ∀ c, param.Pictures scope ⟨c, none⟩ (f c)) :
    ∃ items, param.Lists scope v items ∧
      List.Forall₂ (field.Answers scope) items (Cells.shown (captures.map f)) := by
  have htried : Cells.shown (captures.map f) =
      Cells.tried (captures.map fun c => (.ok (f c) : Except Error Cell)) := by
    rw [Cells.shown, Cells.tried, List.map_map, List.map_map]
    rfl
  rw [htried]
  refine exists_lists_tried hparam halone hunruled hresolve ?_
  rintro c _ ⟨⟩
  exact h c

/-- Cells are made for the byte strings of the main value of a field, one by one and in order. -/
theorem exists_lists {cells : Cells} (hshown : field.param.shown? = some v)
    (hcells : field.param.cells scope field = .ok cells) :
    ∃ items, field.param.Lists scope v items ∧ List.Forall₂ (field.Answers scope) items cells := by
  unfold Param.cells at hcells
  -- The kinds differ in what they look up first, and in whether something stands beside the values.
  generalize hparam : field.param = param at hcells hshown ⊢
  cases param with
  | calldata p => cases hshown
  | raw p =>
    cases hshown
    obtain ⟨chain, hchain, hcells⟩ := bind_eq_ok.mp hcells
    obtain ⟨captures, hresolve, ⟨⟩⟩ := bind_eq_ok.mp hcells
    exact exists_lists_alone rfl hresolve fun c => answers_raw hparam hchain
  | amount p =>
    cases hshown
    obtain ⟨chain, hchain, hcells⟩ := bind_eq_ok.mp hcells
    obtain ⟨captures, hresolve, ⟨⟩⟩ := bind_eq_ok.mp hcells
    exact exists_lists_shown hparam rfl rfl hresolve fun c => .amount hchain
  | tokenAmount p =>
    cases hshown
    obtain ⟨chain, hchain, hcells⟩ := bind_eq_ok.mp hcells
    obtain ⟨amounts, hresolve, hcells⟩ := bind_eq_ok.mp hcells
    obtain ⟨tokens, htokens, ⟨⟩⟩ := bind_eq_ok.mp hcells
    have hshown : ∀ c, field.hides scope c = false := hides_eq_false (by rw [hparam]; rfl) scope
    rw [Cells.shown, map_mapIdx]
    refine exists_lists_beside hresolve (Param.beside_tokens htokens) fun i c => ?_
    rintro _ ⟨⟩
    exact .inr ⟨hshown c, _, rfl, hparam ▸ .tokenAmount hchain⟩
  | nft p =>
    cases hshown
    obtain ⟨chain, hchain, hcells⟩ := bind_eq_ok.mp hcells
    obtain ⟨collections, hcollections, hcells⟩ := bind_eq_ok.mp hcells
    obtain ⟨ids, hresolve, hcells⟩ := bind_eq_ok.mp hcells
    by_cases hpairable : Param.pairable collections ids = true
    · rw [if_pos hpairable] at hcells
      cases hcells
      have hshown : ∀ c, field.hides scope c = false := hides_eq_false (by rw [hparam]; rfl) scope
      rw [Cells.tried, map_mapIdx]
      refine exists_lists_beside hresolve (Param.beside_collections hcollections hpairable)
        fun i c => answers_map (hshown c) fun cell hcell => ?_
      rw [hparam]
      cases hcollection : collections[i]?.or collections.head? with
      | none =>
        rw [hcollection] at hcell
        cases hcell
      | some collection =>
        rw [hcollection] at hcell
        exact .nft hchain hcell
    · rw [if_neg hpairable] at hcells
      cases hcells
  | datetime p =>
    cases hshown
    obtain ⟨captures, hresolve, ⟨⟩⟩ := bind_eq_ok.mp hcells
    exact exists_lists_shown hparam rfl rfl hresolve fun c => .datetime
  | duration p =>
    cases hshown
    obtain ⟨captures, hresolve, ⟨⟩⟩ := bind_eq_ok.mp hcells
    exact exists_lists_shown hparam rfl rfl hresolve fun c => .duration
  | unit p =>
    cases hshown
    by_cases hempty : p.symbol.isEmpty = true
    · simp only [hempty, if_true, bind_eq_ok, throw_ne_ok, false_and, exists_false] at hcells
    · simp only [hempty] at hcells
      obtain ⟨captures, hresolve, ⟨⟩⟩ := bind_eq_ok.mp hcells
      exact exists_lists_shown hparam rfl rfl hresolve fun c => .unit
  | enum p =>
    cases hshown
    obtain ⟨captures, hresolve, hcells⟩ := bind_eq_ok.mp hcells
    obtain ⟨chain, hchain, hcells⟩ := bind_eq_ok.mp hcells
    obtain ⟨⟨contract, selector⟩, hfunction, ⟨⟩⟩ := bind_eq_ok.mp hcells
    exact exists_lists_tried hparam rfl rfl hresolve fun c cell => .enum hchain hfunction
  | trustedName p =>
    cases hshown
    obtain ⟨captures, hresolve, hcells⟩ := bind_eq_ok.mp hcells
    obtain ⟨chain, hchain, ⟨⟩⟩ := bind_eq_ok.mp hcells
    exact exists_lists_alone rfl hresolve fun c => answers_name hparam hchain
  | token p =>
    cases hshown
    obtain ⟨chain, hchain, hcells⟩ := bind_eq_ok.mp hcells
    obtain ⟨captures, hresolve, ⟨⟩⟩ := bind_eq_ok.mp hcells
    exact exists_lists_tried hparam rfl rfl hresolve fun c cell => .token hchain
  | network p =>
    cases hshown
    by_cases hfamily : p.value.family ≠ .uint
    · simp only [if_pos hfamily, bind_eq_ok, throw_ne_ok, false_and, exists_false] at hcells
    · simp only [if_neg hfamily] at hcells
      obtain ⟨captures, hresolve, ⟨⟩⟩ := bind_eq_ok.mp hcells
      exact exists_lists_tried hparam rfl rfl hresolve fun c cell => .network

end

theorem Rows.key {field : Field} {scope : Scope} {closes : Bool} {items : List Item}
    {rows : List Row} (h : field.Rows scope closes items rows) :
    ∀ row ∈ rows, row.key = field.name := by
  unfold Rows at h
  generalize (items.filter fun item => !field.hides scope item.main) = shown at h
  induction h with
  | nil => exact List.forall_mem_nil _
  | cons hrow _ ih =>
    obtain ⟨cell, -, rfl⟩ := hrow
    exact List.forall_mem_cons.mpr ⟨rfl, ih⟩

/-- A field that shows something does nothing to a session but add rows under its name: calls, the
place among them, the count of the batch and all that is kept stay, and so do the rows that were
there. If it is shown, there is one row for each byte string of its main value that is not hidden,
in order, made for this byte string and what belongs to it. If it is refused, there are the rows
for the first of them, and not for all, or none. -/
theorem format_fans_out (host : Host) (s : Session) (field : Field) (v : Value)
    (hshown : field.param.shown? = some v) :
    let scope : Scope := ⟨host, s.cache, s.review.calls.currentCall⟩
    let closes := s.review.calls.isVerified
    ∃ (answer : Except Error Unit) (rows : List Row),
      (Session.onReview (field.format host s.cache)).exec s =
        (answer, { s with review := { s.review with table := s.review.table ++ rows } }) ∧
      (∀ row ∈ rows, row.key = field.name) ∧
      (answer = .ok () →
        ∃ items, field.param.Lists scope v items ∧ field.Rows scope closes items rows) ∧
      ∀ e, answer = .error e → rows = [] ∨ ∃ items k, field.param.Lists scope v items ∧
        k < items.length ∧ field.Rows scope closes (items.take k) rows := by
  intro scope closes
  have hkind : field.param.kind ≠ .calldata := by
    cases hparam : field.param with
    | calldata p =>
      rw [hparam] at hshown
      cases hshown
    | _ => exact ParamKind.noConfusion
  cases hcells : field.param.cells scope field with
  | error e =>
    refine ⟨.error e, [], ?_, List.forall_mem_nil _, nofun, fun _ _ => .inl rfl⟩
    unfold Session.onReview
    rw [Action.exec_onPart, exec_format_refused hkind hcells, List.append_nil]
  | ok cells =>
    obtain ⟨items, hlists, hanswers⟩ := exists_lists hshown hcells
    obtain ⟨rows, hframe, hall, hfront⟩ := forM_addCell_shows host hanswers s.review
    have hexec : (field.format host s.cache).exec s.review = _ := exec_format hkind hcells
    rw [← hexec] at hframe hall hfront
    refine ⟨_, rows, ?_, ?_, fun hok => ⟨items, hlists, hall hok⟩, fun e he => .inr ?_⟩
    · unfold Session.onReview
      rw [Action.exec_onPart, hframe]
    · cases hanswer : ((field.format host s.cache).exec s.review).1 with
      | ok u => exact (hall hanswer).key
      | error e =>
        obtain ⟨k, -, hrows⟩ := hfront e hanswer
        exact hrows.key
    · obtain ⟨k, hk, hrows⟩ := hfront e he
      exact ⟨items, k, hlists, hk, hrows⟩

open Session

/-- A field that shows a list of amounts, each counted in the token that a second list has at its
place. -/
def sampleAmounts : Field :=
  ⟨1, "a", .tokenAmount ⟨1, sampleNumbers .uint 0, some (sampleNumbers .address 3),
    [Fixed.align 20 [9]], 0, none⟩, .always, []⟩

/-- Both amounts are shown, in order, and each is counted in its own token. -/
theorem format_fans_out_amount :
    let device := sampleDevice .transaction
    let s := after device (sampleWords [2, 3000000000000000000, 5, 2, 9, 10] [])
    let scope : Scope := ⟨device.toHost, s.cache, s.review.calls.currentCall⟩
    ∃ items rows,
      (onReview (sampleAmounts.format device.toHost s.cache)).exec s =
        (.ok (), { s with review := { s.review with table := s.review.table ++ rows } }) ∧
      rows.map (fun row => (row.key, row.value)) = [("a", "3 ETH"), ("a", "5 ???")] ∧
      sampleAmounts.param.Lists scope (sampleNumbers .uint 0) items ∧
      items.map (fun item => item.main.bytes.toNat) = [3000000000000000000, 5] ∧
      items.map (fun item => item.beside.map fun c => c.bytes.toNat) = [some 9, some 10] ∧
      sampleAmounts.Rows scope s.review.calls.isVerified items rows := by
  intro device s scope
  obtain ⟨answer, rows, hexec, -, hall, -⟩ :=
    format_fans_out device.toHost s sampleAmounts _ rfl
  have hrun : ((onReview (sampleAmounts.format device.toHost s.cache)).exec s).1.toBool = true ∧
      ((onReview (sampleAmounts.format device.toHost s.cache)).exec s).2.review.table.map
        (fun row => (row.key, row.value)) = [("a", "3 ETH"), ("a", "5 ???")] ∧
      s.review.table = [] ∧
      (scope.resolve (sampleNumbers .uint 0)).toOption.map
        (fun cs => cs.map fun c => c.bytes.toNat) = some [3000000000000000000, 5] ∧
      (scope.resolve (sampleNumbers .address 3)).toOption.map
        (fun cs => cs.map fun c => c.bytes.toNat) = some [9, 10] := by decide +kernel
  obtain ⟨hanswer, htexts, hempty, hamounts, htokens⟩ := hrun
  rw [hexec] at hanswer htexts
  obtain ⟨⟨⟩, rfl⟩ := exists_of_toBool hanswer
  obtain ⟨items, hlists, hrows⟩ := hall rfl
  obtain ⟨tokens, hresolve, hbeside⟩ := hlists.beside
  obtain ⟨mains, hmains, hamounts⟩ := Option.map_eq_some_iff.mp hamounts
  obtain ⟨besides, hbesides, htokens⟩ := Option.map_eq_some_iff.mp htokens
  obtain rfl : items.map Item.main = mains :=
    Except.ok.inj (hlists.main.symm.trans (toOption_eq_some.mp hmains))
  obtain rfl : tokens = besides :=
    Except.ok.inj (hresolve.symm.trans (toOption_eq_some.mp hbesides))
  refine ⟨items, rows, hexec, ?_, hlists, ?_, ?_, hrows⟩
  · simpa only [hempty, List.nil_append] using htexts
  · simpa only [List.map_map, Function.comp_def] using hamounts
  · have hcounted : (items.map Item.beside).map (Option.map fun c => c.bytes.toNat) =
        (tokens.map fun c => c.bytes.toNat).map some := by
      rw [hbeside, List.map_map, List.map_map]
      rfl
    rwa [htokens, List.map_map] at hcounted

end Field

end ClearSign
