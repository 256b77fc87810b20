import ClearSign.Field.Basic
import ClearSign.Proofs.Bytes
import ClearSign.Proofs.Text.Fitting
import ClearSign.Proofs.Tlv.Shape
import ClearSign.Proofs.Value.Limits
import Mathlib.Data.String.Basic

/-!
What fields that were read are held to, at every depth: their texts, their lists, and each value
that a parameter holds.
-/

namespace ClearSign

open Tlv Refusal

namespace Param

/-- The values that a parameter holds. -/
def values : Param → List Value
  | raw p | amount p | duration p | network p => [p.value]
  | tokenAmount p => p.value :: p.token.toList
  | nft p => [p.id, p.collection]
  | datetime p => [p.value]
  | unit p => [p.value]
  | enum p => [p.value]
  | trustedName p => [p.value]
  | calldata p =>
    p.calldata :: p.callee :: (p.chain.toList ++ p.selector.toList ++ p.amount.toList ++
      p.spender.toList)
  | token p => [p.address]

/-- The addresses of a parameter that stand for something else. -/
def placeholders : Param → List Address
  | tokenAmount p => p.native
  | trustedName p => p.senders
  | token p => p.native
  | _ => []

/-- What parameters of some kinds are held to besides. -/
def OwnLimits : Param → Prop
  | tokenAmount p => p.threshold < 2 ^ 256 ∧ ∀ m ∈ p.message, m.utf8ByteSize ≤ 20
  | unit p => p.symbol.utf8ByteSize ≤ 11
  | trustedName p => p.types.length ≤ 6 ∧ p.sources.length ≤ 8
  | _ => True

/-- What a parameter is held to. -/
structure Limited (p : Param) : Prop where
  values : ∀ v ∈ p.values, v.Limited
  placeholders : p.placeholders.length ≤ 4
  own : p.OwnLimits

section

variable {σ : Type} {I : σ → Prop}

theorem keeps_version {set : σ → UInt8 → σ} (h : ∀ s b, I s → I (set s b)) :
    (versionRule set).Keeps I := Rule.keeps_read h

theorem keeps_value {tag : UInt8} {set : σ → Value → σ}
    (h : ∀ s v, I s → v.Limited → I (set s v)) : (valueRule tag set).Keeps I := by
  intro r before after hbefore happly
  obtain ⟨v, hv, hafter⟩ := bind_eq_ok.mp happly
  cases hafter
  exact h before v hbefore (Value.limited_of_parse hv)

/-- What the rules of a parameter keep holds of a parameter that was read. -/
theorem made_keeps {rules : List (Rule σ)} {initial made : σ} {required : List UInt8} {bs : Bytes}
    (h : (do
      let (p, tags) ← (Schema.ofRules rules).parse initial bs
      tags.require required
      return p) = .ok made)
    (first : I initial) (each : ∀ rule ∈ rules, rule.Keeps I) : I made := by
  obtain ⟨⟨p, tags⟩, hparse, hrest⟩ := bind_eq_ok.mp h
  obtain ⟨-, -, hp⟩ := bind_eq_ok.mp hrest
  cases hp
  exact Schema.parse_preserves hparse first each

end

theorem limited_unmet : unmet.Limited := ⟨by rintro n ⟨⟩, Nat.zero_le _⟩

theorem length_addPlaceholder_le {addresses addresses' : List Address} {r : Record}
    (h : addPlaceholder addresses r = .ok addresses') : addresses'.length ≤ maxPlaceholders := by
  unfold addPlaceholder at h
  split at h
  · rename_i hroom
    obtain ⟨a, -, hadded⟩ := bind_eq_ok.mp h
    cases hadded
    rw [List.length_append]
    exact hroom
  · cases h

section

variable {bs : Bytes}

theorem Single.limited_of_parse {p : Single} (h : Single.parse bs = .ok p) : p.value.Limited := by
  refine made_keeps (I := fun p : Single => p.value.Limited) h limited_unmet ?_
  simp only [List.forall_mem_cons, List.not_mem_nil, false_imp_iff, implies_true, and_true]
  exact ⟨keeps_version fun _ _ h => h, keeps_value fun _ _ _ hv => hv⟩

theorem Nft.limited_of_parse {p : Nft} (h : Nft.parse bs = .ok p) :
    p.id.Limited ∧ p.collection.Limited := by
  refine made_keeps (I := fun p : Nft => p.id.Limited ∧ p.collection.Limited) h
    ⟨limited_unmet, limited_unmet⟩ ?_
  simp only [List.forall_mem_cons, List.not_mem_nil, false_imp_iff, implies_true, and_true]
  exact ⟨keeps_version fun _ _ h => h, keeps_value fun _ _ h hv => ⟨hv, h.2⟩,
    keeps_value fun _ _ h hv => ⟨h.1, hv⟩⟩

theorem Datetime.limited_of_parse {p : Datetime} (h : Datetime.parse bs = .ok p) :
    p.value.Limited := by
  refine made_keeps (I := fun p : Datetime => p.value.Limited) h limited_unmet ?_
  simp only [List.forall_mem_cons, List.not_mem_nil, false_imp_iff, implies_true, and_true]
  exact ⟨keeps_version fun _ _ h => h, keeps_value fun _ _ _ hv => hv,
    Rule.keeps_decode fun _ _ h => h⟩

theorem Choice.limited_of_parse {p : Choice} (h : Choice.parse bs = .ok p) : p.value.Limited := by
  refine made_keeps (I := fun p : Choice => p.value.Limited) h limited_unmet ?_
  simp only [List.forall_mem_cons, List.not_mem_nil, false_imp_iff, implies_true, and_true]
  exact ⟨keeps_version fun _ _ h => h, Rule.keeps_read fun _ _ h => h,
    keeps_value fun _ _ _ hv => hv⟩

/-- A quantity with a value and a symbol within their limits. -/
structure Quantity.Limited (p : Quantity) : Prop where
  value : p.value.Limited
  symbol : p.symbol.utf8ByteSize ≤ maxSymbol

theorem Quantity.limited_of_parse {p : Quantity} (h : Quantity.parse bs = .ok p) : p.Limited := by
  refine made_keeps h ⟨limited_unmet, Nat.zero_le _⟩ ?_
  simp only [List.forall_mem_cons, List.not_mem_nil, false_imp_iff, implies_true, and_true]
  refine ⟨keeps_version fun _ _ h => ⟨h.value, h.symbol⟩,
    keeps_value fun _ _ h hv => ⟨hv, h.symbol⟩, ?_,
    Rule.keeps_read fun _ _ h => ⟨h.value, h.symbol⟩,
    Rule.keeps_read fun _ _ h => ⟨h.value, h.symbol⟩⟩
  intro r before after hbefore happly
  obtain ⟨-, -, hafter⟩ := bind_eq_ok.mp happly
  cases hafter
  exact ⟨hbefore.value, Utf8.utf8ByteSize_readable_le maxSymbol r.value⟩

structure TokenAmount.Limited (p : TokenAmount) : Prop where
  value : p.value.Limited
  token : ∀ v ∈ p.token, v.Limited
  native : p.native.length ≤ maxPlaceholders
  threshold : p.threshold < 2 ^ 256
  message : ∀ m ∈ p.message, m.utf8ByteSize ≤ maxMessage

theorem TokenAmount.limited_of_parse {p : TokenAmount} (h : TokenAmount.parse bs = .ok p) :
    p.Limited := by
  refine made_keeps h ⟨limited_unmet, by rintro v ⟨⟩, Nat.zero_le _, by decide, by rintro m ⟨⟩⟩ ?_
  simp only [List.forall_mem_cons, List.not_mem_nil, false_imp_iff, implies_true, and_true]
  refine ⟨keeps_version fun _ _ h => { h with },
    keeps_value fun _ _ h hv => { h with value := hv }, ?_, ?_, ?_, ?_⟩
  · intro r before after hbefore happly
    obtain ⟨v, hv, hafter⟩ := bind_eq_ok.mp happly
    cases hafter
    refine { hbefore with token := ?_ }
    rintro v' ⟨⟩
    exact Value.limited_of_parse hv
  · intro r before after hbefore happly
    obtain ⟨native, hnative, hafter⟩ := bind_eq_ok.mp happly
    cases hafter
    exact { hbefore with native := length_addPlaceholder_le hnative }
  · intro r before after hbefore happly
    obtain ⟨n, hn, hafter⟩ := bind_eq_ok.mp happly
    cases hafter
    refine { hbefore with threshold := ?_ }
    unfold Record.asNat at hn
    split at hn
    · rename_i hfits
      cases hn
      exact Nat.lt_of_lt_of_le (Bytes.toNat_lt r.value) (Nat.pow_le_pow_right (by decide) hfits)
    · cases hn
  · intro r before after hbefore happly
    obtain ⟨-, -, hafter⟩ := bind_eq_ok.mp happly
    cases hafter
    refine { hbefore with message := ?_ }
    intro m hm
    unfold messageOf at hm
    split at hm
    · cases hm
    · cases hm
      exact Utf8.utf8ByteSize_readable_le maxMessage r.value

structure NameQuery.Limited (p : NameQuery) : Prop where
  value : p.value.Limited
  types : p.types.length ≤ maxTypes
  sources : p.sources.length ≤ maxSources
  senders : p.senders.length ≤ maxPlaceholders

/-- There is a code for each byte. -/
theorem NameQuery.length_codes {α : Type} {ofCode? : UInt8 → Option α} {bs : Bytes} {as : List α}
    (h : codes ofCode? bs = .ok as) : as.length = bs.length := by
  have hall : bs.mapM ofCode? = some as := by
    unfold codes at h
    split at h
    · rename_i hall
      rw [hall, Except.ok.inj h]
    · cases h
  clear h
  induction bs generalizing as with
  | nil =>
    cases hall
    rfl
  | cons b bs ih =>
    simp only [List.mapM_cons, Option.bind_eq_bind, Option.bind_eq_some_iff, Option.pure_def,
      Option.some.injEq] at hall
    obtain ⟨a, -, as', hrest, rfl⟩ := hall
    rw [List.length_cons, List.length_cons, ih hrest]

theorem NameQuery.length_codes_le {α : Type} {ofCode? : UInt8 → Option α} {max : Nat} {r : Record}
    {bs : Bytes} {as : List α} (hbs : r.asBytes max = .ok bs) (h : codes ofCode? bs = .ok as) :
    as.length ≤ max := by
  rw [length_codes h]
  unfold Record.asBytes at hbs
  split at hbs
  · rename_i hfits
    cases hbs
    exact hfits
  · cases hbs

theorem NameQuery.limited_of_parse {p : NameQuery} (h : NameQuery.parse bs = .ok p) :
    p.Limited := by
  refine made_keeps h ⟨limited_unmet, Nat.zero_le _, Nat.zero_le _, Nat.zero_le _⟩ ?_
  simp only [List.forall_mem_cons, List.not_mem_nil, false_imp_iff, implies_true, and_true]
  refine ⟨keeps_version fun _ _ h => { h with },
    keeps_value fun _ _ h hv => { h with value := hv }, ?_, ?_, ?_⟩
  · intro r before after hbefore happly
    obtain ⟨bs, hbs, hcodes⟩ := bind_eq_ok.mp happly
    obtain ⟨types, htypes, hafter⟩ := bind_eq_ok.mp hcodes
    cases hafter
    exact { hbefore with types := length_codes_le hbs htypes }
  · intro r before after hbefore happly
    obtain ⟨bs, hbs, hcodes⟩ := bind_eq_ok.mp happly
    obtain ⟨sources, hsources, hafter⟩ := bind_eq_ok.mp hcodes
    cases hafter
    exact { hbefore with sources := length_codes_le hbs hsources }
  · intro r before after hbefore happly
    obtain ⟨senders, hsenders, hafter⟩ := bind_eq_ok.mp happly
    cases hafter
    exact { hbefore with senders := length_addPlaceholder_le hsenders }

structure NestedCall.Limited (p : NestedCall) : Prop where
  calldata : p.calldata.Limited
  callee : p.callee.Limited
  chain : ∀ v ∈ p.chain, v.Limited
  selector : ∀ v ∈ p.selector, v.Limited
  amount : ∀ v ∈ p.amount, v.Limited
  spender : ∀ v ∈ p.spender, v.Limited

theorem NestedCall.limited_of_parse {p : NestedCall} (h : NestedCall.parse bs = .ok p) :
    p.Limited := by
  have hsome {v : Value} (hv : v.Limited) : ∀ w ∈ some v, w.Limited := by
    rintro w ⟨⟩
    exact hv
  have hnone : ∀ w ∈ (none : Option Value), w.Limited := by rintro w ⟨⟩
  refine made_keeps h ⟨limited_unmet, limited_unmet, hnone, hnone, hnone, hnone⟩ ?_
  simp only [List.forall_mem_cons, List.not_mem_nil, false_imp_iff, implies_true, and_true]
  exact ⟨keeps_version fun _ _ h => { h with },
    keeps_value fun _ _ h hv => { h with calldata := hv },
    keeps_value fun _ _ h hv => { h with callee := hv },
    keeps_value fun _ _ h hv => { h with chain := hsome hv },
    keeps_value fun _ _ h hv => { h with selector := hsome hv },
    keeps_value fun _ _ h hv => { h with amount := hsome hv },
    keeps_value fun _ _ h hv => { h with spender := hsome hv }⟩

structure Token.Limited (p : Token) : Prop where
  address : p.address.Limited
  native : p.native.length ≤ maxPlaceholders

theorem Token.limited_of_parse {p : Token} (h : Token.parse bs = .ok p) : p.Limited := by
  refine made_keeps h ⟨limited_unmet, Nat.zero_le _⟩ ?_
  simp only [List.forall_mem_cons, List.not_mem_nil, false_imp_iff, implies_true, and_true]
  refine ⟨keeps_version fun _ _ h => { h with },
    keeps_value fun _ _ h hv => { h with address := hv }, ?_⟩
  intro r before after hbefore happly
  obtain ⟨native, hnative, hafter⟩ := bind_eq_ok.mp happly
  cases hafter
  exact { hbefore with native := length_addPlaceholder_le hnative }

end

/-- A parameter that was read is of the kind that was asked for. -/
theorem kind_of_parse {k : ParamKind} {bs : Bytes} {p : Param} (h : parse k bs = .ok p) :
    p.kind = k := by
  cases k <;>
    · obtain ⟨q, -, rfl⟩ := map_eq_ok.mp h
      rfl

/-- A parameter that was read is within its limits. -/
theorem limited_of_parse {k : ParamKind} {bs : Bytes} {p : Param} (h : parse k bs = .ok p) :
    p.Limited := by
  cases k with
  | raw | amount | duration | network =>
    obtain ⟨q, hq, rfl⟩ := map_eq_ok.mp h
    exact ⟨by simpa [values] using Single.limited_of_parse hq, Nat.zero_le _, trivial⟩
  | nft =>
    obtain ⟨q, hq, rfl⟩ := map_eq_ok.mp h
    exact ⟨by simpa [values] using Nft.limited_of_parse hq, Nat.zero_le _, trivial⟩
  | datetime =>
    obtain ⟨q, hq, rfl⟩ := map_eq_ok.mp h
    exact ⟨by simpa [values] using Datetime.limited_of_parse hq, Nat.zero_le _, trivial⟩
  | enum =>
    obtain ⟨q, hq, rfl⟩ := map_eq_ok.mp h
    exact ⟨by simpa [values] using Choice.limited_of_parse hq, Nat.zero_le _, trivial⟩
  | calldata =>
    obtain ⟨q, hq, rfl⟩ := map_eq_ok.mp h
    have hlimited := NestedCall.limited_of_parse hq
    refine ⟨?_, Nat.zero_le _, trivial⟩
    simp only [values, List.mem_cons, List.mem_append, Option.mem_toList]
    rintro v (rfl | rfl | ((hv | hv) | hv) | hv)
    · exact hlimited.calldata
    · exact hlimited.callee
    · exact hlimited.chain v hv
    · exact hlimited.selector v hv
    · exact hlimited.amount v hv
    · exact hlimited.spender v hv
  | tokenAmount =>
    obtain ⟨q, hq, rfl⟩ := map_eq_ok.mp h
    have hlimited := TokenAmount.limited_of_parse hq
    refine ⟨?_, hlimited.native, hlimited.threshold, hlimited.message⟩
    simp only [values, List.mem_cons, Option.mem_toList]
    rintro v (rfl | hv)
    · exact hlimited.value
    · exact hlimited.token v hv
  | unit =>
    obtain ⟨q, hq, rfl⟩ := map_eq_ok.mp h
    have hlimited := Quantity.limited_of_parse hq
    exact ⟨by simpa [values] using hlimited.value, Nat.zero_le _, hlimited.symbol⟩
  | trustedName =>
    obtain ⟨q, hq, rfl⟩ := map_eq_ok.mp h
    have hlimited := NameQuery.limited_of_parse hq
    exact ⟨by simpa [values] using hlimited.value, hlimited.senders, hlimited.types,
      hlimited.sources⟩
  | token =>
    obtain ⟨q, hq, rfl⟩ := map_eq_ok.mp h
    have hlimited := Token.limited_of_parse hq
    exact ⟨by simpa [values] using hlimited.address, hlimited.native, trivial⟩

end Param

namespace Field

/-- The kind of the parameter was named once. -/
def KindNamed (k : ParamKind) (rs : List Record) : Prop :=
  ∃ front r between, rs = front ++ r :: between ∧ r.tag = 2 ∧ r.value = [k.code] ∧
    ∀ q ∈ front ++ between, q.tag ≠ 2

/-- The parameter was read once, and its kind was named in front of it. -/
def ParamRead (p : Param) (rs : List Record) : Prop :=
  ∃ front r behind, rs = front ++ r :: behind ∧ KindNamed p.kind front ∧ r.tag = 3 ∧
    Param.parse p.kind r.value = .ok p ∧ (∀ q ∈ front, q.tag ≠ 3) ∧
    ∀ q ∈ behind, q.tag ≠ 2 ∧ q.tag ≠ 3

theorem KindNamed.next {k : ParamKind} {rs : List Record} (h : KindNamed k rs) {r : Record}
    (hr : r.tag ≠ 2) : KindNamed k (rs ++ [r]) := by
  obtain ⟨front, q, between, rfl, htag, hvalue, hothers⟩ := h
  refine ⟨front, q, between ++ [r], by simp, htag, hvalue, ?_⟩
  rw [← List.append_assoc, List.forall_mem_append]
  exact ⟨hothers, by simpa using hr⟩

theorem KindNamed.mem {k : ParamKind} {rs : List Record} (h : KindNamed k rs) :
    2 ∈ rs.map Record.tag := by
  obtain ⟨front, q, between, rfl, htag, -, -⟩ := h
  exact List.mem_map.mpr ⟨q, by simp, htag⟩

theorem ParamRead.next {p : Param} {rs : List Record} (h : ParamRead p rs) {r : Record}
    (hr : r.tag ≠ 2 ∧ r.tag ≠ 3) : ParamRead p (rs ++ [r]) := by
  obtain ⟨front, q, behind, rfl, hkind, htag, hparse, hfront, hbehind⟩ := h
  refine ⟨front, q, behind ++ [r], by simp, hkind, htag, hparse, hfront, ?_⟩
  rw [List.forall_mem_append]
  exact ⟨hbehind, by simpa using hr⟩

theorem ParamRead.mem {p : Param} {rs : List Record} (h : ParamRead p rs) :
    2 ∈ rs.map Record.tag ∧ 3 ∈ rs.map Record.tag := by
  obtain ⟨front, q, behind, rfl, hkind, htag, -, -, -⟩ := h
  refine ⟨?_, List.mem_map.mpr ⟨q, by simp, htag⟩⟩
  rw [List.map_append]
  exact List.mem_append_left _ hkind.mem

theorem mem_tags_append {t : UInt8} {rs : List Record} {r : Record}
    (h : t ∈ rs.map Record.tag) : t ∈ (rs ++ [r]).map Record.tag := by
  rw [List.map_append]
  exact List.mem_append_left _ h

/-- What a draft says about the records behind it, and what it is held to. -/
structure Bounded (done : List Record) (d : Draft) : Prop where
  name : ∀ n ∈ d.name, n.utf8ByteSize ≤ maxName
  kind : ∀ k ∈ d.kind, KindNamed k done
  param : ∀ p ∈ d.param, ParamRead p done
  visibility : d.visibility.isSome = true → 4 ∈ done.map Record.tag
  constraints : d.constraints.length ≤ maxConstraints
  gated : d.constraints ≠ [] → d.visibility = some .mustBe ∨ d.visibility = some .ifNotIn

theorem Bounded.next {done : List Record} {r : Record} {d : Draft} (h : Bounded done d)
    (hr : r.tag ≠ 2 ∧ r.tag ≠ 3) : Bounded (done ++ [r]) d where
  name := h.name
  kind k hk := (h.kind k hk).next hr.1
  param p hp := (h.param p hp).next hr
  visibility hsome := mem_tags_append (h.visibility hsome)
  constraints := h.constraints
  gated := h.gated

theorem Bounded.withKind {done : List Record} {r : Record} {d : Draft} {k : ParamKind}
    (h : Bounded done d) (htag : r.tag = 2) (hvalue : r.value = [k.code])
    (hfresh : r.tag ∉ done.map Record.tag) :
    Bounded (done ++ [r]) { d with kind := some k } where
  name := h.name
  kind := by
    rintro k' ⟨⟩
    refine ⟨done, r, [], rfl, htag, hvalue, ?_⟩
    intro q hq hq2
    rw [List.append_nil] at hq
    exact hfresh (htag ▸ hq2 ▸ List.mem_map_of_mem hq)
  param p hp := absurd (h.param p hp).mem.1 (htag ▸ hfresh)
  visibility hsome := mem_tags_append (h.visibility hsome)
  constraints := h.constraints
  gated := h.gated

theorem Bounded.withParam {done : List Record} {r : Record} {d : Draft} {k : ParamKind} {p : Param}
    (h : Bounded done d) (htag : r.tag = 3) (hkind : d.kind = some k)
    (hparse : Param.parse k r.value = .ok p) (hfresh : r.tag ∉ done.map Record.tag) :
    Bounded (done ++ [r]) { d with param := some p } where
  name := h.name
  kind k hk := (h.kind k hk).next (by rw [htag]; decide)
  param := by
    rintro p' ⟨⟩
    obtain rfl := Param.kind_of_parse hparse
    refine ⟨done, r, [], rfl, h.kind _ hkind, htag, hparse, ?_, by simp⟩
    intro q hq hq3
    exact hfresh (htag ▸ hq3 ▸ List.mem_map_of_mem hq)
  visibility hsome := mem_tags_append (h.visibility hsome)
  constraints := h.constraints
  gated := h.gated

theorem code_of_ofCode {n : UInt8} {k : ParamKind} (h : ParamKind.ofCode n = .ok k) :
    k.code = n := by
  unfold ParamKind.ofCode at h
  split at h
  · rename_i hfound
    cases h
    simpa using List.find?_some hfound
  · cases h

/-- Each rule of a field keeps to the limits. -/
theorem Bounded.apply {done : List Record} {rule : Rule Draft} {r : Record} {d d' : Draft}
    (h : Bounded done d) (hmem : rule ∈ schema.rules) (htag : rule.tag = r.tag)
    (hfresh : rule.repeats = false → r.tag ∉ done.map Record.tag)
    (happly : rule.apply r d = .ok d') : Bounded (done ++ [r]) d' := by
  have hother (t : UInt8) (ht : t = r.tag) (hne : t ≠ 2 ∧ t ≠ 3) : r.tag ≠ 2 ∧ r.tag ≠ 3 := ht ▸ hne
  simp only [schema, Schema.ofRules, List.mem_cons, List.not_mem_nil, or_false] at hmem
  rcases hmem with rfl | rfl | rfl | rfl | rfl | rfl
  · obtain ⟨b, -, hd'⟩ := bind_eq_ok.mp happly
    cases hd'
    exact { h.next (hother 0 htag (by decide)) with }
  · cases happly
    refine { h.next (hother 1 htag (by decide)) with name := ?_ }
    rintro n ⟨⟩
    exact Utf8.utf8ByteSize_readable_le maxName r.value
  · obtain ⟨b, hb, hrest⟩ := bind_eq_ok.mp happly
    obtain ⟨k, hk, hd'⟩ := bind_eq_ok.mp hrest
    cases hd'
    have hvalue : r.value = [k.code] := by
      rw [code_of_ofCode hk]
      exact Record.value_of_asByte hb
    exact h.withKind htag.symm hvalue (hfresh rfl)
  · simp only [Rule.once, Draft.withParam] at happly
    split at happly
    · cases happly
    · rename_i k hkind
      obtain ⟨p, hp, hd'⟩ := bind_eq_ok.mp happly
      cases hd'
      exact h.withParam htag.symm hkind hp (hfresh rfl)
  · obtain ⟨b, -, hrest⟩ := bind_eq_ok.mp happly
    obtain ⟨v, -, hd'⟩ := bind_eq_ok.mp hrest
    cases hd'
    -- constraints come behind the visibility, and there is one at most
    have hnone : d.visibility.isSome ≠ true := fun hsome =>
      hfresh rfl (htag ▸ h.visibility hsome)
    refine { h.next (hother 4 htag (by decide)) with visibility := ?_, gated := ?_ }
    · intro _
      exact List.mem_map.mpr ⟨r, by simp, htag.symm⟩
    · intro hconstraints
      rcases h.gated hconstraints with hvisibility | hvisibility <;>
        exact absurd (by rw [hvisibility]; rfl) hnone
  · simp only [Rule.many, Draft.withConstraint] at happly
    split at happly
    · rename_i hvisibility
      split at happly
      · rename_i hroom
        cases happly
        refine { h.next (hother 5 htag (by decide)) with
          constraints := ?_, gated := fun _ => hvisibility }
        rw [List.length_append]
        exact hroom
      · cases happly
    · cases happly

/-- A field that was read is within the limits that are declared for it, at every depth. Its
version is the one that is known, its parameter is of the kind that was named in front of it, and
it has constraints only if its visibility makes use of them. -/
theorem accepted_within_limits {payload : Bytes} {field : Field} (h : parse payload = .ok field) :
    field.version = 1 ∧ field.name.toByteArray.IsValidUTF8 ∧ field.name.toByteArray.size ≤ 20 ∧
    field.constraints.length ≤ 16 ∧
    (field.constraints ≠ [] → field.visibility = .mustBe ∨ field.visibility = .ifNotIn) ∧
    ParamRead field.param (records payload).1 ∧ field.param.Limited := by
  obtain ⟨⟨d, tags⟩, hparse, hrest⟩ := bind_eq_ok.mp h
  obtain ⟨⟨⟩, -, hcomplete⟩ := bind_eq_ok.mp hrest
  have hbounded : Bounded (records payload).1 d := by
    refine Schema.parse_keeps hparse (by constructor <;> simp) ?_
    intro done r before mid after rule hdone hmem htag hfresh hcommon happly
    cases hcommon
    exact hdone.apply hmem htag hfresh happly
  by_cases hversion : d.version ≠ 1
  · simp only [if_pos hversion, bind_eq_ok, throw_ne_ok, false_and, exists_false] at hcomplete
  · simp only [if_neg hversion] at hcomplete
    split at hcomplete
    · rename_i name param hname hparam
      cases hcomplete
      have hread := hbounded.param param hparam
      obtain ⟨-, r, -, -, -, -, hr, -, -⟩ := id hread
      refine ⟨not_not.mp hversion, name.isValidUTF8, ?_, hbounded.constraints, ?_, hread,
        Param.limited_of_parse hr⟩
      · rw [String.size_toByteArray]
        exact hbounded.name name hname
      · intro hconstraints
        rcases hbounded.gated hconstraints with hvisibility | hvisibility <;> simp [hvisibility]
    · exact absurd hcomplete throw_ne_ok

/-- A field at its limits: a name that is cut, four addresses for the native currency, a threshold
of 32 bytes, a message of 20, a number of 32, and a constraint. -/
def brim : Bytes :=
  write 0 [1] ++ write 1 (List.replicate 21 97) ++ write 2 [2] ++ write 4 [1] ++ write 5 [7] ++
    write 3 (write 0 [1] ++
      write 1 (write 0 [1] ++ write 1 [1] ++ write 2 [32] ++ write 5 (List.replicate 32 1)) ++
      (List.replicate 4 (write 3 (List.replicate 20 238))).flatten ++
      write 4 (List.replicate 32 255) ++ write 5 (List.replicate 20 98))

theorem accepted_within_limits_brim : ∃ field, parse brim = .ok field ∧
    field.name.toByteArray.size ≤ 20 ∧ field.constraints.length ≤ 16 ∧ field.param.Limited := by
  obtain ⟨field, hfield⟩ := exists_of_toBool (by decide +kernel : (parse brim).toBool = true)
  obtain ⟨-, -, hname, hconstraints, -, -, hlimited⟩ := accepted_within_limits hfield
  exact ⟨field, hfield, hname, hconstraints, hlimited⟩

end Field

end ClearSign
