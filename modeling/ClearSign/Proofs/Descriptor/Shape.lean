import ClearSign.Proofs.Descriptor.SignedBytes
import ClearSign.Proofs.Tlv.Shape

/-!
What a signed descriptor looks like: for each of the three kinds a table of its tags and of what
stands under them. A payload is accepted just if its records fit the table, none is missing that is
required, and the signature over all others is valid for the use of the kind.
-/

namespace ClearSign

open Tlv Refusal Shape

namespace Envelope

section

variable {σ : Type} {tag : UInt8} {rules : List (Rule σ)} {blank : σ} {shapes : List Shape}
  {usage : KeyUsage} {verifier : Verifier} {payload : Bytes}

/-- The shape of the signature. -/
def signatureShape (tag : UInt8) : Shape := ⟨tag, atMost Signature.maxSize⟩

theorem takes_lift {rule : Rule σ} {shape : Shape} (h : rule.Takes shape) :
    (lift rule).Takes shape :=
  ⟨h.tag, h.once, fun r e => (toBool_bind_pure (rule.apply r e.content) _).trans
    (h.fits r e.content)⟩

/-- The table of an envelope is that of its content, and the signature. -/
theorem tabled_schema (h : List.Forall₂ Rule.Takes rules shapes) :
    (schema tag rules).Tabled (signatureShape tag :: shapes) := by
  refine ⟨fun _ _ => rfl, .cons ?_ ?_⟩
  · exact takes_of_read (Record.toBool_asBytes Signature.maxSize)
  · exact List.forall₂_map_left_iff.mpr (h.imp fun _ _ => takes_lift)

/-- The tags of a payload, the last one first. -/
def tagsOf (payload : Bytes) : Tags := ⟨((records payload).1.map Record.tag).reverse⟩

theorem Filled.tagsOf {e : Envelope σ} {tags : Tags}
    (h : Filled tag rules blank (records payload).1 e tags) : tags = tagsOf payload := by
  cases tags
  exact congrArg Tags.mk h.tags

/-- Bytes are the envelope of a content just if they are well formed by the table, and the content
that the bytes around the signature spell is complete and signed. -/
theorem parse_iff {complete : σ → Tags → Except Error Unit} {content : σ}
    (htabled : List.Forall₂ Rule.Takes rules shapes)
    (hcomplete : ∀ content tags, complete content tags = .ok () → tag ∈ tags.list) :
    (∃ e, parse tag rules blank complete usage verifier payload = .ok e ∧ e.content = content) ↔
      WellFormed (signatureShape tag :: shapes) payload ∧
      complete content (tagsOf payload) = .ok () ∧
      ∃ a s b, Cut tag payload a s b ∧ verifier usage (Sha256.digest (a ++ b)) s.value = true ∧
        contentOf rules blank (a ++ b) = .ok content := by
  constructor
  · rintro ⟨e, h, rfl⟩
    obtain ⟨a, s, b, hcut, hverified, -, hcontent⟩ := cut_of_parse hcomplete h
    unfold parse at h
    obtain ⟨⟨e', tags⟩, hparse, hrest⟩ := bind_eq_ok.mp h
    obtain ⟨⟨⟩, hrequired, hpassed⟩ := bind_eq_ok.mp hrest
    have hfilled := filled_of_parse (Schema.records_of_parse hparse).2
    obtain rfl : tags = tagsOf payload := hfilled.tagsOf
    by_cases hsigned : verifier usage (Sha256.digest e'.signed) e'.signature = true
    · rw [if_pos hsigned] at hpassed
      cases hpassed
      exact ⟨((tabled_schema htabled).parse_iff _ _).mp ⟨_, hparse⟩, hrequired, a, s, b, hcut,
        hverified, hcontent⟩
    · rw [if_neg hsigned] at hpassed
      exact absurd hpassed throw_ne_ok
  · rintro ⟨hformed, hrequired, a, s, b, hcut, hverified, hcontent⟩
    obtain ⟨⟨e, tags⟩, hparse⟩ := ((tabled_schema htabled).parse_iff ⟨blank, [], []⟩ _).mpr hformed
    obtain ⟨hpayload, htaken⟩ := Schema.records_of_parse hparse
    have hfilled := filled_of_parse htaken
    obtain rfl : tags = tagsOf payload := hfilled.tagsOf
    obtain ⟨a', s', b', hcut', hsigned, hsignature, hcontent'⟩ :=
      hfilled.cut hpayload (hcomplete _ _ hrequired)
    obtain ⟨rfl, rfl, rfl⟩ := hcut.unique hcut'
    obtain rfl : content = e.content := Except.ok.inj (hcontent.symm.trans hcontent')
    refine ⟨e, ?_, rfl⟩
    simp [parse, hparse, hrequired, hsigned, hsignature, hverified, bind, Except.bind, pure,
      Except.pure]

/-- Well-formed bytes around a signature spell a content. -/
theorem exists_content (htabled : List.Forall₂ Rule.Takes rules shapes) {a b : Bytes} {s : Record}
    (hformed : WellFormed (signatureShape tag :: shapes) payload) (hcut : Cut tag payload a s b) :
    ∃ content, contentOf rules blank (a ++ b) = .ok content := by
  obtain ⟨⟨e, tags⟩, hparse⟩ := ((tabled_schema htabled).parse_iff ⟨blank, [], []⟩ _).mpr hformed
  obtain ⟨hpayload, htaken⟩ := Schema.records_of_parse hparse
  have hfilled := filled_of_parse htaken
  have hsig : tag ∈ tags.list := by
    obtain ⟨rs, rs', hrecords, -, -, hs, -⟩ := hcut.records
    rw [hfilled.tags, List.mem_reverse, hrecords, ← hs]
    exact List.mem_map_of_mem (by simp)
  obtain ⟨a', s', b', hcut', -, -, hcontent⟩ := hfilled.cut hpayload hsig
  obtain ⟨rfl, rfl, rfl⟩ := hcut.unique hcut'
  exact ⟨e.content, hcontent⟩

/-- A payload of records that fit a table, none missing that is required, with a valid signature
over all others. -/
structure IsSigned (tag : UInt8) (shapes : List Shape) (required : List UInt8) (usage : KeyUsage)
    (verifier : Verifier) (payload : Bytes) : Prop where
  formed : WellFormed (signatureShape tag :: shapes) payload
  present : ∀ t ∈ required, t ∈ (records payload).1.map Record.tag
  verified : ∃ a s b, Cut tag payload a s b ∧ verifier usage (Sha256.digest (a ++ b)) s.value = true

theorem require_tagsOf {required : List UInt8} : (tagsOf payload).require required = .ok () ↔
    ∀ t ∈ required, t ∈ (records payload).1.map Record.tag := by
  simp [Tags.require, Tags.containsAll, Tags.contains, tagsOf]

/-- Where only tags are asked for, bytes are an envelope just if they are signed. -/
theorem isSigned_iff {required : List UInt8} (htabled : List.Forall₂ Rule.Takes rules shapes)
    (hmem : tag ∈ required) :
    (∃ e, parse tag rules blank (fun _ tags => tags.require required) usage verifier payload =
      .ok e) ↔ IsSigned tag shapes required usage verifier payload := by
  have hcomplete : ∀ (_ : σ) (tags : Tags), tags.require required = .ok () → tag ∈ tags.list :=
    fun _ _ h => Tags.mem_of_require h _ hmem
  constructor
  · rintro ⟨e, h⟩
    obtain ⟨hformed, hrequired, a, s, b, hcut, hverified, -⟩ :=
      (parse_iff htabled hcomplete).mp ⟨e, h, rfl⟩
    exact ⟨hformed, require_tagsOf.mp hrequired, a, s, b, hcut, hverified⟩
  · rintro ⟨hformed, hpresent, a, s, b, hcut, hverified⟩
    obtain ⟨content, hcontent⟩ := exists_content htabled hformed hcut
    obtain ⟨e, h, -⟩ := (parse_iff htabled hcomplete).mpr
      ⟨hformed, require_tagsOf.mpr hpresent, a, s, b, hcut, hverified, hcontent⟩
    exact ⟨e, h⟩

theorem rule_of_refine {content content' : σ} {r : Record}
    (h : refine rules content r = .ok content') :
    ∃ rule ∈ rules, rule.tag = r.tag ∧ rule.apply r content = .ok content' := by
  unfold refine at h
  split at h
  · rename_i rule hrule
    exact ⟨rule, List.mem_of_find?_eq_some hrule, by simpa using List.find?_some hrule, h⟩
  · cases h

end

end Envelope

namespace TransactionInfo

/-- What may stand under each tag but the signature. -/
def shapes (check : SelectorCheck) : List Shape :=
  [⟨0x00, exactly 1⟩, ⟨0x01, atMost 8⟩, ⟨0x02, atMost 20⟩,
   ⟨0x03, fun value => atMost 4 value && (check.check (Fixed.align 4 value)).toBool⟩,
   ⟨0x04, atMost 32⟩, ⟨0x05, anything⟩, ⟨0x06, anything⟩, ⟨0x07, anything⟩, ⟨0x08, anything⟩,
   ⟨0x09, anything⟩, ⟨0x0a, atMost 4⟩]

theorem takes_selector (check : SelectorCheck) :
    (Rule.once 0x03 fun r (t : TransactionInfo) => do
      let selector ← r.asFixed 4
      check.check selector
      return { t with selector := selector }).Takes
    ⟨0x03, fun value => atMost 4 value && (check.check (Fixed.align 4 value)).toBool⟩ := by
  refine ⟨rfl, rfl, fun r t => ?_⟩
  show (r.asFixed 4 >>= fun selector => check.check selector >>= fun _ =>
    pure { t with selector := selector }).toBool =
      (atMost 4 r.value && (check.check (Fixed.align 4 r.value)).toBool)
  unfold Record.asFixed atMost
  by_cases hfits : r.value.length ≤ 4
  · rw [if_pos hfits, decide_eq_true hfits, Bool.true_and]
    exact toBool_bind_pure (check.check (Fixed.align 4 r.value)) _
  · rw [if_neg hfits]
    simp [hfits, bind, Except.bind, Except.toBool]

theorem takes (check : SelectorCheck) : List.Forall₂ Rule.Takes (rules check) (shapes check) :=
  .cons (takes_of_read Record.toBool_asByte) <|
  .cons (takes_of_read Record.toBool_asUInt64) <|
  .cons (takes_of_read (Record.toBool_asFixed 20)) <|
  .cons (takes_selector check) <|
  .cons (takes_of_read (Record.toBool_asFixed 32)) <|
  .cons takes_of_ok <| .cons takes_of_ok <| .cons takes_of_ok <|
  .cons takes_of_ok <| .cons takes_of_ok <|
  .cons (takes_of_read Record.toBool_asUInt32) .nil

end TransactionInfo

namespace EnumLabel

/-- What may stand under each tag but the signature. -/
def shapes : List Shape :=
  [⟨0x00, isByte 1⟩, ⟨0x01, atMost 8⟩, ⟨0x02, atMost 20⟩, ⟨0x03, atMost 4⟩, ⟨0x04, exactly 1⟩,
   ⟨0x05, exactly 1⟩, ⟨0x06, isName maxName⟩]

theorem takes : List.Forall₂ Rule.Takes rules shapes :=
  .cons (takes_of_check (Record.any_asByte 1)) <|
  .cons (takes_of_read Record.toBool_asUInt64) <|
  .cons (takes_of_read (Record.toBool_asFixed 20)) <|
  .cons (takes_of_read (Record.toBool_asFixed 4)) <|
  .cons (takes_of_read Record.toBool_asByte) <|
  .cons (takes_of_read Record.toBool_asByte) <|
  .cons (takes_of_read (Record.toBool_asName maxName)) .nil

end EnumLabel

namespace ProxyBinding

/-- What may stand under each tag but the signature, in answer to a challenge. -/
def shapes (challenge : UInt32) : List Shape :=
  [⟨0x01, isByte structureType⟩, ⟨0x02, isByte 1⟩, ⟨0x12, isNumber 4 challenge⟩,
   ⟨0x22, atMost 20⟩, ⟨0x23, atMost 8⟩, ⟨0x41, atMost 4⟩, ⟨0x42, atMost 20⟩,
   ⟨0x43, fun value => decide (value ∈ [[0], [1], [2]])⟩]

theorem toBool_delegation (r : Record) :
    (r.asByte >>= Delegation.ofCode).toBool = decide (r.value ∈ [[0], [1], [2]]) := by
  unfold Record.asByte
  match r.value with
  | [] | _ :: _ :: _ => simp [bind, Except.bind, Except.toBool]
  | [b] =>
    show (Delegation.ofCode b).toBool = _
    unfold Delegation.ofCode
    split <;> simp_all [Except.toBool]

theorem takes_delegation :
    (Rule.once 0x43 fun r (b : ProxyBinding) => do
      return { b with delegation := ← Delegation.ofCode (← r.asByte) }).Takes
    ⟨0x43, fun value => decide (value ∈ [[0], [1], [2]])⟩ := by
  refine ⟨rfl, rfl, fun r b => Eq.trans ?_ (toBool_delegation r)⟩
  show (r.asByte >>= fun code => Delegation.ofCode code >>= fun v =>
    pure { b with delegation := v }).toBool = _
  cases r.asByte with
  | error e => rfl
  | ok code => exact toBool_bind_pure (Delegation.ofCode code) _

theorem takes (challenge : UInt32) :
    List.Forall₂ Rule.Takes (rules challenge) (shapes challenge) :=
  .cons (takes_of_check (Record.any_asByte structureType)) <|
  .cons (takes_of_check (Record.any_asByte 1)) <|
  .cons (takes_of_check (Record.any_asUInt32 challenge)) <|
  .cons (takes_of_read (Record.toBool_asFixed 20)) <|
  .cons (takes_of_read Record.toBool_asUInt64) <|
  .cons (takes_of_read (Record.toBool_asFixed 4)) <|
  .cons (takes_of_read (Record.toBool_asFixed 20)) <|
  .cons takes_delegation .nil

end ProxyBinding

end ClearSign
