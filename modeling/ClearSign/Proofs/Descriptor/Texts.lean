import ClearSign.Descriptor.TransactionInfo
import ClearSign.Field.Basic
import ClearSign.Proofs.Text.Truncation
import ClearSign.Proofs.Tlv.Guard

/-!
The texts of descriptors: the name of a field, what an operation is called, and who made it. Each is
what the bytes of a record read as, safely cut, and so within its limit.
-/

namespace ClearSign

open Tlv Refusal

theorem Tlv.Record.utf8ByteSize_asText_le (max : Nat) (r : Record) :
    (r.asText max).utf8ByteSize ≤ max := Utf8.utf8ByteSize_readable_le max r.value

namespace Field

/-- The name of a draft, once it has one, is within its limit. -/
def NameFits (d : Draft) : Prop := ∀ name ∈ d.name, name.utf8ByteSize ≤ maxName

theorem keeps_nameFits : ∀ rule ∈ schema.rules, rule.Keeps NameFits := by
  simp only [schema, Schema.ofRules, List.forall_mem_cons, List.not_mem_nil, false_imp_iff,
    implies_true, and_true]
  refine ⟨Rule.keeps_read fun _ _ h => h, Rule.keeps_set ?_, Rule.keeps_decode fun _ _ h => h, ?_,
    Rule.keeps_decode fun _ _ h => h, ?_⟩
  · rintro d r - name ⟨⟩
    exact r.utf8ByteSize_asText_le maxName
  · intro r d d' hd happly
    simp only [Rule.once, Draft.withParam] at happly
    split at happly
    · cases happly
    · obtain ⟨p, -, hd'⟩ := bind_eq_ok.mp happly
      cases hd'
      exact hd
  · intro r d d' hd happly
    simp only [Rule.many, Draft.withConstraint] at happly
    split at happly
    · split at happly
      · cases happly
        exact hd
      · cases happly
    · cases happly

theorem utf8ByteSize_name_le {payload : Bytes} {field : Field} (h : parse payload = .ok field) :
    field.name.utf8ByteSize ≤ maxName := by
  obtain ⟨⟨d, tags⟩, hparse, hrest⟩ := bind_eq_ok.mp h
  obtain ⟨⟨⟩, -, hcomplete⟩ := bind_eq_ok.mp hrest
  have hfits : NameFits d := Schema.parse_preserves hparse (by rintro name ⟨⟩) keeps_nameFits
  by_cases hversion : d.version ≠ 1
  · simp only [if_pos hversion, bind_eq_ok, throw_ne_ok, false_and, exists_false] at hcomplete
  · simp only [if_neg hversion] at hcomplete
    split at hcomplete
    · rename_i name param hname hparam
      cases hcomplete
      exact hfits name hname
    · exact absurd hcomplete throw_ne_ok

end Field

/-- What the rules of its content keep holds of an envelope that was opened. -/
theorem Envelope.parse_preserves {σ : Type} {I : σ → Prop} {tag : UInt8} {rules : List (Rule σ)}
    {blank : σ} {complete : σ → Tags → Except Error Unit} {usage : KeyUsage} {verifier : Verifier}
    {payload : Bytes} {e : Envelope σ}
    (h : parse tag rules blank complete usage verifier payload = .ok e) (first : I blank)
    (each : ∀ rule ∈ rules, rule.Keeps I) : I e.content := by
  obtain ⟨⟨made, tags⟩, hparse, hrest⟩ := bind_eq_ok.mp h
  obtain ⟨⟨⟩, -, hverified⟩ := bind_eq_ok.mp hrest
  have hmade : I made.content := by
    refine Schema.parse_keeps (I := fun _ e => I e.content) hparse first ?_
    intro _ r before mid after rule hbefore hmem _ _ hcommon happly
    have hmid : mid.content = before.content := by
      cases hcommon
      split <;> rfl
    rw [← hmid] at hbefore
    rcases List.mem_cons.mp hmem with rfl | hmem
    · obtain ⟨signature, -, hafter⟩ := bind_eq_ok.mp happly
      cases hafter
      exact hbefore
    · obtain ⟨rule, hrule, rfl⟩ := List.mem_map.mp hmem
      obtain ⟨content, hcontent, hafter⟩ := bind_eq_ok.mp happly
      cases hafter
      exact each rule hrule r _ _ hbefore hcontent
  split at hverified
  · cases hverified
    exact hmade
  · exact absurd hverified throw_ne_ok

namespace TransactionInfo

/-- The texts of a descriptor are within their limits, in bytes. -/
structure TextsFit (t : TransactionInfo) : Prop where
  operation : t.operation.utf8ByteSize ≤ 30
  creatorName : ∀ text ∈ t.creatorName, text.utf8ByteSize ≤ 22
  creatorLegalName : ∀ text ∈ t.creatorLegalName, text.utf8ByteSize ≤ 30
  creatorUrl : ∀ text ∈ t.creatorUrl, text.utf8ByteSize ≤ 26
  contractName : ∀ text ∈ t.contractName, text.utf8ByteSize ≤ 30

theorem textsFit_blank : blank.TextsFit := by
  constructor
  · exact Nat.zero_le 30
  all_goals rintro text ⟨⟩

theorem keeps_textsFit (check : SelectorCheck) : ∀ rule ∈ rules check, rule.Keeps TextsFit := by
  have hsome (max : Nat) (r : Record) :
      ∀ text ∈ some (r.asText max), text.utf8ByteSize ≤ max := by
    rintro text ⟨⟩
    exact r.utf8ByteSize_asText_le max
  simp only [rules, List.forall_mem_cons, List.not_mem_nil, false_imp_iff, implies_true, and_true]
  refine ⟨Rule.keeps_read fun _ _ h => { h with }, Rule.keeps_read fun _ _ h => { h with },
    Rule.keeps_read fun _ _ h => { h with }, ?_, Rule.keeps_read fun _ _ h => { h with },
    Rule.keeps_set fun _ r h => { h with operation := r.utf8ByteSize_asText_le 30 },
    Rule.keeps_set fun _ r h => { h with creatorName := hsome 22 r },
    Rule.keeps_set fun _ r h => { h with creatorLegalName := hsome 30 r },
    Rule.keeps_set fun _ r h => { h with creatorUrl := hsome 26 r },
    Rule.keeps_set fun _ r h => { h with contractName := hsome 30 r },
    Rule.keeps_read fun _ _ h => { h with }⟩
  intro r before after hbefore happly
  obtain ⟨selector, -, hchecked⟩ := bind_eq_ok.mp happly
  obtain ⟨-, -, hafter⟩ := bind_eq_ok.mp hchecked
  cases hafter
  exact { hbefore with }

theorem textsFit_of_parse {check : SelectorCheck} {verifier : Verifier} {payload : Bytes}
    {info : TransactionInfo} (h : parse check verifier payload = .ok info) : info.TextsFit := by
  obtain ⟨e, hparse, hinfo⟩ := bind_eq_ok.mp h
  have hfits := Envelope.parse_preserves hparse textsFit_blank (keeps_textsFit check)
  cases hinfo
  exact { hfits with }

end TransactionInfo

/-- What bytes read as is cut safely to any limit, and so no text of a field or of a descriptor of a
call is over its own. -/
theorem texts_safely_cut :
    (∀ max bs, Utf8.SafelyCut max bs (Utf8.readable max bs)) ∧
    (∀ payload field, Field.parse payload = .ok field → field.name.utf8ByteSize ≤ 20) ∧
    ∀ check verifier payload info,
      TransactionInfo.parse check verifier payload = .ok info → info.TextsFit := by
  refine ⟨Utf8.safelyCut_readable, ?_, ?_⟩
  · intro payload field hparse
    exact Field.utf8ByteSize_name_le hparse
  · intro check verifier payload info hparse
    exact TransactionInfo.textsFit_of_parse hparse

/-- A descriptor with an operation of 31 bytes, the last two of them one character. -/
def sampleOperation : Bytes :=
  write 0 [1] ++ write 1 [1] ++ write 2 [7] ++ write 3 [1, 2, 3, 4] ++ write 4 [] ++
    write 5 (List.replicate 29 97 ++ [0xc3, 0xa9]) ++ write 0xff [7]

theorem texts_safely_cut_operation : ∃ info,
    TransactionInfo.parse .deferred (fun _ _ _ => true) sampleOperation = .ok info ∧
      info.operation.utf8ByteSize ≤ 30 := by
  obtain ⟨info, hinfo⟩ := exists_of_toBool (by decide +kernel :
    (TransactionInfo.parse .deferred (fun _ _ _ => true) sampleOperation).toBool = true)
  exact ⟨info, hinfo, (texts_safely_cut.2.2 _ _ _ info hinfo).operation⟩

end ClearSign
