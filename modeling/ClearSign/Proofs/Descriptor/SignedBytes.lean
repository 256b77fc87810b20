import ClearSign.Descriptor.EnumLabel
import ClearSign.Descriptor.ProxyBinding
import ClearSign.Descriptor.TransactionInfo
import ClearSign.Proofs.Tlv.Acceptance

/-!
What a signature covers. A payload that is accepted is cut in one way at its only signature
record, the signature was verified over all other bytes, and those bytes alone decide what is
read: it does not matter where the signature stands, nor what it is.
-/

namespace ClearSign

open Tlv Refusal

/-- A transaction descriptor without its signature. -/
def TransactionInfo.bare (t : TransactionInfo) : TransactionInfo := { t with signature := [] }

namespace Envelope

/-- Whole records, none of them a signature. -/
def Unsigned (tag : UInt8) (bs : Bytes) : Prop :=
  ∃ rs : List Record, (∀ r ∈ rs, r.IsWhole ∧ r.tag ≠ tag) ∧ bs = rs.flatMap Record.raw

/-- A payload is cut at its one signature record. -/
structure Cut (tag : UInt8) (payload before : Bytes) (sig : Record) (behind : Bytes) : Prop where
  joined : payload = before ++ sig.raw ++ behind
  whole : sig.IsWhole
  tagged : sig.tag = tag
  before : Unsigned tag before
  behind : Unsigned tag behind

/-- The records of the payload are those of its three parts. -/
theorem Cut.records {tag : UInt8} {payload before behind : Bytes} {sig : Record}
    (h : Cut tag payload before sig behind) :
    ∃ rs rs', (records payload).1 = rs ++ sig :: rs' ∧ before = rs.flatMap Record.raw ∧
      behind = rs'.flatMap Record.raw ∧ sig.tag = tag ∧ (∀ r ∈ rs, r.tag ≠ tag) ∧
      (∀ r ∈ rs', r.tag ≠ tag) ∧ (records (before ++ behind)).1 = rs ++ rs' := by
  obtain ⟨rs, hrs, rfl⟩ := h.before
  obtain ⟨rs', hrs', rfl⟩ := h.behind
  refine ⟨rs, rs', ?_, rfl, rfl, h.tagged, fun r hr => (hrs r hr).2, fun r hr => (hrs' r hr).2, ?_⟩
  · have hall : ∀ r ∈ rs ++ sig :: rs', r.IsWhole := by
      intro r hr
      rcases List.mem_append.mp hr with hr | hr
      · exact (hrs r hr).1
      · rcases List.mem_cons.mp hr with rfl | hr
        · exact h.whole
        · exact (hrs' r hr).1
    have hjoined : payload = (rs ++ sig :: rs').flatMap Record.raw := by
      rw [h.joined, List.flatMap_append, List.flatMap_cons, List.append_assoc]
    rw [hjoined, records_flatMap hall]
  · have hall : ∀ r ∈ rs ++ rs', r.IsWhole := by
      intro r hr
      rcases List.mem_append.mp hr with hr | hr
      · exact (hrs r hr).1
      · exact (hrs' r hr).1
    rw [← List.flatMap_append, records_flatMap hall]

/-- A payload is cut in no more than one way. -/
theorem Cut.unique {tag : UInt8} {payload a b a' b' : Bytes} {s s' : Record}
    (h : Cut tag payload a s b) (h' : Cut tag payload a' s' b') : a' = a ∧ s' = s ∧ b' = b := by
  obtain ⟨rs, qs, hrecords, rfl, rfl, hs, hrs, -, -⟩ := h.records
  obtain ⟨rs', qs', hrecords', rfl, rfl, hs', hrs', -, -⟩ := h'.records
  -- the records before the first signature, and those from it on
  have split (rs qs : List Record) {s : Record} (hs : s.tag = tag) (hrs : ∀ r ∈ rs, r.tag ≠ tag) :
      (rs ++ s :: qs).takeWhile (·.tag != tag) = rs ∧
        (rs ++ s :: qs).dropWhile (·.tag != tag) = s :: qs := by
    have hrs : ∀ r ∈ rs, (r.tag != tag) = true := fun r hr => by simpa using hrs r hr
    constructor
    · rw [List.takeWhile_append_of_pos hrs, List.takeWhile_cons_of_neg (by simp [hs]),
        List.append_nil]
    · rw [List.dropWhile_append_of_pos hrs, List.dropWhile_cons_of_neg (by simp [hs])]
  have hsame : rs' ++ s' :: qs' = rs ++ s :: qs := hrecords'.symm.trans hrecords
  obtain ⟨hfront, hback⟩ := split rs qs hs hrs
  obtain ⟨hfront', hback'⟩ := split rs' qs' hs' hrs'
  rw [hsame] at hfront' hback'
  obtain rfl : rs' = rs := hfront'.symm.trans hfront
  obtain ⟨rfl, rfl⟩ := List.cons.inj (hback'.symm.trans hback)
  exact ⟨rfl, rfl, rfl⟩

section

variable {σ : Type} {tag : UInt8} {rules : List (Rule σ)} {blank : σ}

/-- What one record does to the content. -/
def refine (rules : List (Rule σ)) (content : σ) (r : Record) : Except Error σ :=
  match rules.find? (·.tag == r.tag) with
  | some rule => rule.apply r content
  | none => .error .unknownTag

/-- The content that bytes spell. -/
def contentOf (rules : List (Rule σ)) (blank : σ) (bs : Bytes) : Except Error σ :=
  (records bs).1.foldlM (refine rules) blank

theorem rule?_signature :
    (schema tag rules).rule? tag =
      some (.once tag fun r e => do
        return { e with signature := ← r.asBytes Signature.maxSize }) := by
  unfold Schema.rule? schema
  rw [List.find?_cons_of_pos]
  simp [Rule.once]

theorem rule?_content {t : UInt8} (ht : t ≠ tag) :
    (schema tag rules).rule? t = (rules.find? (·.tag == t)).map lift := by
  unfold Schema.rule? schema
  rw [List.find?_cons_of_neg, List.find?_map]
  · rfl
  · simpa [Rule.once] using Ne.symm ht

/-- What the records read so far have left in an envelope: the content and the signed bytes are
those of all records but the signature. -/
structure Filled (tag : UInt8) (rules : List (Rule σ)) (blank : σ) (rs : List Record)
    (e : Envelope σ) (tags : Tags) : Prop where
  tags : tags.list = (rs.map Record.tag).reverse
  content : (rs.filter (·.tag != tag)).foldlM (refine rules) blank = .ok e.content
  signed : e.signed = (rs.filter (·.tag != tag)).flatMap Record.raw
  sig : (∀ r ∈ rs, r.tag ≠ tag) ∨ ∃ before sig behind, rs = before ++ sig :: behind ∧
    sig.tag = tag ∧ (∀ r ∈ before, r.tag ≠ tag) ∧ (∀ r ∈ behind, r.tag ≠ tag) ∧
    e.signature = sig.value

theorem Filled.nil : Filled tag rules blank [] ⟨blank, [], []⟩ Tags.empty :=
  ⟨rfl, rfl, rfl, .inl (by simp)⟩

/-- The signature goes to its own place, and comes once. -/
theorem Filled.signature {rs : List Record} {e e' : Envelope σ} {tags tags' : Tags} {r : Record}
    (h : Filled tag rules blank rs e tags) (hr : r.tag = tag)
    (ha : (schema tag rules).accept (e, tags) r = .ok (e', tags')) :
    Filled tag rules blank (rs ++ [r]) e' tags' := by
  obtain ⟨rule, hrule, accepts⟩ := Schema.accepts_of_accept ha
  obtain ⟨target, hcommon, happly⟩ := accepts.applied
  obtain rfl : e = target := by simpa [schema, hr] using hcommon
  rw [hr, rule?_signature, Option.some.injEq] at hrule
  subst hrule
  have hnew : ∀ q ∈ rs, q.tag ≠ tag := by
    intro q hq heq
    have hfresh := accepts.fresh rfl
    rw [h.tags, List.mem_reverse, hr, ← heq] at hfresh
    exact hfresh (List.mem_map_of_mem hq)
  obtain ⟨signature, hvalue, happly⟩ := bind_eq_ok.mp happly
  have hsignature : r.value = signature := by
    unfold Record.asBytes at hvalue
    split at hvalue
    · exact Except.ok.inj hvalue
    · cases hvalue
  have hsame : (rs ++ [r]).filter (·.tag != tag) = rs.filter (·.tag != tag) := by
    simp [List.filter_append, hr]
  cases happly
  refine ⟨?_, ?_, ?_, .inr ⟨rs, r, [], rfl, hr, hnew, by simp, hsignature.symm⟩⟩
  · rw [accepts.tags, h.tags]
    simp
  · rw [hsame]
    exact h.content
  · rw [hsame]
    exact h.signed

/-- Any other record goes to the signed bytes and to the content. -/
theorem Filled.other {rs : List Record} {e e' : Envelope σ} {tags tags' : Tags} {r : Record}
    (h : Filled tag rules blank rs e tags) (hr : r.tag ≠ tag)
    (ha : (schema tag rules).accept (e, tags) r = .ok (e', tags')) :
    Filled tag rules blank (rs ++ [r]) e' tags' := by
  obtain ⟨rule, hrule, accepts⟩ := Schema.accepts_of_accept ha
  obtain ⟨target, hcommon, happly⟩ := accepts.applied
  rw [rule?_content hr, Option.map_eq_some_iff] at hrule
  obtain ⟨inner, hinner, rfl⟩ := hrule
  obtain rfl : { e with signed := e.signed ++ r.raw } = target := by
    simpa [schema, hr] using hcommon
  obtain ⟨content, hcontent, happly⟩ := bind_eq_ok.mp happly
  have hrefine : refine rules e.content r = .ok content := by
    unfold refine
    rw [hinner]
    exact hcontent
  have hmore : (rs ++ [r]).filter (·.tag != tag) = rs.filter (·.tag != tag) ++ [r] := by
    simp [List.filter_append, hr]
  cases happly
  refine ⟨?_, ?_, ?_, ?_⟩
  · rw [accepts.tags, h.tags]
    simp
  · rw [hmore, List.foldlM_append, h.content]
    simp [bind, Except.bind, hrefine, pure, Except.pure]
  · rw [hmore, List.flatMap_append]
    simp [h.signed]
  · rcases h.sig with hnone | ⟨before, sig, behind, rfl, hsig, hbefore, hbehind, hvalue⟩
    · exact .inl (List.forall_mem_append.mpr ⟨hnone, by simpa using hr⟩)
    · exact .inr ⟨before, sig, behind ++ [r], by simp, hsig, hbefore,
        List.forall_mem_append.mpr ⟨hbehind, by simpa using hr⟩, hvalue⟩

/-- The records of a payload that is taken fill the envelope. -/
theorem filled_of_parse {payload : Bytes} {e : Envelope σ} {tags : Tags}
    (h : (records payload).1.foldlM (schema tag rules).accept (⟨blank, [], []⟩, Tags.empty) =
      .ok (e, tags)) : Filled tag rules blank (records payload).1 e tags := by
  refine foldlM_keeps (I := fun rs (p : Envelope σ × Tags) => Filled tag rules blank rs p.1 p.2)
    ?_ _ Filled.nil h
  rintro done r ⟨e, tags⟩ ⟨e', tags'⟩ hdone haccept
  by_cases hr : r.tag = tag
  · exact hdone.signature hr haccept
  · exact hdone.other hr haccept

/-- Records around a signature cut the bytes that they spell, and the others are signed. -/
theorem Filled.cut {payload : Bytes} {e : Envelope σ} {tags : Tags}
    (h : Filled tag rules blank (records payload).1 e tags)
    (hpayload : payload = (records payload).1.flatMap Record.raw) (hmem : tag ∈ tags.list) :
    ∃ a s b, Cut tag payload a s b ∧ e.signed = a ++ b ∧ e.signature = s.value ∧
      contentOf rules blank (a ++ b) = .ok e.content := by
  have hwhole := (records_spec payload).1
  rcases h.sig with hnone | ⟨before, sig, behind, hrs, hsig, hbefore, hbehind, hvalue⟩
  · rw [h.tags, List.mem_reverse] at hmem
    obtain ⟨r, hr, htag⟩ := List.mem_map.mp hmem
    exact absurd htag (hnone r hr)
  · rw [hrs] at hwhole hpayload
    obtain ⟨hbefore', hrest⟩ := List.forall_mem_append.mp hwhole
    obtain ⟨hsig', hbehind'⟩ := List.forall_mem_cons.mp hrest
    have hothers : (records payload).1.filter (·.tag != tag) = before ++ behind := by
      rw [hrs, List.filter_append, List.filter_cons_of_neg (by simp [hsig]),
        List.filter_eq_self.mpr fun r hr => by simpa using hbefore r hr,
        List.filter_eq_self.mpr fun r hr => by simpa using hbehind r hr]
    refine ⟨before.flatMap Record.raw, sig, behind.flatMap Record.raw,
      ⟨?_, hsig', hsig, ⟨before, ?_, rfl⟩, ⟨behind, ?_, rfl⟩⟩, ?_, hvalue, ?_⟩
    · rw [hpayload, List.flatMap_append, List.flatMap_cons, List.append_assoc]
    · exact fun r hr => ⟨hbefore' r hr, hbefore r hr⟩
    · exact fun r hr => ⟨hbehind' r hr, hbehind r hr⟩
    · rw [h.signed, hothers, List.flatMap_append]
    · unfold contentOf
      rw [← List.flatMap_append, records_flatMap (List.forall_mem_append.mpr ⟨hbefore', hbehind'⟩),
        ← hothers]
      exact h.content

/-- An envelope that must hold a signature is cut at it. The signature was verified over the other
bytes, and they spell the content. -/
theorem cut_of_parse {complete : σ → Tags → Except Error Unit} {usage : KeyUsage}
    {verifier : Verifier} {payload : Bytes} {e : Envelope σ}
    (hcomplete : ∀ content tags, complete content tags = .ok () → tag ∈ tags.list)
    (h : parse tag rules blank complete usage verifier payload = .ok e) :
    ∃ a s b, Cut tag payload a s b ∧ verifier usage (Sha256.digest (a ++ b)) s.value = true ∧
      e.signature = s.value ∧ contentOf rules blank (a ++ b) = .ok e.content := by
  unfold parse at h
  obtain ⟨⟨e', tags⟩, hparse, h⟩ := bind_eq_ok.mp h
  obtain ⟨⟨⟩, hrequired, h⟩ := bind_eq_ok.mp h
  obtain ⟨hpayload, htaken⟩ := Schema.records_of_parse hparse
  obtain ⟨a, s, b, hcut, hsigned, hsignature, hcontent⟩ :=
    (filled_of_parse htaken).cut hpayload (hcomplete _ _ hrequired)
  by_cases hverified : verifier usage (Sha256.digest e'.signed) e'.signature = true
  · rw [if_pos hverified] at h
    cases h
    exact ⟨a, s, b, hcut, by rwa [← hsigned, ← hsignature], hsignature, hcontent⟩
  · rw [if_neg hverified] at h
    exact absurd h throw_ne_ok

end

/-- A reader of signed descriptors. What it accepts is cut in one way at the signature, which was
verified for one use over all other bytes; and payloads with the same other bytes read the same,
`bare` of the signature. -/
structure ReadsSigned {δ : Type} (tag : UInt8) (usage : KeyUsage) (verifier : Verifier)
    (bare : δ → δ) (read : Bytes → Except Error δ) : Prop where
  verified : ∀ payload d, read payload = .ok d → ∃ a s b, Cut tag payload a s b ∧
    (∀ a' s' b', Cut tag payload a' s' b' → a' = a ∧ s' = s ∧ b' = b) ∧
    verifier usage (Sha256.digest (a ++ b)) s.value = true
  determined : ∀ payload payload' d d' a s b a' s' b', read payload = .ok d →
    read payload' = .ok d' → Cut tag payload a s b → Cut tag payload' a' s' b' →
    a' ++ b' = a ++ b → bare d' = bare d

/-- An envelope that must hold its signature makes such a reader. -/
theorem readsSigned {σ : Type} {tag : UInt8} (rules : List (Rule σ)) (blank : σ)
    (complete : σ → Tags → Except Error Unit) {usage : KeyUsage} {verifier : Verifier}
    {bare : σ → σ} {read : Bytes → Except Error σ}
    (hcomplete : ∀ content tags, complete content tags = .ok () → tag ∈ tags.list)
    (hread : ∀ payload d, read payload = .ok d → ∃ e,
      parse tag rules blank complete usage verifier payload = .ok e ∧ bare d = bare e.content) :
    ReadsSigned tag usage verifier bare read := by
  constructor
  · intro payload d hd
    obtain ⟨e, hparse, -⟩ := hread payload d hd
    obtain ⟨a, s, b, hcut, hverified, -, -⟩ := cut_of_parse hcomplete hparse
    exact ⟨a, s, b, hcut, fun a' s' b' => hcut.unique, hverified⟩
  · intro payload payload' d d' a s b a' s' b' hd hd' hcut hcut' hsame
    obtain ⟨e, hparse, hbare⟩ := hread payload d hd
    obtain ⟨e', hparse', hbare'⟩ := hread payload' d' hd'
    obtain ⟨a₁, s₁, b₁, hcut₁, -, -, hcontent⟩ := cut_of_parse hcomplete hparse
    obtain ⟨a₁', s₁', b₁', hcut₁', -, -, hcontent'⟩ := cut_of_parse hcomplete hparse'
    obtain ⟨rfl, rfl, rfl⟩ := hcut.unique hcut₁
    obtain ⟨rfl, rfl, rfl⟩ := hcut'.unique hcut₁'
    rw [hsame, hcontent] at hcontent'
    rw [hbare, hbare', Except.ok.inj hcontent']

end Envelope

theorem TransactionInfo.required_of_complete {t : TransactionInfo} {tags : Tags}
    (h : t.complete tags = .ok ()) : TransactionInfo.signatureTag ∈ tags.list := by
  obtain ⟨-, -, h⟩ := bind_eq_ok.mp h
  split at h
  · exact Tags.mem_of_require h _ (by decide)
  · exact absurd h throw_ne_ok

/-- The signature of a transaction descriptor was verified with a key for calldata. -/
theorem TransactionInfo.verified_of_parse {check : SelectorCheck} {verifier : Verifier}
    {payload : Bytes} {info : TransactionInfo}
    (h : TransactionInfo.parse check verifier payload = .ok info) :
    ∃ a s b, Envelope.Cut TransactionInfo.signatureTag payload a s b ∧
      verifier .calldata (Sha256.digest (a ++ b)) info.signature = true := by
  obtain ⟨e, hparse, h⟩ := bind_eq_ok.mp h
  obtain ⟨a, s, b, hcut, hverified, hsignature, -⟩ :=
    Envelope.cut_of_parse (fun _ _ => TransactionInfo.required_of_complete) hparse
  cases h
  exact ⟨a, s, b, hcut, by rwa [hsignature]⟩

/-- The signed bytes decide what is read of each kind of descriptor: of transactions and of labels
with keys for calldata, of bindings with keys for trusted names. -/
theorem signed_bytes_decide (verifier : Verifier) :
    (∀ check, Envelope.ReadsSigned TransactionInfo.signatureTag .calldata verifier
      TransactionInfo.bare (TransactionInfo.parse check verifier)) ∧
    Envelope.ReadsSigned EnumLabel.signatureTag .calldata verifier id (EnumLabel.parse verifier) ∧
    ∀ challenge, Envelope.ReadsSigned ProxyBinding.signatureTag .trustedName verifier id
      (ProxyBinding.parse challenge verifier) := by
  refine ⟨?_, ?_, ?_⟩
  · intro check
    refine Envelope.readsSigned (TransactionInfo.rules check) TransactionInfo.blank
      TransactionInfo.complete ?_ ?_
    · exact fun _ _ => TransactionInfo.required_of_complete
    · intro payload d h
      obtain ⟨e, hparse, h⟩ := bind_eq_ok.mp h
      cases h
      exact ⟨e, hparse, rfl⟩
  · refine Envelope.readsSigned EnumLabel.rules EnumLabel.blank
      (fun _ tags => tags.require EnumLabel.required) ?_ ?_
    · exact fun _ _ h => Tags.mem_of_require h _ (by decide)
    · intro payload d h
      obtain ⟨e, hparse, h⟩ := bind_eq_ok.mp h
      cases h
      exact ⟨e, hparse, rfl⟩
  · intro challenge
    refine Envelope.readsSigned (ProxyBinding.rules challenge) ProxyBinding.blank
      (fun _ tags => tags.require ProxyBinding.required) ?_ ?_
    · exact fun _ _ h => Tags.mem_of_require h _ (by decide)
    · intro payload d h
      obtain ⟨e, hparse, h⟩ := bind_eq_ok.mp h
      cases h
      exact ⟨e, hparse, rfl⟩

/-- Wherever the signature stands, and whatever it is, the same transaction is read. -/
example :
    let records := write 0 [1] ++ write 1 [1] ++ write 2 [7] ++ write 3 [1, 2, 3, 4] ++
      write 4 [] ++ write 5 [97]
    let read := TransactionInfo.parse .deferred fun _ _ _ => true
    (read (records ++ write 0xff [7])).toOption.map TransactionInfo.bare =
        (read (write 0xff [] ++ records)).toOption.map TransactionInfo.bare ∧
      (read (records ++ write 0xff [7])).toBool = true := by
  decide +kernel

end ClearSign
