import ClearSign.Proofs.Descriptor.Shape

/-!
As which kinds of descriptors one payload can be read. Bindings keep apart: they need a tag that
the other two kinds do not know. Labels do not: they share the use of the key with the descriptors
of calls, and each of their records stands under a tag of such a descriptor that takes shorter
values for longer ones. What is signed as a label is a descriptor of a call as well, with the number
of the enumeration as the digest of its fields.
-/

namespace ClearSign

open Tlv Refusal Shape Envelope

namespace Tlv.Shape

theorem exists_of_admits {shapes : List Shape} {r : Record} (h : admits shapes r = true) :
    ∃ shape ∈ shapes, shape.tag = r.tag ∧ shape.fits r.value = true := by
  obtain ⟨shape, hshape, hfits⟩ := (Option.any_eq_true _ _).mp h
  exact ⟨shape, List.mem_of_find?_eq_some hshape, by simpa using List.find?_some hshape, hfits⟩

/-- Well-formed bytes are so by any table that admits as much. -/
theorem WellFormed.mono {shapes shapes' : List Shape} {bs : Bytes} (h : WellFormed shapes bs)
    (hshapes : ∀ r ∈ (records bs).1, admits shapes r = true → admits shapes' r = true) :
    WellFormed shapes' bs :=
  ⟨h.whole, h.distinct, fun r hr => hshapes r hr (h.admitted r hr)⟩

end Tlv.Shape

namespace TransactionInfo

variable {check : SelectorCheck} {verifier : Verifier} {payload : Bytes}

/-- A record says the version if its tag is the first, and else leaves it. -/
theorem version_of_refine {t t' : TransactionInfo} {r : Record}
    (h : refine (rules check) t r = .ok t') :
    (r.tag = 0x00 ∧ r.value = [t'.version]) ∨ (r.tag ≠ 0x00 ∧ t'.version = t.version) := by
  obtain ⟨rule, hmem, htag, happly⟩ := rule_of_refine h
  rw [← htag]
  simp only [rules, List.mem_cons, List.not_mem_nil, or_false] at hmem
  rcases hmem with rfl | rfl | rfl | rfl | rfl | rfl | rfl | rfl | rfl | rfl | rfl
  case inl =>
    obtain ⟨v, hv, happly⟩ := bind_eq_ok.mp happly
    cases happly
    exact .inl ⟨rfl, Record.value_of_asByte hv⟩
  all_goals
    refine .inr ⟨by simp [Rule.once], ?_⟩
    simp only [Rule.once, bind_eq_ok, pure_eq_ok, Except.ok.injEq] at happly
  case inr.inr.inr.inl =>
    obtain ⟨_, -, _, -, rfl⟩ := happly
    rfl
  all_goals first
    | obtain rfl := happly
      rfl
    | obtain ⟨_, -, rfl⟩ := happly
      rfl

/-- The content has the version of the one record that says it. -/
theorem version_of_contentOf {bs : Bytes} {t : TransactionInfo} {r : Record}
    (h : contentOf (rules check) blank bs = .ok t)
    (hdistinct : ((records bs).1.map Record.tag).Nodup) (hr : r ∈ (records bs).1)
    (htag : r.tag = 0x00) : r.value = [t.version] := by
  refine foldlM_keeps (I := fun done (t : TransactionInfo) => (done.map Record.tag).Nodup →
      ∀ r ∈ done, r.tag = 0x00 → r.value = [t.version]) ?_ _ (by simp) h hdistinct r hr htag
  intro done r t t' ih hrefine hdistinct q hq hq0
  rw [List.map_append, List.nodup_append] at hdistinct
  rcases List.mem_append.mp hq with hq | hq
  · cases version_of_refine hrefine with
    | inl hsays =>
      have hne := hdistinct.2.2 q.tag (List.mem_map_of_mem hq) r.tag (by simp)
      exact absurd (hq0.trans hsays.1.symm) hne
    | inr hleaves => rw [hleaves.2, ih hdistinct.1 q hq hq0]
  · obtain rfl := List.mem_singleton.mp hq
    cases version_of_refine hrefine with
    | inl hsays => exact hsays.2
    | inr hleaves => exact absurd hq0 hleaves.1

theorem complete_eq_ok {t : TransactionInfo} {tags : Tags} :
    t.complete tags = .ok () ↔ tags.require (0x00 :: required) = .ok () ∧ t.version = 1 := by
  unfold complete Tags.require Tags.containsAll
  by_cases hfirst : tags.contains 0x00 = true <;> by_cases hversion : t.version = 1 <;>
    simp [hfirst, hversion, bind, Except.bind, throw, throwThe, MonadExceptOf.throw]

/-- The records of a descriptor of a call, of the first version. -/
structure IsSigned (check : SelectorCheck) (verifier : Verifier) (payload : Bytes) : Prop where
  signed : Envelope.IsSigned signatureTag (shapes check) (0x00 :: required) .calldata verifier
    payload
  version : ∀ r ∈ (records payload).1, r.tag = 0x00 → r.value = [1]

theorem mem_of_complete (t : TransactionInfo) (tags : Tags) (h : complete t tags = .ok ()) :
    signatureTag ∈ tags.list :=
  Tags.mem_of_require (complete_eq_ok.mp h).1 _ (by decide)

/-- The record of the version is among those that the signature covers. -/
theorem version_of_cut {a b : Bytes} {s r : Record} {t : TransactionInfo}
    (hdistinct : ((records payload).1.map Record.tag).Nodup)
    (hcut : Cut signatureTag payload a s b) (h : contentOf (rules check) blank (a ++ b) = .ok t)
    (hr : r ∈ (records payload).1) (htag : r.tag = 0x00) : r.value = [t.version] := by
  obtain ⟨rs, rs', hrecords, -, -, hs, -, -, hrest⟩ := hcut.records
  rw [hrecords] at hdistinct hr
  have hsub : (rs ++ rs').Sublist (rs ++ s :: rs') :=
    (List.Sublist.refl rs).append (List.sublist_cons_self s rs')
  refine version_of_contentOf h ?_ ?_ htag
  · rw [hrest]
    exact (hsub.map Record.tag).nodup hdistinct
  · rw [hrest]
    rcases List.mem_append.mp hr with hr | hr
    · exact List.mem_append_left _ hr
    · rcases List.mem_cons.mp hr with rfl | hr
      · exact absurd (hs.symm.trans htag) (by decide)
      · exact List.mem_append_right _ hr

/-- A descriptor of a call is signed, and of the first version. -/
theorem isSigned_of_parse {info : TransactionInfo} (h : parse check verifier payload = .ok info) :
    IsSigned check verifier payload := by
  obtain ⟨e, hparse, -⟩ := bind_eq_ok.mp h
  obtain ⟨hformed, hcomplete, a, s, b, hcut, hverified, hcontent⟩ :=
    (Envelope.parse_iff (takes check) mem_of_complete).mp ⟨e, hparse, rfl⟩
  obtain ⟨hrequired, hversion⟩ := complete_eq_ok.mp hcomplete
  refine ⟨⟨hformed, require_tagsOf.mp hrequired, a, s, b, hcut, hverified⟩, ?_⟩
  intro r hr htag
  rw [version_of_cut hformed.distinct hcut hcontent hr htag, hversion]

/-- What is signed, and of the first version, is read as the content that it spells. -/
theorem parse_of_isSigned {a b : Bytes} {s : Record} {t : TransactionInfo}
    (h : IsSigned check verifier payload) (hcut : Cut signatureTag payload a s b)
    (ht : contentOf (rules check) blank (a ++ b) = .ok t) :
    t.version = 1 ∧
      ∃ signature, parse check verifier payload = .ok { t with signature := signature } := by
  obtain ⟨⟨hformed, hpresent, a', s', b', hcut', hverified⟩, hversion⟩ := h
  obtain ⟨rfl, rfl, rfl⟩ := hcut.unique hcut'
  have hone : t.version = 1 := by
    obtain ⟨r, hr, htag⟩ := List.mem_map.mp (hpresent 0x00 List.mem_cons_self)
    have hvalue := version_of_cut hformed.distinct hcut ht hr htag
    rw [hversion r hr htag] at hvalue
    exact (List.cons.inj hvalue).1.symm
  obtain ⟨e, hparse, rfl⟩ := (Envelope.parse_iff (takes check) mem_of_complete).mpr
    ⟨hformed, complete_eq_ok.mpr ⟨require_tagsOf.mpr hpresent, hone⟩, a', s', b', hcut, hverified,
      ht⟩
  exact ⟨hone, e.signature, bind_eq_ok.mpr ⟨e, hparse, rfl⟩⟩

theorem isSigned_iff :
    (∃ info, parse check verifier payload = .ok info) ↔ IsSigned check verifier payload := by
  constructor
  · rintro ⟨info, h⟩
    exact isSigned_of_parse h
  · intro h
    obtain ⟨a, s, b, hcut, -⟩ := h.signed.verified
    obtain ⟨t, ht⟩ := exists_content (takes check) h.signed.formed hcut
    obtain ⟨-, signature, hparse⟩ := parse_of_isSigned h hcut ht
    exact ⟨_, hparse⟩

end TransactionInfo

namespace EnumLabel

variable {verifier : Verifier} {payload : Bytes}

/-- The records of a payload fit a label, and one of them is the name. -/
structure HasRecords (payload : Bytes) : Prop where
  admitted : ∀ r ∈ (records payload).1, admits (signatureShape signatureTag :: shapes) r = true
  named : 0x06 ∈ (records payload).1.map Record.tag

theorem isSigned_iff : (∃ l, parse verifier payload = .ok l) ↔
    Envelope.IsSigned signatureTag shapes required .calldata verifier payload := by
  rw [← Envelope.isSigned_iff takes (by decide)]
  constructor
  · rintro ⟨l, h⟩
    obtain ⟨e, hparse, -⟩ := bind_eq_ok.mp h
    exact ⟨e, hparse⟩
  · rintro ⟨e, hparse⟩
    exact ⟨e.content, bind_eq_ok.mpr ⟨e, hparse, rfl⟩⟩

/-- A record of a label could stand in a descriptor of a call. -/
theorem admits_info {r : Record} (h : admits (signatureShape signatureTag :: shapes) r = true) :
    admits (signatureShape TransactionInfo.signatureTag :: TransactionInfo.shapes .deferred) r =
      true := by
  obtain ⟨shape, hmem, htag, hfits⟩ := exists_of_admits h
  unfold admits
  rw [← htag]
  simp only [shapes, List.mem_cons, List.not_mem_nil, or_false] at hmem
  rcases hmem with rfl | rfl | rfl | rfl | rfl | rfl | rfl | rfl
  · exact hfits
  · have hone : r.value = [1] := by simpa [isByte] using hfits
    rw [hone]
    rfl
  · exact hfits
  · exact hfits
  · show (atMost 4 r.value && true) = true
    rw [Bool.and_true]
    exact hfits
  · have hone : r.value.length = 1 := by simpa [exactly] using hfits
    show atMost 32 r.value = true
    simp [atMost, hone]
  · rfl
  · rfl

/-- A label must have the tags that a descriptor of a call must have, and the name. -/
theorem mem_required {t : UInt8} :
    t ∈ required ↔ t ∈ 0x00 :: TransactionInfo.required ∨ t = 0x06 := by
  simp only [required, TransactionInfo.required, signatureTag, TransactionInfo.signatureTag,
    List.mem_cons, List.not_mem_nil, or_false]
  grind

/-- The records of a label are those of a descriptor of a call, if they fit a label and one of them
is the name. -/
theorem isSigned_iff_info :
    Envelope.IsSigned signatureTag shapes required .calldata verifier payload ↔
    TransactionInfo.IsSigned .deferred verifier payload ∧ HasRecords payload := by
  constructor
  · intro h
    refine ⟨⟨⟨h.formed.mono fun r _ => admits_info, ?_, h.verified⟩, ?_⟩, h.formed.admitted, ?_⟩
    · intro t ht
      exact h.present t (mem_required.mpr (.inl ht))
    · intro r hr htag
      exact of_decide_eq_true (h.formed.fits_under hr htag)
    · exact h.present 0x06 (mem_required.mpr (.inr rfl))
  · rintro ⟨⟨h, -⟩, hadmitted, hname⟩
    refine ⟨⟨h.formed.whole, h.formed.distinct, hadmitted⟩, ?_, h.verified⟩
    intro t ht
    rcases mem_required.mp ht with hinfo | rfl
    · exact h.present t hinfo
    · exact hname

end EnumLabel

/-- A descriptor of a call that says what a label says, its digest of fields being the number of
the enumeration. -/
structure TransactionInfo.Echoes (t : TransactionInfo) (l : EnumLabel) : Prop where
  chain : t.chain = l.chain
  contract : t.contract = l.contract
  selector : t.selector = l.selector
  fieldsHash : t.fieldsHash = Fixed.align 32 [l.id]

namespace TransactionInfo.Echoes

theorem blank : TransactionInfo.blank.Echoes EnumLabel.blank := ⟨rfl, rfl, rfl, by decide⟩

/-- A record that a label takes does the same to a descriptor of a call. -/
theorem refine {t : TransactionInfo} {l l' : EnumLabel} {r : Record} (h : t.Echoes l)
    (hr : Envelope.refine EnumLabel.rules l r = .ok l') :
    ∃ t', Envelope.refine (rules .deferred) t r = .ok t' ∧ t'.Echoes l' := by
  obtain ⟨rule, hmem, htag, happly⟩ := rule_of_refine hr
  unfold Envelope.refine
  rw [← htag]
  obtain ⟨hchain, hcontract, hselector, hhash⟩ := h
  simp only [EnumLabel.rules, List.mem_cons, List.not_mem_nil, or_false] at hmem
  rcases hmem with rfl | rfl | rfl | rfl | rfl | rfl | rfl
  · obtain ⟨v, hv, happly⟩ := bind_eq_ok.mp happly
    by_cases hone : v = 1
    · rw [if_pos hone] at happly
      cases happly
      exact ⟨{ t with version := v }, bind_eq_ok.mpr ⟨v, hv, rfl⟩, hchain, hcontract, hselector,
        hhash⟩
    · rw [if_neg hone] at happly
      exact absurd happly throw_ne_ok
  · obtain ⟨v, hv, happly⟩ := bind_eq_ok.mp happly
    cases happly
    exact ⟨{ t with chain := v }, bind_eq_ok.mpr ⟨v, hv, rfl⟩, rfl, hcontract, hselector, hhash⟩
  · obtain ⟨v, hv, happly⟩ := bind_eq_ok.mp happly
    cases happly
    exact ⟨{ t with contract := v }, bind_eq_ok.mpr ⟨v, hv, rfl⟩, hchain, rfl, hselector, hhash⟩
  · obtain ⟨v, hv, happly⟩ := bind_eq_ok.mp happly
    cases happly
    exact ⟨{ t with selector := v }, bind_eq_ok.mpr ⟨v, hv, rfl⟩, hchain, hcontract, rfl, hhash⟩
  · obtain ⟨v, hv, happly⟩ := bind_eq_ok.mp happly
    cases happly
    have hfixed : r.asFixed 32 = .ok (Fixed.align 32 [v]) := by
      unfold Record.asFixed
      rw [Record.value_of_asByte hv]
      rfl
    exact ⟨{ t with fieldsHash := Fixed.align 32 [v] }, bind_eq_ok.mpr ⟨_, hfixed, rfl⟩, hchain,
      hcontract, hselector, rfl⟩
  · obtain ⟨v, hv, happly⟩ := bind_eq_ok.mp happly
    cases happly
    exact ⟨{ t with operation := r.asText 30 }, rfl, hchain, hcontract, hselector, hhash⟩
  · obtain ⟨v, hv, happly⟩ := bind_eq_ok.mp happly
    cases happly
    exact ⟨{ t with creatorName := some (r.asText 22) }, rfl, hchain, hcontract, hselector, hhash⟩

/-- What a label is spelled by spells a descriptor of a call that says the same. -/
theorem contentOf {l : EnumLabel} {bs : Bytes}
    (h : Envelope.contentOf EnumLabel.rules EnumLabel.blank bs = .ok l) :
    ∃ t, Envelope.contentOf (rules .deferred) TransactionInfo.blank bs = .ok t ∧ t.Echoes l := by
  refine foldlM_keeps (I := fun done l => ∃ t, done.foldlM (Envelope.refine (rules .deferred))
      TransactionInfo.blank = .ok t ∧ t.Echoes l) ?_ _ ⟨_, rfl, blank⟩ h
  rintro done r l l' ⟨t, ht, hechoes⟩ hr
  obtain ⟨t', hr', hechoes'⟩ := hechoes.refine hr
  refine ⟨t', ?_, hechoes'⟩
  rw [List.foldlM_append, ht]
  simp [bind, Except.bind, hr', pure, Except.pure]

end TransactionInfo.Echoes

section

variable (verifier : Verifier) (challenge : UInt32) (payload : Bytes)

def IsInfo (check : SelectorCheck) : Prop :=
  ∃ info, TransactionInfo.parse check verifier payload = .ok info

def IsLabel : Prop := ∃ l, EnumLabel.parse verifier payload = .ok l

def IsBinding : Prop := ∃ b, ProxyBinding.parse challenge verifier payload = .ok b

/-- A payload is read as at most one of the three kinds of descriptors. -/
def OfOneKind : Prop :=
  ¬ (IsInfo verifier payload .deferred ∧ IsLabel verifier payload) ∧
    ¬ (IsInfo verifier payload .deferred ∧ IsBinding verifier challenge payload) ∧
    ¬ (IsLabel verifier payload ∧ IsBinding verifier challenge payload)

variable {verifier challenge payload}

theorem IsBinding.isSigned (h : IsBinding verifier challenge payload) :
    Envelope.IsSigned ProxyBinding.signatureTag (ProxyBinding.shapes challenge)
      ProxyBinding.required .trustedName verifier payload := by
  obtain ⟨b, h⟩ := h
  obtain ⟨e, hparse, -⟩ := bind_eq_ok.mp h
  exact (Envelope.isSigned_iff (ProxyBinding.takes challenge) (by decide)).mp ⟨e, hparse⟩

/-- The challenge stands under a tag that descriptors of calls do not have. -/
theorem IsBinding.not_isInfo (h : IsBinding verifier challenge payload) (check : SelectorCheck) :
    ¬ IsInfo verifier payload check := by
  rintro ⟨info, hinfo⟩
  obtain ⟨r, hr, htag⟩ := List.mem_map.mp (h.isSigned.present 0x12 (by decide))
  cases (TransactionInfo.isSigned_of_parse hinfo).signed.formed.fits_under hr htag

theorem IsLabel.isInfo (h : IsLabel verifier payload) : IsInfo verifier payload .deferred :=
  TransactionInfo.isSigned_iff.mpr (EnumLabel.isSigned_iff_info.mp (EnumLabel.isSigned_iff.mp h)).1

variable (verifier challenge payload)

/-- A payload is of one kind just if it is no label. No binding is a descriptor of a call or a
label. A label is a descriptor of a call whose records fit a label, and read as one it says what the
label says, with the number of the enumeration as the digest of its fields. -/
theorem ofOneKind_iff :
    (OfOneKind verifier challenge payload ↔ ¬ IsLabel verifier payload) ∧
    (IsBinding verifier challenge payload →
      (∀ check, ¬ IsInfo verifier payload check) ∧ ¬ IsLabel verifier payload) ∧
    (IsLabel verifier payload ↔
      IsInfo verifier payload .deferred ∧ EnumLabel.HasRecords payload) ∧
    ∀ l, EnumLabel.parse verifier payload = .ok l →
      ∃ info, TransactionInfo.parse .deferred verifier payload = .ok info ∧ info.version = 1 ∧
        info.Echoes l := by
  have hbinding : IsBinding verifier challenge payload →
      (∀ check, ¬ IsInfo verifier payload check) ∧ ¬ IsLabel verifier payload :=
    fun h => ⟨h.not_isInfo, fun hlabel => h.not_isInfo .deferred hlabel.isInfo⟩
  refine ⟨⟨fun h hlabel => h.1 ⟨hlabel.isInfo, hlabel⟩, ?_⟩, hbinding, ?_, ?_⟩
  · intro hlabel
    exact ⟨fun h => hlabel h.2, fun h => (hbinding h.2).1 _ h.1, fun h => hlabel h.1⟩
  · unfold IsLabel IsInfo
    rw [EnumLabel.isSigned_iff, EnumLabel.isSigned_iff_info, TransactionInfo.isSigned_iff]
  · intro l hl
    obtain ⟨e, hparse, hcontent⟩ := bind_eq_ok.mp hl
    obtain ⟨a, s, b, hcut, -, -, hcontentOf⟩ := Envelope.cut_of_parse
      (fun _ _ h => Tags.mem_of_require h _ (by decide)) hparse
    obtain rfl : e.content = l := Except.ok.inj hcontent
    obtain ⟨t, ht, hechoes⟩ := TransactionInfo.Echoes.contentOf hcontentOf
    have hsigned := TransactionInfo.isSigned_iff.mp (IsLabel.isInfo ⟨_, hl⟩)
    obtain ⟨hversion, signature, hinfo⟩ := TransactionInfo.parse_of_isSigned hsigned hcut ht
    exact ⟨_, hinfo, hversion, hechoes.chain, hechoes.contract, hechoes.selector,
      hechoes.fieldsHash⟩

/-- A label of the value 2 of an enumeration, signed with a key for calldata, is a descriptor of a
call. -/
theorem not_ofOneKind :
    ¬ ∀ verifier challenge payload, OfOneKind verifier challenge payload := by
  intro h
  let verifier : Verifier := fun usage _ _ => usage == .calldata
  let payload := write 0x00 [1] ++ write 0x01 [1] ++ write 0x02 [7] ++ write 0x03 [1, 2, 3, 4] ++
    write 0x04 [5] ++ write 0x05 [2] ++ write 0x06 [98] ++ write 0xff [9]
  have hinfo : (TransactionInfo.parse .deferred verifier payload).toBool = true := by
    decide +kernel
  have hlabel : (EnumLabel.parse verifier payload).toBool = true := by decide +kernel
  exact (h verifier 0 payload).1 ⟨exists_of_toBool hinfo, exists_of_toBool hlabel⟩

end

end ClearSign
