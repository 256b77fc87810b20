import ClearSign.Proofs.Tlv.Acceptance
import Mathlib.Data.List.Induction
import Mathlib.Data.List.Nodup

/-!
The guard of a schema, apart from its rules. A record is let through by its tag and by the tags
that came before it; what the rules make of records that were let through is a fold that knows of
no guard. Where records are not all taken, the first that is not is objected to for one reason.
-/

namespace ClearSign.Tlv

open Refusal

/-- A call of a handler: of the step that is common to all records, or of the rule of a tag. -/
inductive Handling
  | common (r : Record)
  | rule (r : Record)
  deriving DecidableEq

namespace Handling

/-- A record that is taken was handled twice. -/
def both (r : Record) : List Handling := [common r, rule r]

end Handling

/-- The tags of records, the last one first. -/
def Tags.ofRecords (rs : List Record) : Tags := ⟨(rs.map Record.tag).reverse⟩

/-- What held of a structure under construction holds when the rule has taken a record. -/
def Rule.Keeps {σ : Type} (I : σ → Prop) (rule : Rule σ) : Prop :=
  ∀ r before after, I before → rule.apply r before = .ok after → I after

namespace Rule

variable {σ α β : Type} {I : σ → Prop} {tag : UInt8}

/-- A rule that puts what it reads off a record into the structure. -/
theorem keeps_read {read : Record → Except Error α} {set : σ → α → σ}
    (h : ∀ s a, I s → I (set s a)) : (once tag fun r s => do return set s (← read r)).Keeps I := by
  intro r before after hbefore happly
  obtain ⟨a, -, hafter⟩ := bind_eq_ok.mp happly
  cases hafter
  exact h before a hbefore

/-- A rule that puts what a reading stands for into the structure. -/
theorem keeps_decode {read : Record → Except Error α} {decode : α → Except Error β}
    {set : σ → β → σ} (h : ∀ s b, I s → I (set s b)) :
    (once tag fun r s => do return set s (← decode (← read r))).Keeps I := by
  intro r before after hbefore happly
  obtain ⟨a, -, hdecode⟩ := bind_eq_ok.mp happly
  obtain ⟨b, -, hafter⟩ := bind_eq_ok.mp hdecode
  cases hafter
  exact h before b hbefore

/-- A rule that takes every record. -/
theorem keeps_set {set : σ → Record → σ} (h : ∀ s r, I s → I (set s r)) :
    (once tag fun r s => .ok (set s r)).Keeps I := by
  intro r before after hbefore happly
  cases happly
  exact h before r hbefore

end Rule

namespace Schema

variable {σ : Type} {S : Schema σ}

/-- The common step on a record, then the rule of its tag. -/
def handle (S : Schema σ) (target : σ) (r : Record) : Except Error σ := do
  let target ← S.common r target
  match S.rule? r.tag with
  | some rule => rule.apply r target
  | none => return target

/-- A record is let through behind others: its tag has a rule, and is new unless the rule
repeats. -/
def Admits (S : Schema σ) (done : List Record) (r : Record) : Prop :=
  ∃ rule, S.rule? r.tag = some rule ∧ (rule.repeats = false → r.tag ∉ done.map Record.tag)

/-- Records of known tags, no two of one tag unless its rule repeats. -/
structure Guarded (S : Schema σ) (rs : List Record) : Prop where
  declared : ∀ r ∈ rs, (S.rule? r.tag).isSome = true
  once : ((rs.map Record.tag).filter S.isOnce).Nodup

/-- What is wrong with a record behind others, and which handlers were called on it before that
was found. The tag is looked at first, then whether it came before, and only then is the record
handled. -/
inductive Objects (S : Schema σ) (done : List Record) (target : σ) (r : Record) :
    List Handling → Error → Prop
  | unknown : S.rule? r.tag = none → Objects S done target r [] .unknownTag
  | duplicate {rule : Rule σ} : S.rule? r.tag = some rule → rule.repeats = false →
    r.tag ∈ done.map Record.tag → Objects S done target r [] .duplicateTag
  | common {e : Error} : S.Admits done r → S.common r target = .error e →
    Objects S done target r [.common r] e
  | rule {rule : Rule σ} {mid : σ} {e : Error} : S.Admits done r → S.common r target = .ok mid →
    S.rule? r.tag = some rule → rule.apply r mid = .error e →
    Objects S done target r (Handling.both r) e

theorem guarded_nil : S.Guarded [] := ⟨by simp, List.nodup_nil⟩

theorem guarded_concat {done : List Record} {r : Record} :
    S.Guarded (done ++ [r]) ↔ S.Guarded done ∧ S.Admits done r := by
  have honce {rule : Rule σ} (hrule : S.rule? r.tag = some rule) :
      S.isOnce r.tag = true ↔ rule.repeats = false := by
    simp [isOnce, hrule]
  constructor
  · rintro ⟨hdeclared, hnodup⟩
    obtain ⟨rule, hrule⟩ := Option.isSome_iff_exists.mp (hdeclared r (by simp))
    rw [List.map_append, List.filter_append, List.nodup_append] at hnodup
    refine ⟨⟨fun q hq => hdeclared q (List.mem_append_left _ hq), hnodup.1⟩, rule, hrule, ?_⟩
    intro hrepeats hmem
    have hkept := (honce hrule).mpr hrepeats
    exact hnodup.2.2 r.tag (List.mem_filter.mpr ⟨hmem, hkept⟩) r.tag (by simp [hkept]) rfl
  · rintro ⟨⟨hdeclared, hnodup⟩, rule, hrule, hfresh⟩
    refine ⟨?_, ?_⟩
    · intro q hq
      rcases List.mem_append.mp hq with hq | hq
      · exact hdeclared q hq
      · rw [List.mem_singleton.mp hq, hrule]
        rfl
    · rw [List.map_append, List.filter_append, List.nodup_append]
      refine ⟨hnodup, (List.nodup_singleton r.tag).filter _, ?_⟩
      intro t ht t' ht' heq
      subst heq
      obtain ⟨hmem, hkept⟩ := List.mem_filter.mp ht
      obtain rfl : t = r.tag := by simpa using (List.mem_filter.mp ht').1
      exact hfresh ((honce hrule).mp hkept) hmem

/-- A record is let through and handled, or objected to. -/
theorem handled_or_objects (S : Schema σ) (done : List Record) (target : σ) (r : Record) :
    (S.Admits done r ∧ ∃ made, S.handle target r = .ok made) ∨
      ∃ calls e, S.Objects done target r calls e := by
  cases hrule : S.rule? r.tag with
  | none => exact .inr ⟨[], _, .unknown hrule⟩
  | some rule =>
    by_cases hdup : rule.repeats = false ∧ r.tag ∈ done.map Record.tag
    · exact .inr ⟨[], _, .duplicate hrule hdup.1 hdup.2⟩
    · have hadmits : S.Admits done r := ⟨rule, hrule, not_and.mp hdup⟩
      cases hcommon : S.common r target with
      | error e => exact .inr ⟨_, e, .common hadmits hcommon⟩
      | ok mid =>
        cases happly : rule.apply r mid with
        | error e => exact .inr ⟨_, e, .rule hadmits hcommon hrule happly⟩
        | ok made =>
          refine .inl ⟨hadmits, made, ?_⟩
          simp [handle, hcommon, hrule, happly, bind, Except.bind]

/-- Records are all let through and handled, or one of them is the first that is objected to. -/
theorem taken_or_stopped (S : Schema σ) (initial : σ) (rs : List Record) :
    (S.Guarded rs ∧ ∃ target, rs.foldlM S.handle initial = .ok target) ∨
      ∃ done r more target calls e, rs = done ++ r :: more ∧ S.Guarded done ∧
        done.foldlM S.handle initial = .ok target ∧ S.Objects done target r calls e := by
  -- on the last record, since what stops the records in front of it stops all of them
  induction rs using List.reverseRecOn with
  | nil => exact .inl ⟨guarded_nil, initial, rfl⟩
  | append_singleton rs r ih =>
    rcases ih with ⟨hguarded, target, hfold⟩ |
      ⟨done, q, more, target, calls, e, rfl, hguarded, hfold, hobjects⟩
    · rcases S.handled_or_objects rs target r with ⟨hadmits, made, hmade⟩ | ⟨calls, e, hobjects⟩
      · refine .inl ⟨guarded_concat.mpr ⟨hguarded, hadmits⟩, made, ?_⟩
        rw [List.foldlM_append, hfold]
        exact bind_eq_ok.mpr ⟨target, rfl, bind_eq_ok.mpr ⟨made, hmade, rfl⟩⟩
      · exact .inr ⟨rs, r, [], target, calls, e, rfl, hguarded, hfold, hobjects⟩
    · exact .inr ⟨done, q, more ++ [r], target, calls, e, by simp, hguarded, hfold, hobjects⟩

/-- No record that is let through is seen as a duplicate. -/
theorem Admits.fresh {done : List Record} {r : Record} (h : S.Admits done r) {rule : Rule σ}
    (hrule : S.rule? r.tag = some rule) :
    (!rule.repeats && (Tags.ofRecords done).contains r.tag) = false := by
  obtain ⟨rule', hrule', hfresh⟩ := h
  obtain rfl : rule = rule' := Option.some.inj (hrule.symm.trans hrule')
  cases hrepeats : rule.repeats with
  | true => rfl
  | false => simpa [Tags.contains, Tags.ofRecords] using hfresh hrepeats

theorem accept_admitted {done : List Record} {target made : σ} {r : Record}
    (hadmits : S.Admits done r) (hmade : S.handle target r = .ok made) :
    S.accept (target, Tags.ofRecords done) r = .ok (made, Tags.ofRecords (done ++ [r])) := by
  obtain ⟨rule, hrule, -⟩ := id hadmits
  have hgrown : (Tags.ofRecords done).insert r.tag = Tags.ofRecords (done ++ [r]) := by
    simp [Tags.ofRecords, Tags.insert]
  unfold handle at hmade
  obtain ⟨mid, hcommon, happly⟩ := bind_eq_ok.mp hmade
  simp only [hrule] at happly
  simp [accept, hrule, hadmits.fresh hrule, hcommon, happly, hgrown, bind, Except.bind, pure,
    Except.pure]

theorem accept_objects {done : List Record} {target : σ} {r : Record} {calls : List Handling}
    {e : Error} (h : S.Objects done target r calls e) :
    S.accept (target, Tags.ofRecords done) r = .error e := by
  cases h with
  | unknown hrule =>
    simp only [accept, hrule]
    rfl
  | @duplicate rule hrule hrepeats hmem =>
    have hold : (!rule.repeats && (Tags.ofRecords done).contains r.tag) = true := by
      simpa [hrepeats, Tags.contains, Tags.ofRecords] using hmem
    simp only [accept, hrule, hold]
    rfl
  | common hadmits hcommon =>
    obtain ⟨rule, hrule, -⟩ := id hadmits
    simp [accept, hrule, hadmits.fresh hrule, hcommon, bind, Except.bind]
  | rule hadmits hcommon hrule happly =>
    simp [accept, hrule, hadmits.fresh hrule, hcommon, happly, bind, Except.bind]

/-- Records that are let through are taken as the fold handles them. -/
theorem foldlM_accept {initial target : σ} {rs : List Record} (hguarded : S.Guarded rs)
    (hfold : rs.foldlM S.handle initial = .ok target) :
    rs.foldlM S.accept (initial, Tags.empty) = .ok (target, Tags.ofRecords rs) := by
  induction rs using List.reverseRecOn generalizing target with
  | nil =>
    cases hfold
    rfl
  | append_singleton rs r ih =>
    obtain ⟨hbefore, hadmits⟩ := guarded_concat.mp hguarded
    rw [List.foldlM_append] at hfold ⊢
    obtain ⟨mid, hmid, hlast⟩ := bind_eq_ok.mp hfold
    obtain ⟨made, hmade, hpure⟩ := bind_eq_ok.mp hlast
    cases hpure
    rw [ih hbefore hmid]
    exact bind_eq_ok.mpr ⟨_, rfl, bind_eq_ok.mpr ⟨_, accept_admitted hadmits hmade, rfl⟩⟩

theorem foldlM_accept_stopped {initial target : σ} {done more : List Record} {r : Record}
    {calls : List Handling} {e : Error} (hguarded : S.Guarded done)
    (hfold : done.foldlM S.handle initial = .ok target) (h : S.Objects done target r calls e) :
    (done ++ r :: more).foldlM S.accept (initial, Tags.empty) = .error e := by
  rw [List.foldlM_append, foldlM_accept hguarded hfold]
  exact bind_eq_error.mpr (.inr ⟨_, rfl, bind_eq_error.mpr (.inl (accept_objects h))⟩)

/-- Records are taken just if they are all let through and handled. -/
theorem foldlM_accept_eq_ok {initial target : σ} {rs : List Record} {tags : Tags} :
    rs.foldlM S.accept (initial, Tags.empty) = .ok (target, tags) ↔
      S.Guarded rs ∧ rs.foldlM S.handle initial = .ok target ∧ tags = Tags.ofRecords rs := by
  constructor
  · intro h
    rcases S.taken_or_stopped initial rs with ⟨hguarded, made, hfold⟩ |
      ⟨done, r, more, made, calls, e, rfl, hguarded, hfold, hobjects⟩
    · rw [foldlM_accept hguarded hfold] at h
      cases h
      exact ⟨hguarded, hfold, rfl⟩
    · rw [foldlM_accept_stopped hguarded hfold hobjects] at h
      cases h
  · rintro ⟨hguarded, hfold, rfl⟩
    exact foldlM_accept hguarded hfold

/-- Bytes are parsed just if they are whole records that are all let through and handled. -/
theorem parse_eq_ok {initial target : σ} {bs : Bytes} {tags : Tags} :
    S.parse initial bs = .ok (target, tags) ↔
      (records bs).2 = [] ∧ S.Guarded (records bs).1 ∧
        (records bs).1.foldlM S.handle initial = .ok target ∧
        tags = Tags.ofRecords (records bs).1 := by
  unfold parse
  rw [bind_eq_ok]
  constructor
  · rintro ⟨taken, htaken, hend⟩
    cases hleft : (records bs).2 with
    | nil =>
      rw [hleft] at hend
      cases hend
      exact ⟨rfl, foldlM_accept_eq_ok.mp htaken⟩
    | cons b left =>
      rw [hleft] at hend
      exact absurd hend throw_ne_ok
  · rintro ⟨hleft, hrest⟩
    exact ⟨_, foldlM_accept_eq_ok.mpr hrest, by rw [hleft]; rfl⟩

theorem handle_of_rule? {target : σ} {r : Record} {rule : Rule σ}
    (h : S.rule? r.tag = some rule) :
    S.handle target r = (S.common r target >>= rule.apply r) := by
  unfold handle
  simp only [h]

/-- What every rule keeps, given the records before its own, holds of all records at the end. -/
theorem parse_keeps {I : List Record → σ → Prop} {initial target : σ} {bs : Bytes} {tags : Tags}
    (h : S.parse initial bs = .ok (target, tags)) (first : I [] initial)
    (step : ∀ done r before mid after rule, I done before → rule ∈ S.rules → rule.tag = r.tag →
      (rule.repeats = false → r.tag ∉ done.map Record.tag) →
      S.common r before = .ok mid → rule.apply r mid = .ok after → I (done ++ [r]) after) :
    I (records bs).1 target := by
  have hkept := foldlM_keeps (I := fun done (state : σ × Tags) =>
      state.2.list = (done.map Record.tag).reverse ∧ I done state.1)
    (by
      rintro done r before after ⟨htags, hdone⟩ ha
      obtain ⟨rule, -, accepts⟩ := accepts_of_accept ha
      obtain ⟨mid, hcommon, happly⟩ := accepts.applied
      have hfresh := accepts.fresh
      rw [htags, List.mem_reverse] at hfresh
      refine ⟨by simp [accepts.tags, htags], ?_⟩
      exact step done r before.1 mid after.1 rule hdone accepts.mem accepts.tag hfresh hcommon
        happly)
    _ ⟨rfl, first⟩ (records_of_parse h).2
  exact hkept.2

/-- What each rule keeps, whatever its record, holds at the end where there is no common step. -/
theorem parse_preserves {I : σ → Prop} {rules : List (Rule σ)} {initial target : σ} {bs : Bytes}
    {tags : Tags} (h : (ofRules rules).parse initial bs = .ok (target, tags)) (first : I initial)
    (each : ∀ rule ∈ rules, rule.Keeps I) : I target := by
  refine parse_keeps (I := fun _ s => I s) h first ?_
  intro _ r before mid after rule hbefore hmem _ _ hcommon happly
  cases hcommon
  exact each rule hmem r before after hbefore happly

/-- Records of different tags may change places: where the one and then the other was taken, so is
the other and then the one. -/
def Commutes (S : Schema σ) : Prop :=
  ∀ (target mid made : σ) (r q : Record), (S.rule? r.tag).isSome = true →
    (S.rule? q.tag).isSome = true → r.tag ≠ q.tag → S.handle target r = .ok mid →
    S.handle mid q = .ok made → ∃ mid', S.handle target q = .ok mid' ∧ S.handle mid' r = .ok made

theorem Commutes.foldlM_perm (hcomm : S.Commutes) {rs qs : List Record} (hperm : rs.Perm qs)
    (hdeclared : ∀ r ∈ rs, (S.rule? r.tag).isSome = true) (hdistinct : (rs.map Record.tag).Nodup)
    {initial target : σ} (h : rs.foldlM S.handle initial = .ok target) :
    qs.foldlM S.handle initial = .ok target := by
  induction hperm generalizing initial with
  | nil => exact h
  | cons r _ ih =>
    obtain ⟨mid, hmid, hrest⟩ := bind_eq_ok.mp h
    rw [List.map_cons, List.nodup_cons] at hdistinct
    rw [List.forall_mem_cons] at hdeclared
    exact bind_eq_ok.mpr ⟨mid, hmid, ih hdeclared.2 hdistinct.2 hrest⟩
  | swap q r rs =>
    obtain ⟨mid, hmid, htwo⟩ := bind_eq_ok.mp h
    obtain ⟨made, hmade, hrest⟩ := bind_eq_ok.mp htwo
    rw [List.forall_mem_cons, List.forall_mem_cons] at hdeclared
    have hne : r.tag ≠ q.tag := by
      intro heq
      simp [heq] at hdistinct
    obtain ⟨mid', hfirst, hsecond⟩ :=
      hcomm _ _ _ r q hdeclared.1 hdeclared.2.1 hne hmid hmade
    exact bind_eq_ok.mpr ⟨mid', hfirst, bind_eq_ok.mpr ⟨made, hsecond, hrest⟩⟩
  | trans hperm _ ih ih' =>
    exact ih' (fun r hr => hdeclared r (hperm.mem_iff.mpr hr))
      ((hperm.map Record.tag).nodup_iff.mp hdistinct) (ih hdeclared hdistinct h)

theorem Guarded.perm {rs qs : List Record} (h : S.Guarded rs) (hperm : rs.Perm qs) :
    S.Guarded qs := by
  constructor
  · intro r hr
    exact h.declared r (hperm.mem_iff.mpr hr)
  · exact (((hperm.map Record.tag).filter _).nodup_iff).mp h.once

/-- Where no tag repeats and records may change places, their order does not matter. -/
theorem Commutes.parse_perm (hcomm : S.Commutes) (honce : ∀ rule ∈ S.rules, rule.repeats = false)
    {initial target : σ} {bs : Bytes} {tags : Tags} (h : S.parse initial bs = .ok (target, tags))
    {rs : List Record} (hperm : (records bs).1.Perm rs) :
    S.parse initial (rs.flatMap Record.raw) = .ok (target, .ofRecords rs) := by
  obtain ⟨-, hguarded, hfold, -⟩ := parse_eq_ok.mp h
  have hwhole : ∀ r ∈ rs, r.IsWhole :=
    fun r hr => (records_spec bs).1 r (hperm.mem_iff.mpr hr)
  have hdistinct : ((records bs).1.map Record.tag).Nodup := by
    have hall : ∀ t ∈ (records bs).1.map Record.tag, S.isOnce t = true := by
      intro t ht
      obtain ⟨r, hr, rfl⟩ := List.mem_map.mp ht
      obtain ⟨rule, hrule⟩ := Option.isSome_iff_exists.mp (hguarded.declared r hr)
      simp [isOnce, hrule, honce rule (List.mem_of_find?_eq_some hrule)]
    have hnodup := hguarded.once
    rwa [List.filter_eq_self.mpr hall] at hnodup
  rw [parse_eq_ok, records_flatMap hwhole]
  exact ⟨rfl, hguarded.perm hperm,
    hcomm.foldlM_perm hperm hguarded.declared hdistinct hfold, rfl⟩

end Schema

end ClearSign.Tlv
