import ClearSign.Proofs.Tlv.Guard
import ClearSign.Value.Basic

/-!
What values and paths that were read are held to, and what their records are: one for each element
of a path, and one source for each value.
-/

namespace ClearSign

open Tlv Refusal

namespace DataPath

/-- Each record but that of the version is an element. -/
def isElement (r : Record) : Bool := r.tag != versionTag

/-- A path as long as the records behind it have elements, and no longer than it may be. -/
structure Counted (done : List Record) (p : DataPath) : Prop where
  count : p.elements.length = done.countP isElement
  bound : p.elements.length ≤ maxElements

theorem Counted.push {done : List Record} {r : Record} {p : DataPath} (h : Counted done p)
    (hr : isElement r = true) (hroom : p.elements.length < maxElements) (e : Element) :
    Counted (done ++ [r]) (push e p) := by
  have hlength : (DataPath.push e p).elements.length = p.elements.length + 1 := by
    simp [DataPath.push]
  constructor
  · rw [hlength, List.countP_append, List.countP_singleton, if_pos hr, h.count]
  · omega

/-- A record gives the version or adds an element. -/
theorem pushed_of_rule {rule : Rule DataPath} {r : Record} {p p' : DataPath}
    (hmem : rule ∈ schema.rules) (htag : rule.tag = r.tag) (h : rule.apply r p = .ok p') :
    (isElement r = false ∧ p'.elements = p.elements) ∨
      (isElement r = true ∧ ∃ e, p' = push e p) := by
  simp only [schema, List.mem_cons, List.not_mem_nil, or_false] at hmem
  rcases hmem with rfl | rfl | rfl | rfl | rfl | rfl
  · obtain ⟨b, -, hp'⟩ := bind_eq_ok.mp h
    cases hp'
    exact .inl ⟨by rw [isElement, ← htag]; rfl, rfl⟩
  · obtain ⟨skip, -, hp'⟩ := bind_eq_ok.mp h
    exact .inr ⟨by rw [isElement, ← htag]; rfl, _, (Except.ok.inj hp').symm⟩
  · obtain ⟨e, -, hp'⟩ := bind_eq_ok.mp h
    exact .inr ⟨by rw [isElement, ← htag]; rfl, _, (Except.ok.inj hp').symm⟩
  · simp only [Rule.many] at h
    split at h
    · exact .inr ⟨by rw [isElement, ← htag]; rfl, _, (Except.ok.inj h).symm⟩
    · cases h
  · obtain ⟨b, -, hkind⟩ := bind_eq_ok.mp h
    obtain ⟨kind, -, hp'⟩ := bind_eq_ok.mp hkind
    exact .inr ⟨by rw [isElement, ← htag]; rfl, _, (Except.ok.inj hp').symm⟩
  · obtain ⟨e, -, hp'⟩ := bind_eq_ok.mp h
    exact .inr ⟨by rw [isElement, ← htag]; rfl, _, (Except.ok.inj hp').symm⟩

theorem counted_of_parse {bs : Bytes} {p : DataPath} (h : parse bs = .ok p) :
    Counted (records bs).1 p := by
  obtain ⟨⟨path, tags⟩, hparse, hpath⟩ := bind_eq_ok.mp h
  cases hpath
  refine Schema.parse_keeps hparse ⟨rfl, Nat.zero_le _⟩ ?_
  intro done r before mid after rule hdone hmem htag _ hcommon happly
  -- a path that is full is refused by the common step, before any rule
  have hroom : r.tag ≠ versionTag → before.elements.length < maxElements := by
    intro hne
    by_contra hfull
    simp [schema, hne, Nat.le_of_not_lt hfull] at hcommon
  obtain rfl : before = mid := by
    simp only [schema] at hcommon
    split at hcommon
    · cases hcommon
    · exact Except.ok.inj hcommon
  rcases pushed_of_rule hmem htag happly with ⟨hversion, hsame⟩ | ⟨helement, e, rfl⟩
  · constructor
    · rw [hsame, hdone.count, List.countP_append, List.countP_singleton, hversion]
      rfl
    · rw [hsame]
      exact hdone.bound
  · exact hdone.push helement (hroom (by simpa [isElement] using helement)) e

end DataPath

/-- What a source is held to: a path to 16 elements, a constant to 32 bytes. -/
def Source.Limited : Source → Prop
  | arguments path => path.elements.length ≤ 16
  | property _ => True
  | constant bs => bs.length ≤ 32

namespace Value

/-- What a value is held to. -/
structure Limited (v : Value) : Prop where
  size : ∀ n ∈ v.size, 1 ≤ n ∧ n ≤ 32
  source : v.source.Limited

/-- What a record says about a value. -/
inductive Part
  | version (b : UInt8)
  | family (f : TypeFamily)
  | size (n : UInt8)
  | source (s : Source)

/-- The part is what the record says, under the tag of that part. -/
inductive Part.IsReadOff : Part → Record → Prop
  | version {r : Record} (b : UInt8) : r.tag = 0x00 → IsReadOff (version b) r
  | family {r : Record} (f : TypeFamily) : r.tag = 0x01 → IsReadOff (family f) r
  | size {r : Record} (n : UInt8) : r.tag = 0x02 → 1 ≤ n ∧ n ≤ 32 → IsReadOff (size n) r
  | arguments {r : Record} (p : DataPath) : r.tag = 0x03 → DataPath.parse r.value = .ok p →
    IsReadOff (source (.arguments p)) r
  | property {r : Record} (p : Property) : r.tag = 0x04 → IsReadOff (source (.property p)) r
  | constant {r : Record} : r.tag = 0x05 → r.value.length ≤ maxConstant →
    IsReadOff (source (.constant r.value)) r

def Draft.put (d : Draft) : Part → Except Error Draft
  | .version b => .ok { d with version := b }
  | .family f => .ok { d with family := some f }
  | .size n => .ok { d with size := some n }
  | .source s => d.withSource s

/-- A record that a rule takes says the same about every draft. -/
theorem part_of_rule {rule : Rule Draft} {r : Record} {d d' : Draft} (hmem : rule ∈ schema.rules)
    (htag : rule.tag = r.tag) (h : rule.apply r d = .ok d') :
    ∃ part : Part, part.IsReadOff r ∧ ∀ e, rule.apply r e = Draft.put e part := by
  simp only [schema, Schema.ofRules, List.mem_cons, List.not_mem_nil, or_false] at hmem
  rcases hmem with rfl | rfl | rfl | rfl | rfl | rfl
  · obtain ⟨b, hb, -⟩ := bind_eq_ok.mp h
    refine ⟨_, .version b htag.symm, fun e => ?_⟩
    show (r.asByte >>= fun _ => _) = _
    rw [hb]
    rfl
  · obtain ⟨b, hb, hrest⟩ := bind_eq_ok.mp h
    obtain ⟨f, hf, -⟩ := bind_eq_ok.mp hrest
    refine ⟨_, .family f htag.symm, fun e => ?_⟩
    show (r.asByte >>= fun b => TypeFamily.ofCode b >>= fun _ => _) = _
    simp only [hb, hf, bind, Except.bind]
    rfl
  · obtain ⟨b, hb, hrest⟩ := bind_eq_ok.mp h
    obtain ⟨n, hn, -⟩ := bind_eq_ok.mp hrest
    have hbounds : 1 ≤ n ∧ n ≤ 32 := by
      unfold sizeOfByte at hn
      split at hn
      · rename_i hb
        cases hn
        exact hb
      · cases hn
    refine ⟨_, .size n htag.symm hbounds, fun e => ?_⟩
    show (r.asByte >>= fun b => sizeOfByte b >>= fun _ => _) = _
    simp only [hb, hn, bind, Except.bind]
    rfl
  · obtain ⟨p, hp, -⟩ := bind_eq_ok.mp h
    refine ⟨_, .arguments p htag.symm hp, fun e => ?_⟩
    show (DataPath.parse r.value >>= fun _ => _) = _
    rw [hp]
    rfl
  · obtain ⟨b, hb, hrest⟩ := bind_eq_ok.mp h
    obtain ⟨p, hp, -⟩ := bind_eq_ok.mp hrest
    refine ⟨_, .property p htag.symm, fun e => ?_⟩
    show (r.asByte >>= fun b => Property.ofCode b >>= fun _ => _) = _
    simp only [hb, hp, bind, Except.bind]
    rfl
  · obtain ⟨bs, hbs, -⟩ := bind_eq_ok.mp h
    have hfits : r.value.length ≤ maxConstant := by
      unfold Record.asBytes at hbs
      split at hbs
      · assumption
      · cases hbs
    refine ⟨_, .constant htag.symm hfits, fun e => ?_⟩
    show (r.asBytes maxConstant >>= fun _ => _) = _
    rw [show r.asBytes maxConstant = .ok r.value from if_pos hfits]
    rfl

/-- Whether the record is that of a source, of whatever kind. -/
def isSource (r : Record) : Bool := [0x03, 0x04, 0x05].contains r.tag

/-- What a draft says about the records behind it. -/
structure Drafted (done : List Record) (d : Draft) : Prop where
  sources : done.countP isSource = d.source.toList.length
  family : d.family.isSome = true → ∃ r ∈ done, r.tag = 0x01
  size : ∀ n ∈ d.size, 1 ≤ n ∧ n ≤ 32
  source : ∀ s ∈ d.source, s.Limited
  paths : ∀ r ∈ done, r.tag = 0x03 → ∃ p, DataPath.parse r.value = .ok p

/-- A record of no source leaves the source as it is. -/
theorem Drafted.next {done : List Record} {r : Record} {d d' : Draft} (h : Drafted done d)
    (hr : isSource r = false) (hsource : d'.source = d.source)
    (hfamily : d'.family.isSome = true → d.family.isSome = true ∨ r.tag = 0x01)
    (hsize : ∀ n ∈ d'.size, 1 ≤ n ∧ n ≤ 32) : Drafted (done ++ [r]) d' := by
  constructor
  · rw [hsource, ← h.sources, List.countP_append, List.countP_singleton, hr]
    rfl
  · intro hsome
    rcases hfamily hsome with hold | htag
    · obtain ⟨q, hq, htag⟩ := h.family hold
      exact ⟨q, List.mem_append_left _ hq, htag⟩
    · exact ⟨r, by simp, htag⟩
  · exact hsize
  · rw [hsource]
    exact h.source
  · intro q hq htag
    rcases List.mem_append.mp hq with hq | hq
    · exact h.paths q hq htag
    · rw [List.mem_singleton.mp hq] at htag
      simp [isSource, htag] at hr

/-- The record of a source is the first one. -/
theorem Drafted.withSource {done : List Record} {r : Record} {d d' : Draft} {s : Source}
    (h : Drafted done d) (hr : isSource r = true) (hlimited : s.Limited)
    (hpath : r.tag = 0x03 → ∃ p, DataPath.parse r.value = .ok p)
    (hput : d.withSource s = .ok d') : Drafted (done ++ [r]) d' := by
  unfold Draft.withSource at hput
  split at hput
  · cases hput
  · rename_i hnone
    obtain hnone : d.source = none := by simpa using hnone
    cases hput
    have hsources := h.sources
    rw [hnone] at hsources
    constructor
    · rw [List.countP_append, List.countP_singleton, hr, hsources]
      rfl
    · intro hsome
      obtain ⟨q, hq, htag⟩ := h.family hsome
      exact ⟨q, List.mem_append_left _ hq, htag⟩
    · exact h.size
    · rintro s' ⟨⟩
      exact hlimited
    · intro q hq htag
      rcases List.mem_append.mp hq with hq | hq
      · exact h.paths q hq htag
      · rw [List.mem_singleton.mp hq] at htag ⊢
        exact hpath htag

theorem Drafted.put {done : List Record} {r : Record} {d d' : Draft} {part : Part}
    (h : Drafted done d) (hpart : part.IsReadOff r) (hput : d.put part = .ok d') :
    Drafted (done ++ [r]) d' := by
  cases hpart with
  | version b htag =>
    cases hput
    exact h.next (by simp [isSource, htag]) rfl .inl h.size
  | family f htag =>
    cases hput
    exact h.next (by simp [isSource, htag]) rfl (fun _ => .inr htag) h.size
  | size n htag hn =>
    cases hput
    exact h.next (by simp [isSource, htag]) rfl .inl (by rintro n' ⟨⟩; exact hn)
  | arguments p htag hp =>
    exact h.withSource (s := .arguments p) (by simp [isSource, htag])
      (DataPath.counted_of_parse hp).bound (fun _ => ⟨p, hp⟩) hput
  | property p htag =>
    exact h.withSource (s := .property p) (by simp [isSource, htag]) trivial (by simp [htag]) hput
  | constant htag hfits =>
    exact h.withSource (s := .constant r.value) (by simp [isSource, htag]) hfits (by simp [htag])
      hput

/-- A value that was read has its parts from its records. -/
theorem drafted_of_parse {bs : Bytes} {v : Value} (h : parse bs = .ok v) :
    Drafted (records bs).1 ⟨v.version, some v.family, v.size, some v.source⟩ := by
  unfold parse at h
  obtain ⟨⟨d, tags⟩, hparse, hrest⟩ := bind_eq_ok.mp h
  have hdrafted : Drafted (records bs).1 d := by
    refine Schema.parse_keeps hparse (by constructor <;> simp) ?_
    intro done r before mid after rule hdone hmem htag _ hcommon happly
    cases hcommon
    obtain ⟨part, hpart, hput⟩ := part_of_rule hmem htag happly
    exact hdone.put hpart ((hput before).symm.trans happly)
  obtain ⟨version, _ | family, size, _ | source⟩ := d
  · cases hrest
  · cases hrest
  · cases hrest
  · cases hrest
    exact hdrafted

/-- A value that was read is within its limits. -/
theorem limited_of_parse {bs : Bytes} {v : Value} (h : parse bs = .ok v) : v.Limited :=
  ⟨(drafted_of_parse h).size, (drafted_of_parse h).source v.source rfl⟩

end Value

end ClearSign
