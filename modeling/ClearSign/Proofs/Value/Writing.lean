import ClearSign.Proofs.Tlv.Writing
import ClearSign.Proofs.Value.Limits

/-!
How values and paths are written, and that reading gives back what was written.
-/

namespace ClearSign

open Tlv Refusal

/-- Two bytes of a signed bound, as they are carried: in two's complement. -/
def Bytes.ofInt16 (i : Int16) : Bytes := ofNat 2 i.toUInt16.toNat

namespace Tlv.Record

theorem asUInt16_shortest (tag : UInt8) (n : UInt16) :
    (shortest tag (Bytes.ofNat 2 n.toNat)).asUInt16 = .ok n := by
  have hvalue : (Bytes.ofNat 2 n.toNat).toNat = n.toNat := by
    rw [Bytes.toNat_ofNat]
    exact Nat.mod_eq_of_lt n.toNat_lt
  show Except.ok (UInt16.ofNat (Bytes.ofNat 2 n.toNat).toNat) = _
  rw [hvalue, UInt16.ofNat_toNat]

/-- The sign of a bound is its first bit. -/
theorem toInt_ofInt16 (i : Int16) : (Bytes.ofInt16 i).toInt = i.toInt := by
  have hlt : i.toUInt16.toNat < 65536 := i.toUInt16.toNat_lt
  have hvalue : (Bytes.ofInt16 i).toNat = i.toUInt16.toNat := by
    unfold Bytes.ofInt16
    rw [Bytes.toNat_ofNat]
    exact Nat.mod_eq_of_lt hlt
  have hsign : UInt8.ofNat (i.toUInt16.toNat / 256 % 256) < 0x80 ↔
      2 * i.toUInt16.toNat < 2 ^ 16 := by
    rw [UInt8.lt_iff_toNat_lt, UInt8.toNat_ofNat]
    show i.toUInt16.toNat / 256 % 256 % 256 < 128 ↔ _
    omega
  have hint : i.toInt = if 2 * i.toUInt16.toNat < 2 ^ 16 then (i.toUInt16.toNat : Int)
      else i.toUInt16.toNat - (2 ^ 16 : Nat) := BitVec.toInt_eq_toNat_cond i.toBitVec
  show (if UInt8.ofNat (i.toUInt16.toNat / 256 % 256) < 0x80 then ((Bytes.ofInt16 i).toNat : Int)
    else (Bytes.ofInt16 i).toNat - Nat.pow 256 2) = _
  rw [hint, hvalue]
  simp only [hsign]
  rfl

theorem asInt16_shortest (tag : UInt8) (i : Int16) :
    (shortest tag (Bytes.ofInt16 i)).asInt16 = .ok i := by
  show Except.ok (Int16.ofInt (Bytes.ofInt16 i).toInt) = _
  rw [toInt_ofInt16, Int16.ofInt_toInt]

end Tlv.Record

/-- The bounds of a window, under a tag each. -/
def Window.entries (start stop : UInt8) (w : Window) : List (UInt8 × Bytes) :=
  (w.start.toList.map fun i => (start, Bytes.ofInt16 i)) ++
    w.stop.toList.map fun i => (stop, Bytes.ofInt16 i)

namespace Element

/-- The record of an element. -/
def entry : Element → UInt8 × Bytes
  | tuple skip => (0x01, Bytes.ofNat 2 skip.toNat)
  | array weight window => (0x02, written ((0x01, [weight]) :: window.entries 0x02 0x03))
  | ref => (0x03, [])
  | leaf kind => (0x04, [kind.code])
  | slice window => (0x05, written (window.entries 0x01 0x02))

end Element

namespace DataPath

/-- The version, and the elements in their order. -/
def entries (p : DataPath) : List (UInt8 × Bytes) :=
  (versionTag, [p.version]) :: p.elements.map Element.entry

def write (p : DataPath) : Bytes := written p.entries

end DataPath

/-- The record of a source, under the tag of its kind. -/
def Source.entry : Source → UInt8 × Bytes
  | arguments path => (0x03, path.write)
  | property p => (0x04, [p.code])
  | constant bs => (0x05, bs)

namespace Value

def entries (v : Value) : List (UInt8 × Bytes) :=
  (0x00, [v.version]) :: (0x01, [v.family.code]) ::
    (v.size.toList.map fun n => (0x02, [n])) ++ [v.source.entry]

def write (v : Value) : Bytes := written v.entries

end Value

theorem Window.length_entries_le (start stop : UInt8) (w : Window) :
    (w.entries start stop).length ≤ 2 ∧ ∀ e ∈ w.entries start stop, e.2.length = 2 := by
  rcases w with ⟨_ | i, _ | j⟩ <;> simp [entries, Bytes.ofInt16, Bytes.length_ofNat]

/-- Each bound stands under its tag, the first one first. -/
theorem Window.tags_entries (start stop : UInt8) (w : Window) :
    ((w.entries start stop).map Prod.fst).Sublist [start, stop] := by
  rcases w with ⟨_ | i, _ | j⟩
  · exact List.nil_sublist _
  · exact .cons _ (List.Sublist.refl [stop])
  · exact .cons_cons _ (List.nil_sublist _)
  · exact List.Sublist.refl [start, stop]

namespace DataPath

open Record

theorem handle_arrayWeight (s : UInt8 × Window) (b : UInt8) :
    arraySchema.handle s (shortest 0x01 [b]) = .ok (b, s.2) := rfl

theorem handle_arrayStart (s : UInt8 × Window) (i : Int16) :
    arraySchema.handle s (shortest 0x02 (Bytes.ofInt16 i)) =
      .ok (s.1, { s.2 with start := some i }) := by
  show ((shortest 0x02 (Bytes.ofInt16 i)).asInt16 >>= fun bound =>
    pure (s.1, { s.2 with start := some bound })) = _
  rw [asInt16_shortest]
  rfl

theorem handle_arrayStop (s : UInt8 × Window) (i : Int16) :
    arraySchema.handle s (shortest 0x03 (Bytes.ofInt16 i)) =
      .ok (s.1, { s.2 with stop := some i }) := by
  show ((shortest 0x03 (Bytes.ofInt16 i)).asInt16 >>= fun bound =>
    pure (s.1, { s.2 with stop := some bound })) = _
  rw [asInt16_shortest]
  rfl

theorem handle_sliceStart (w : Window) (i : Int16) :
    sliceSchema.handle w (shortest 0x01 (Bytes.ofInt16 i)) = .ok { w with start := some i } := by
  show ((shortest 0x01 (Bytes.ofInt16 i)).asInt16 >>= fun bound =>
    pure { w with start := some bound }) = _
  rw [asInt16_shortest]
  rfl

theorem handle_sliceStop (w : Window) (i : Int16) :
    sliceSchema.handle w (shortest 0x02 (Bytes.ofInt16 i)) = .ok { w with stop := some i } := by
  show ((shortest 0x02 (Bytes.ofInt16 i)).asInt16 >>= fun bound =>
    pure { w with stop := some bound }) = _
  rw [asInt16_shortest]
  rfl

theorem parseArray_written (weight : UInt8) (window : Window) :
    parseArray (Element.array weight window).entry.2 = .ok (.array weight window) := by
  have htags : (((0x01, [weight]) :: window.entries 0x02 0x03).map Prod.fst).Sublist
      [0x01, 0x02, 0x03] := (window.tags_entries 0x02 0x03).cons_cons 0x01
  have hdeclared : ∀ t ∈ ([0x01, 0x02, 0x03] : List UInt8),
      (arraySchema.rule? t).isSome = true := by decide +kernel
  have hparse : arraySchema.parse (0, ⟨none, none⟩) (Element.array weight window).entry.2 =
      .ok ((weight, window), .ofRecords
        (((0x01, [weight]) :: window.entries 0x02 0x03).map fun e => shortest e.1 e.2)) := by
    apply Schema.parse_written
    · have hbounds := (window.length_entries_le 0x02 0x03).2
      rw [List.forall_mem_cons]
      refine ⟨by simp, ?_⟩
      intro e he
      rw [hbounds e he]
      decide
    · intro t ht
      exact hdeclared t (htags.subset ht)
    · exact (htags.nodup (by decide)).filter _
    · rcases window with ⟨_ | i, _ | j⟩ <;>
        simp [Window.entries, handle_arrayWeight, handle_arrayStart, handle_arrayStop, bind,
          Except.bind, pure, Except.pure]
  simp [parseArray, hparse, bind, Except.bind, pure, Except.pure, Tags.require, Tags.containsAll,
    Tags.contains, Tags.ofRecords, shortest]

theorem parseSlice_written (window : Window) :
    parseSlice (Element.slice window).entry.2 = .ok (.slice window) := by
  have htags := window.tags_entries 0x01 0x02
  have hdeclared : ∀ t ∈ ([0x01, 0x02] : List UInt8),
      (sliceSchema.rule? t).isSome = true := by decide +kernel
  have hparse : sliceSchema.parse ⟨none, none⟩ (Element.slice window).entry.2 =
      .ok (window, .ofRecords ((window.entries 0x01 0x02).map fun e => shortest e.1 e.2)) := by
    apply Schema.parse_written
    · intro e he
      rw [(window.length_entries_le 0x01 0x02).2 e he]
      decide
    · intro t ht
      exact hdeclared t (htags.subset ht)
    · exact (htags.nodup (by decide)).filter _
    · rcases window with ⟨_ | i, _ | j⟩ <;>
        simp [Window.entries, handle_sliceStart, handle_sliceStop, bind, Except.bind, pure,
          Except.pure]
  simp [parseSlice, hparse, bind, Except.bind, pure, Except.pure]

/-- An element is added behind the others, if there is room. -/
theorem handle_element (p : DataPath) (e : Element) (hroom : p.elements.length < maxElements) :
    schema.handle p (shortest e.entry.1 e.entry.2) = .ok (push e p) := by
  have hcommon : ∀ tag value, schema.common (shortest tag value) p = .ok p := by
    intro tag value
    simp only [schema, Nat.not_le.mpr hroom, and_false, if_false]
  cases e with
  | tuple skip =>
    show (schema.common _ p >>= fun p =>
      (shortest 0x01 (Bytes.ofNat 2 skip.toNat)).asUInt16 >>= fun n => pure (push (.tuple n) p)) = _
    rw [hcommon, asUInt16_shortest]
    rfl
  | array weight window =>
    show (schema.common _ p >>= fun p =>
      parseArray (Element.array weight window).entry.2 >>= fun e => pure (push e p)) = _
    rw [hcommon, parseArray_written]
    rfl
  | ref =>
    show (schema.common _ p >>= fun p => pure (push .ref p)) = _
    rw [hcommon]
    rfl
  | leaf kind =>
    show (schema.common _ p >>= fun p =>
      LeafKind.ofCode kind.code >>= fun k => pure (push (.leaf k) p)) = _
    rw [hcommon]
    cases kind <;> rfl
  | slice window =>
    show (schema.common _ p >>= fun p =>
      parseSlice (Element.slice window).entry.2 >>= fun e => pure (push e p)) = _
    rw [hcommon, parseSlice_written]
    rfl

theorem foldlM_elements (es : List Element) (p : DataPath)
    (hroom : p.elements.length + es.length ≤ maxElements) :
    ((es.map Element.entry).map fun e => shortest e.1 e.2).foldlM schema.handle p =
      .ok { p with elements := p.elements ++ es } := by
  induction es generalizing p with
  | nil => simp [pure, Except.pure]
  | cons e es ih =>
    rw [List.length_cons] at hroom
    have hlength : (push e p).elements.length = p.elements.length + 1 := by
      simp [push]
    rw [List.map_cons, List.map_cons, List.foldlM_cons, handle_element p e (by omega)]
    refine (ih (push e p) (by omega)).trans ?_
    simp [push]

theorem length_entry_le (e : Element) : e.entry.2.length ≤ 36 := by
  have hwindow (start stop : UInt8) (w : Window) :
      (written (w.entries start stop)).length ≤ 24 := by
    obtain ⟨hcount, hsize⟩ := w.length_entries_le start stop
    have hle := length_written_le fun e he => Nat.le_of_eq (hsize e he)
    omega
  cases e with
  | tuple skip =>
    show (Bytes.ofNat 2 skip.toNat).length ≤ 36
    rw [Bytes.length_ofNat]
    decide
  | array weight window =>
    show (Tlv.write 0x01 [weight] ++ written (window.entries 0x02 0x03)).length ≤ 36
    have hfirst := Tlv.length_write_le 0x01 [weight]
    have hbounds := hwindow 0x02 0x03 window
    rw [List.length_append]
    rw [List.length_singleton] at hfirst
    omega
  | ref => exact Nat.zero_le _
  | leaf kind =>
    show 1 ≤ 36
    decide
  | slice window => exact Nat.le_trans (hwindow 0x01 0x02 window) (by decide)

theorem tag_entry_mem (e : Element) :
    e.entry.1 ∈ ([0x01, 0x02, 0x03, 0x04, 0x05] : List UInt8) := by
  cases e <;> simp [Element.entry]

/-- A path that is not too long is read back as it was written. -/
theorem parse_write (p : DataPath) (h : p.elements.length ≤ maxElements) :
    parse p.write = .ok p := by
  have hkinds : ∀ t ∈ ([0x01, 0x02, 0x03, 0x04, 0x05] : List UInt8),
      (schema.rule? t).isSome = true ∧ schema.isOnce t = false := by decide +kernel
  have htags : ∀ t ∈ (p.elements.map Element.entry).map Prod.fst,
      (schema.rule? t).isSome = true ∧ schema.isOnce t = false := by
    intro t ht
    rw [List.map_map] at ht
    obtain ⟨e, -, rfl⟩ := List.mem_map.mp ht
    exact hkinds _ (tag_entry_mem e)
  unfold parse write
  have hparse : schema.parse ⟨0, []⟩ (written p.entries) =
      .ok (p, .ofRecords (p.entries.map fun e => shortest e.1 e.2)) := by
    unfold entries
    apply Schema.parse_written
    · rw [List.forall_mem_cons]
      refine ⟨by simp, ?_⟩
      intro entry he
      obtain ⟨e, -, rfl⟩ := List.mem_map.mp he
      exact Nat.le_trans (length_entry_le e) (by decide)
    · rw [List.map_cons, List.forall_mem_cons]
      exact ⟨rfl, fun t ht => (htags t ht).1⟩
    · rw [List.map_cons, List.filter_cons_of_pos rfl, List.filter_eq_nil_iff.mpr]
      · exact List.nodup_singleton _
      · intro t ht
        simp [(htags t ht).2]
    · rw [List.map_cons, List.foldlM_cons]
      exact foldlM_elements p.elements ⟨p.version, []⟩ (by simpa using h)
  rw [hparse]
  rfl

theorem length_write_le (p : DataPath) (h : p.elements.length ≤ maxElements) :
    p.write.length ≤ 0xffff := by
  have hle : (written p.entries).length ≤ p.entries.length * (10 + 36) := by
    apply length_written_le
    unfold entries
    rw [List.forall_mem_cons]
    refine ⟨by simp, ?_⟩
    intro entry he
    obtain ⟨e, -, rfl⟩ := List.mem_map.mp he
    exact length_entry_le e
  have hcount : p.entries.length = p.elements.length + 1 := by simp [entries]
  unfold write
  rw [hcount] at hle
  unfold maxElements at h
  omega

end DataPath

namespace Value

open Record

theorem length_source_le {s : Source} (h : s.Limited) : s.entry.2.length ≤ 0xffff := by
  cases s with
  | arguments p => exact p.length_write_le h
  | property p =>
    show 1 ≤ 0xffff
    decide
  | constant bs => exact Nat.le_trans h (by decide)

theorem handle_source {d : Draft} {s : Source} (h : s.Limited) (hnone : d.source = none) :
    schema.handle d (shortest s.entry.1 s.entry.2) = .ok { d with source := some s } := by
  have hput (s : Source) : d.withSource s = .ok { d with source := some s } := by
    simp [Draft.withSource, hnone]
  cases s with
  | arguments p =>
    show (DataPath.parse p.write >>= fun p => d.withSource (.arguments p)) = _
    rw [DataPath.parse_write p h]
    exact hput _
  | property p =>
    show (Property.ofCode p.code >>= fun p => d.withSource (.property p)) = _
    cases p <;> exact hput _
  | constant bs =>
    show ((shortest 0x05 bs).asBytes maxConstant >>= fun bs => d.withSource (.constant bs)) = _
    rw [show (shortest 0x05 bs).asBytes maxConstant = .ok bs from if_pos h]
    exact hput _

/-- A value within its limits is read back as it was written. -/
theorem parse_write {v : Value} (h : v.Limited) : parse v.write = .ok v := by
  have hfamily (d : Draft) : schema.handle d (shortest 0x01 [v.family.code]) =
      .ok { d with family := some v.family } := by
    show (TypeFamily.ofCode v.family.code >>= fun f => pure { d with family := some f }) = _
    cases v.family <;> rfl
  have hsize (d : Draft) (n : UInt8) (hn : 1 ≤ n ∧ n ≤ 32) :
      schema.handle d (shortest 0x02 [n]) = .ok { d with size := some n } := by
    show (sizeOfByte n >>= fun n => pure { d with size := some n }) = _
    rw [show sizeOfByte n = .ok n from if_pos hn]
    rfl
  have htags : (v.entries.map Prod.fst).Sublist [0x00, 0x01, 0x02, v.source.entry.1] := by
    cases hn : v.size <;> simp [entries, hn]
  have hdeclared : ∀ t ∈ [0x00, 0x01, 0x02, v.source.entry.1],
      (schema.rule? t).isSome = true := by
    cases v.source <;> simp [Source.entry] <;> decide
  have hdistinct : [0x00, 0x01, 0x02, v.source.entry.1].Nodup := by
    cases v.source <;> simp [Source.entry]
  have hparse : schema.parse ⟨0, none, none, none⟩ (written v.entries) =
      .ok (⟨v.version, some v.family, v.size, some v.source⟩,
        .ofRecords (v.entries.map fun e => shortest e.1 e.2)) := by
    apply Schema.parse_written
    · have hsource := length_source_le h.source
      cases hn : v.size <;> simp [entries, hn, hsource]
    · intro t ht
      exact hdeclared t (htags.subset ht)
    · exact (htags.nodup hdistinct).filter _
    · have hversion (d : Draft) : schema.handle d (shortest 0x00 [v.version]) =
          .ok { d with version := v.version } := rfl
      have hsource (d : Draft) (hnone : d.source = none) := handle_source h.source hnone
      cases hn : v.size with
      | none =>
        simp [entries, hn, hversion, hfamily, hsource, bind, Except.bind, pure, Except.pure]
      | some n =>
        simp [entries, hn, hversion, hfamily, hsize _ n (h.size n hn), hsource, bind, Except.bind,
          pure, Except.pure]
  unfold parse write
  rw [hparse]
  rfl

/-- Which part of a draft it is. -/
def Part.place : Part → UInt8
  | version _ => 0
  | family _ => 1
  | size _ => 2
  | source _ => 3

/-- Only a source stands under more than one tag. -/
theorem Part.IsReadOff.tag_or_source {part : Part} {r : Record} (h : part.IsReadOff r) :
    (part.place = r.tag ∧ part.place < 3) ∨ ∃ s, part = .source s := by
  cases h with
  | version b htag => exact .inl ⟨htag.symm, (by decide : (0 : UInt8) < 3)⟩
  | family f htag => exact .inl ⟨htag.symm, (by decide : (1 : UInt8) < 3)⟩
  | size n htag hn => exact .inl ⟨htag.symm, (by decide : (2 : UInt8) < 3)⟩
  | arguments p htag hp => exact .inr ⟨_, rfl⟩
  | property p htag => exact .inr ⟨_, rfl⟩
  | constant htag hfits => exact .inr ⟨_, rfl⟩

/-- Different parts are put in in either order. -/
theorem Draft.put_comm {a b : Part} (hne : a.place ≠ b.place) (d : Draft) :
    (d.put a >>= fun e => e.put b) = (d.put b >>= fun e => e.put a) := by
  obtain ⟨version, family, size, _ | s⟩ := d <;> cases a <;> cases b <;> first
    | exact absurd rfl hne
    | rfl

/-- A second source is not taken. -/
theorem Draft.put_source_twice {d mid : Draft} {s : Source} (h : d.put (.source s) = .ok mid)
    (s' : Source) : mid.put (.source s') = .error .duplicateTag := by
  have hput : d.withSource s = .ok mid := h
  unfold withSource at hput
  split at hput
  · cases hput
  · cases hput
    rfl

/-- A record that is handled says the same about every draft. -/
theorem part_of_handle {d d' : Draft} {r : Record} (hr : (schema.rule? r.tag).isSome = true)
    (h : schema.handle d r = .ok d') :
    ∃ part : Part, part.IsReadOff r ∧ ∀ e, schema.handle e r = Draft.put e part := by
  obtain ⟨rule, hrule⟩ := Option.isSome_iff_exists.mp hr
  have htag : rule.tag = r.tag := by simpa using List.find?_some hrule
  rw [Schema.handle_of_rule? hrule] at h
  obtain ⟨part, hpart, hput⟩ := part_of_rule (List.mem_of_find?_eq_some hrule) htag h
  exact ⟨part, hpart, fun e => (Schema.handle_of_rule? hrule).trans (hput e)⟩

/-- Parts of one place, read off records of different tags, are two sources. -/
theorem Part.IsReadOff.sources {a b : Part} {r q : Record} (ha : a.IsReadOff r)
    (hb : b.IsReadOff q) (hne : r.tag ≠ q.tag) (hplace : a.place = b.place) :
    (∃ s, a = .source s) ∧ ∃ s, b = .source s := by
  rcases ha.tag_or_source with ⟨hta, halow⟩ | ⟨s, rfl⟩ <;>
    rcases hb.tag_or_source with ⟨htb, hblow⟩ | ⟨s', rfl⟩
  · exact absurd (hta.symm.trans (hplace.trans htb)) hne
  · rw [hplace] at halow
    exact absurd halow (by decide : ¬ (3 : UInt8) < 3)
  · rw [← hplace] at hblow
    exact absurd hblow (by decide : ¬ (3 : UInt8) < 3)
  · exact ⟨⟨s, rfl⟩, s', rfl⟩

/-- Records of different tags say different things about a value, or one of two sources is not
taken. -/
theorem commutes : schema.Commutes := by
  intro d mid made r q hr hq hne hmid hmade
  obtain ⟨a, ha, hputa⟩ := part_of_handle hr hmid
  obtain ⟨b, hb, hputb⟩ := part_of_handle hq hmade
  rw [hputa] at hmid
  rw [hputb] at hmade
  simp only [hputa, hputb]
  have hplace : a.place ≠ b.place := by
    intro heq
    obtain ⟨⟨s, rfl⟩, s', rfl⟩ := ha.sources hb hne heq
    rw [Draft.put_source_twice hmid] at hmade
    cases hmade
  exact bind_eq_ok.mp ((Draft.put_comm hplace d).symm.trans (bind_eq_ok.mpr ⟨mid, hmid, hmade⟩))

theorem parse_perm {bs : Bytes} {v : Value} (h : parse bs = .ok v) {rs : List Record}
    (hperm : (records bs).1.Perm rs) : parse (rs.flatMap Record.raw) = .ok v := by
  obtain ⟨⟨d, tags⟩, hparse, hrest⟩ := bind_eq_ok.mp h
  have honce : ∀ rule ∈ schema.rules, rule.repeats = false := by
    simp [schema, Schema.ofRules, Rule.once]
  exact bind_eq_ok.mpr ⟨_, commutes.parse_perm honce hparse hperm, hrest⟩

/-- A value within its limits is read back as it was written, and so is a path, with its elements in
their order. The order of the records of a value does not matter. No value is read where the source
or the family is missing, where there are two sources of whatever kinds, or where the path has more
than 16 elements. -/
theorem decoded_as_written :
    (∀ v : Value, v.Limited → parse v.write = .ok v) ∧
    (∀ p : DataPath, p.elements.length ≤ 16 → DataPath.parse p.write = .ok p) ∧
    (∀ bs v, parse bs = .ok v → ∀ rs, (records bs).1.Perm rs →
      parse (rs.flatMap Record.raw) = .ok v) ∧
    (∀ bs, (records bs).1.countP isSource ≠ 1 → ∃ e, parse bs = .error e) ∧
    (∀ bs, (∀ r ∈ (records bs).1, r.tag ≠ 0x01) → ∃ e, parse bs = .error e) ∧
    (∀ bs, 16 < (records bs).1.countP DataPath.isElement → ∃ e, DataPath.parse bs = .error e) ∧
    ∀ bs r, r ∈ (records bs).1 → r.tag = 0x03 →
      16 < (records r.value).1.countP DataPath.isElement → ∃ e, parse bs = .error e := by
  have hpath (bs : Bytes) (hlong : 16 < (records bs).1.countP DataPath.isElement)
      (p : DataPath) : DataPath.parse bs ≠ .ok p := by
    intro hp
    have hcounted := DataPath.counted_of_parse hp
    rw [← hcounted.count] at hlong
    exact Nat.not_le.mpr hlong hcounted.bound
  refine ⟨fun v => parse_write, DataPath.parse_write, fun bs v h rs => parse_perm h, ?_, ?_, ?_, ?_⟩
  · intro bs hsources
    refine exists_error_of_ne_ok fun v hv => ?_
    exact hsources (drafted_of_parse hv).sources
  · intro bs hfamily
    refine exists_error_of_ne_ok fun v hv => ?_
    obtain ⟨r, hr, htag⟩ := (drafted_of_parse hv).family rfl
    exact hfamily r hr htag
  · intro bs hlong
    exact exists_error_of_ne_ok (hpath bs hlong)
  · intro bs r hr htag hlong
    refine exists_error_of_ne_ok fun v hv => ?_
    obtain ⟨p, hp⟩ := (drafted_of_parse hv).paths r hr htag
    exact hpath r.value hlong p hp

end Value

end ClearSign
