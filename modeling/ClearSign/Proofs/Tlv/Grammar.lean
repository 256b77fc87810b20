import ClearSign.Proofs.Action
import ClearSign.Proofs.Tlv.Concatenation
import ClearSign.Tlv.Schema

/-!
Which byte strings are records. A record is spelled by three byte strings: the numerals of its tag
and of the length of its value, and the value. Reading accepts the strings that such spellings
make up, each of them in one way only; of any other string it hands over the records of the
longest front that is made up of spellings, and objects.
-/

namespace ClearSign.Tlv

open ClearSign.Action

/-- Bytes that stand for a number: one byte below 128, or 128 plus a count from 1 to 4 and as many
bytes, the most significant first. Leading zeros are allowed. -/
inductive Numeral : Bytes → Nat → Prop
  | short (b : UInt8) : b < 0x80 → Numeral [b] b.toNat
  | long (b : UInt8) (digits : Bytes) : b.toNat = 0x80 + digits.length → 1 ≤ digits.length →
    digits.length ≤ 4 → Numeral (b :: digits) digits.toNat

/-- A record cut into the bytes of its tag, those of its length, and its value. -/
structure Spelling where
  tag : Bytes
  length : Bytes
  value : Bytes

namespace Spelling

def bytes (p : Spelling) : Bytes := p.tag ++ p.length ++ p.value

/-- The bytes spell the record. Its tag is a byte, so what the first part stands for is at most
255. -/
structure Spells (p : Spelling) (r : Record) : Prop where
  tag : Numeral p.tag r.tag.toNat
  length : Numeral p.length r.value.length
  bound : r.value.length ≤ 0xffff
  value : p.value = r.value
  header : p.tag ++ p.length = r.header

/-- The byte string is made up of spellings, one behind the other, and they spell the records. -/
inductive Split : Bytes → List Spelling → List Record → Prop
  | nil : Split [] [] []
  | cons {p : Spelling} {r : Record} {bs : Bytes} {ps : List Spelling} {rs : List Record} :
    p.Spells r → Split bs ps rs → Split (p.bytes ++ bs) (p :: ps) (r :: rs)

end Spelling

open Spelling

theorem Numeral.of_read? {bs rest : Bytes} {v : Varint} (h : Varint.read? bs = some (v, rest)) :
    Numeral v.bytes v.value := by
  cases bs with
  | nil => simp [Varint.read?] at h
  | cons b tail =>
    simp only [Varint.read?] at h
    split at h
    · rename_i hshort
      cases h
      exact .short b hshort
    · rename_i hlong
      split at h
      · rename_i hcount
        obtain ⟨hpos, hfour, hroom⟩ := hcount
        cases h
        have hdigits : (tail.take (b.toNat - 0x80)).length = b.toNat - 0x80 := by
          rw [List.length_take]
          omega
        dsimp only
        apply Numeral.long
        · omega
        · omega
        · omega
      · cases h

/-- A numeral is read whatever stands behind it. -/
theorem Numeral.read?_append {bs : Bytes} {n : Nat} (h : Numeral bs n) (more : Bytes) :
    Varint.read? (bs ++ more) = some (⟨bs, n⟩, more) := by
  cases h with
  | short b hshort => simp [Varint.read?, hshort]
  | long b digits hb hpos hfour =>
    have hlong : ¬ b < 0x80 := by
      rw [UInt8.lt_iff_toNat_lt, hb]
      exact Nat.not_lt.mpr (Nat.le_add_right _ _)
    have hcount : b.toNat - 0x80 = digits.length := by omega
    simp [Varint.read?, hlong, hcount, hpos, hfour]

/-- Of two numerals in front of the same bytes, neither goes on behind the other. -/
theorem Numeral.unique {a b : Bytes} {m n : Nat} {x y : Bytes} (ha : Numeral a m)
    (hb : Numeral b n) (h : a ++ x = b ++ y) : a = b ∧ m = n ∧ x = y := by
  have hread := ha.read?_append x
  rw [h, hb.read?_append y, Option.some.injEq, Prod.mk.injEq, Varint.mk.injEq] at hread
  obtain ⟨⟨rfl, rfl⟩, rfl⟩ := hread
  exact ⟨rfl, rfl, rfl⟩

theorem Spelling.Spells.bytes_eq {p : Spelling} {r : Record} (h : p.Spells r) :
    p.bytes = r.raw := by
  unfold Spelling.bytes Record.raw
  rw [h.header, h.value]

/-- What is spelled is read, whatever stands behind it. -/
theorem Spelling.Spells.isWhole {p : Spelling} {r : Record} (h : p.Spells r) : r.IsWhole := by
  intro more
  rw [← h.bytes_eq]
  have htag : r.tag.toNat ≤ 0xff := Nat.le_of_lt_succ r.tag.toNat_lt
  have hfits : r.value.length ≤ (r.value ++ more).length := by simp
  unfold Spelling.bytes
  rw [List.append_assoc, List.append_assoc, h.value]
  simp only [Record.read?, h.tag.read?_append, h.length.read?_append, htag, h.bound, hfits,
    and_self, if_true, List.take_left, List.drop_left, h.header, UInt8.ofNat_toNat]

/-- What is read is spelled. -/
theorem exists_spelling {bs rest : Bytes} {r : Record} (h : Record.read? bs = some (r, rest)) :
    ∃ p : Spelling, p.Spells r := by
  simp only [Record.read?] at h
  split at h
  · cases h
  · rename_i tag afterTag htag
    split at h
    · cases h
    · rename_i length behind hlength
      split at h
      · rename_i hbounds
        obtain ⟨htag255, hlen65535, hroom⟩ := hbounds
        cases h
        have hvalue : (behind.take length.value).length = length.value := by
          rw [List.length_take]
          omega
        refine ⟨⟨tag.bytes, length.bytes, behind.take length.value⟩, ?_, ?_, ?_, rfl, rfl⟩
        · rw [UInt8.toNat_ofNat_of_lt' (by show tag.value < 256; omega)]
          exact .of_read? htag
        · rw [hvalue]
          exact .of_read? hlength
        · rwa [hvalue]
      · cases h

/-- A record is spelled in one way. -/
theorem Spelling.Spells.unique {p q : Spelling} {r : Record} (hp : p.Spells r)
    (hq : q.Spells r) : p = q := by
  obtain ⟨htag, -, hlength⟩ := hp.tag.unique hq.tag (hp.header.trans hq.header.symm)
  cases p
  cases q
  cases htag
  cases hlength
  cases hp.value.trans hq.value.symm
  rfl

namespace Spelling.Split

variable {bs : Bytes} {ps : List Spelling} {rs : List Record}

theorem isWhole (h : Split bs ps rs) : ∀ r ∈ rs, r.IsWhole := by
  induction h with
  | nil => simp
  | cons hfirst _ ih =>
    intro r hr
    rcases List.mem_cons.mp hr with rfl | hr
    · exact hfirst.isWhole
    · exact ih r hr

theorem raw_eq (h : Split bs ps rs) : rs.flatMap Record.raw = bs := by
  induction h with
  | nil => rfl
  | cons hfirst _ ih => rw [List.flatMap_cons, ih, hfirst.bytes_eq]

/-- The records of a longer string start with those of a front that is split. -/
theorem records_append (h : Split bs ps rs) (more : Bytes) :
    records (bs ++ more) = (rs ++ (records more).1, (records more).2) := by
  rw [← h.raw_eq]
  exact records_flatMap_append h.isWhole more

theorem records_eq (h : Split bs ps rs) : records bs = (rs, []) := by
  have hall := h.records_append []
  simpa [records_nil] using hall

/-- Records are spelled in one way. -/
theorem spellings_unique {cs : Bytes} {qs : List Spelling} (h : Split bs ps rs)
    (h' : Split cs qs rs) : ps = qs := by
  induction h generalizing cs qs with
  | nil =>
    cases h'
    rfl
  | cons hfirst _ ih =>
    cases h' with
    | cons hfirst' hrest' => rw [hfirst.unique hfirst', ih hrest']

/-- A byte string is split in one way. -/
theorem unique {qs : List Spelling} {ss : List Record} (h : Split bs ps rs)
    (h' : Split bs qs ss) : ps = qs ∧ rs = ss := by
  obtain rfl : rs = ss := congrArg Prod.fst (h.records_eq.symm.trans h'.records_eq)
  exact ⟨h.spellings_unique h', rfl⟩

end Spelling.Split

/-- The records that are read off a byte string are a split of the front they take up. -/
theorem exists_split (bs : Bytes) :
    ∃ ps, Split ((records bs).1.flatMap Record.raw) ps (records bs).1 := by
  fun_induction records bs with
  | case1 bs r rest hread rs left hrest ih =>
    rw [hrest] at ih
    obtain ⟨p, hp⟩ := exists_spelling hread
    obtain ⟨ps, hps⟩ := ih
    refine ⟨p :: ps, ?_⟩
    rw [List.flatMap_cons, ← hp.bytes_eq]
    exact .cons hp hps
  | case2 bs hread => exact ⟨[], .nil⟩

/-- Whole records are spelled by the bytes they were read from. -/
theorem exists_split_of_whole {rs : List Record} (h : ∀ r ∈ rs, r.IsWhole) :
    ∃ ps, Split (rs.flatMap Record.raw) ps rs := by
  have hsplit := exists_split (rs.flatMap Record.raw)
  rwa [records_flatMap h] at hsplit

/-- A byte string is split just if nothing of it is left over. -/
theorem split_iff {bs : Bytes} {rs : List Record} :
    (∃ ps, Split bs ps rs) ↔ records bs = (rs, []) := by
  constructor
  · rintro ⟨ps, h⟩
    exact h.records_eq
  · intro h
    obtain ⟨ps, hps⟩ := exists_split bs
    have hall := (records_spec bs).2
    rw [h] at hps hall
    rw [List.append_nil] at hall
    rw [hall] at hps
    exact ⟨ps, hps⟩

/-- Each front that is split is a front of what the records take up. -/
theorem front_of_split {bs front : Bytes} {ps : List Spelling} {rs : List Record}
    (hfront : front <+: bs) (h : Split front ps rs) :
    front <+: (records bs).1.flatMap Record.raw := by
  obtain ⟨more, rfl⟩ := hfront
  rw [h.records_append more, List.flatMap_append, h.raw_eq]
  exact List.prefix_append _ _

/-- Where the record at a place starts, counted from the first one. -/
def offset (rs : List Record) (i : Nat) : Nat := ((rs.take i).flatMap Record.raw).length

/-- Records lie in their byte string one behind the other. -/
theorem span_of_getElem? {bs left : Bytes} {rs : List Record} {i : Nat} {r : Record}
    (h : rs.flatMap Record.raw ++ left = bs) (hr : rs[i]? = some r) :
    offset rs (i + 1) = offset rs i + r.raw.length ∧ offset rs (i + 1) ≤ bs.length ∧
      (bs.drop (offset rs i)).take r.raw.length = r.raw := by
  obtain ⟨hi, rfl⟩ := List.getElem?_eq_some_iff.mp hr
  have hnext : (rs.take (i + 1)).flatMap Record.raw =
      (rs.take i).flatMap Record.raw ++ rs[i].raw := by
    rw [List.take_succ_eq_append_getElem hi, List.flatMap_append, List.flatMap_singleton]
  have hcut : rs.flatMap Record.raw =
      (rs.take (i + 1)).flatMap Record.raw ++ (rs.drop (i + 1)).flatMap Record.raw := by
    rw [← List.flatMap_append, List.take_append_drop]
  have hall : bs = (rs.take i).flatMap Record.raw ++
      (rs[i].raw ++ ((rs.drop (i + 1)).flatMap Record.raw ++ left)) := by
    rw [← h, hcut, hnext, List.append_assoc, List.append_assoc]
  unfold offset
  refine ⟨by rw [hnext, List.length_append], ?_, ?_⟩
  · rw [hnext, hall]
    simp only [List.length_append]
    omega
  · rw [hall, List.drop_left, List.take_left]

section

variable {σ : Type}

/-- The records of a byte string are handed over one after the other. What is no record is only met
once the records before it have been handed over. -/
def handOver (handler : Record → Action σ Unit) (bs : Bytes) : Action σ Unit := do
  (records bs).1.forM handler
  if (records bs).2.isEmpty then pure () else throw .malformedTlv

/-- A fold that may be refused is a row of updates, of which the first refused one is the last. -/
theorem foldlM_eq_forM (f : σ → Record → Except Error σ) (rs : List Record) (s : σ) :
    let done := (rs.forM fun r => Action.update fun s => f s r).exec s
    rs.foldlM f s = done.1.map fun _ => done.2 := by
  induction rs generalizing s with
  | nil => rfl
  | cons r rs ih =>
    have hcons : ((r :: rs).forM fun r => Action.update fun s => f s r).exec s =
        (do
          Action.update fun s => f s r
          rs.forM fun r => Action.update fun s => f s r : Action σ Unit).exec s := rfl
    rw [List.foldlM_cons, hcons, exec_bind, exec_update]
    cases hstep : f s r with
    | error e => rfl
    | ok next => exact ih next

/-- Parsing a structure hands its records over to the schema. -/
theorem Schema.parse_eq_handOver (S : Schema σ) (initial : σ) (bs : Bytes) :
    let done := (handOver (fun r => .update fun state => S.accept state r) bs).exec
      (initial, Tags.empty)
    S.parse initial bs = done.1.map fun _ => done.2 := by
  unfold parse handOver
  simp only [foldlM_eq_forM, exec_bind]
  rcases ((records bs).1.forM fun r => Action.update fun state => S.accept state r).exec
    (initial, Tags.empty) with ⟨e | ⟨⟩, state⟩
  · rfl
  · by_cases hleft : (records bs).2.isEmpty = true
    · simp only [hleft, if_true]
      rfl
    · simp only [hleft]
      rfl

end

/-- A handler that keeps all that is handed over. -/
def keep (r : Record) : Action (List Record) Unit := modify (· ++ [r])

theorem exec_forM_keep (rs kept : List Record) :
    (rs.forM keep).exec kept = (.ok (), kept ++ rs) := by
  induction rs generalizing kept with
  | nil => simp [List.forM_nil]
  | cons r rs ih =>
    show (do keep r; rs.forM keep).exec kept = _
    rw [exec_bind]
    show (rs.forM keep).exec (kept ++ [r]) = _
    rw [ih, List.append_assoc, List.singleton_append]

theorem exec_handOver_keep (bs : Bytes) :
    (handOver keep bs).exec [] =
      (if (records bs).2 = [] then .ok () else .error .malformedTlv, (records bs).1) := by
  unfold handOver
  rw [exec_bind, exec_forM_keep, List.nil_append]
  cases hleft : (records bs).2 with
  | nil => rfl
  | cons b left => rfl

/-- Reading moves on by at least one byte, and not beyond the last one. -/
theorem Varint.read?_suffix {bs rest more : Bytes} {v : Varint} (hrest : rest <:+ bs)
    (h : read? rest = some (v, more)) : more <:+ bs ∧ more.length < rest.length := by
  have hsuffix : more <:+ rest := ⟨v.bytes, (bytes_append h).symm⟩
  exact ⟨hsuffix.trans hrest, length_rest h⟩

theorem Record.read?_suffix {bs rest more : Bytes} {r : Record} (hrest : rest <:+ bs)
    (h : read? rest = some (r, more)) : more <:+ bs ∧ more.length < rest.length := by
  have hsuffix : more <:+ rest := ⟨r.raw, (raw_append h).symm⟩
  exact ⟨hsuffix.trans hrest, length_rest h⟩

/-- All records of a byte string are handed over, and nothing is objected to, just if the string is
made up of spellings of those records. It is made up of spellings in one way at most. If it is in
none, the records of the longest front that is are handed over before the objection. The records
lie in the string one behind the other, and whatever is read on the way is read from bytes that
are there and leaves fewer to read. -/
theorem handed_over_as_spelled (bs : Bytes) :
    (∀ rs, (handOver keep bs).exec [] = (.ok (), rs) ↔ ∃ ps, Split bs ps rs) ∧
    (∀ ps qs rs ss, Split bs ps rs → Split bs qs ss → ps = qs ∧ rs = ss) ∧
    ((∀ ps rs, ¬ Split bs ps rs) → ∃ front ps rs, front <+: bs ∧ Split front ps rs ∧
      (handOver keep bs).exec [] = (.error .malformedTlv, rs) ∧
      ∀ front' ps' rs', front' <+: bs → Split front' ps' rs' → front' <+: front) ∧
    (∀ ps rs, Split bs ps rs → rs.flatMap Record.raw = bs) ∧
    (let rs := ((handOver keep bs).exec []).2
      ∀ i r, rs[i]? = some r → offset rs (i + 1) = offset rs i + r.raw.length ∧
        offset rs (i + 1) ≤ bs.length ∧ (bs.drop (offset rs i)).take r.raw.length = r.raw) ∧
    ∀ rest, rest <:+ bs →
      (∀ v more, Varint.read? rest = some (v, more) →
        more <:+ bs ∧ more.length < rest.length) ∧
      (∀ r more, Record.read? rest = some (r, more) →
        more <:+ bs ∧ more.length < rest.length) := by
  have hspec := (records_spec bs).2
  rw [exec_handOver_keep]
  refine ⟨?_, fun ps qs rs ss h h' => h.unique h', ?_, fun ps rs h => h.raw_eq,
    fun i r hr => span_of_getElem? hspec hr,
    fun rest hrest => ⟨fun v more h => Varint.read?_suffix hrest h,
      fun r more h => Record.read?_suffix hrest h⟩⟩
  · intro rs
    rw [split_iff]
    rcases records bs with ⟨rs', left⟩
    by_cases hleft : left = [] <;> simp [hleft]
  · intro hnone
    obtain ⟨ps, hps⟩ := exists_split bs
    refine ⟨_, ps, _, ⟨_, hspec⟩, hps, ?_, fun front' ps' rs' hfront h => front_of_split hfront h⟩
    have hleft : (records bs).2 ≠ [] := by
      intro hleft
      rw [hleft, List.append_nil] at hspec
      rw [hspec] at hps
      exact hnone ps _ hps
    rw [if_neg hleft]

end ClearSign.Tlv
