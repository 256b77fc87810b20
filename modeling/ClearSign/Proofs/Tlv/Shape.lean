import ClearSign.Proofs.Tlv.Acceptance
import Mathlib.Data.List.Forall2
import Mathlib.Data.List.Nodup

/-!
What the records of a structure look like. Where the rules of a schema judge a record by its value
alone, a table of shapes says what they take, and bytes are parsed just if they are whole records,
no two of one tag, that all fit the table.
-/

namespace ClearSign.Tlv

open Refusal

/-- What the value under a tag must be like. -/
structure Shape where
  tag : UInt8
  fits : Bytes → Bool

namespace Shape

def atMost (n : Nat) (value : Bytes) : Bool := decide (value.length ≤ n)

def exactly (n : Nat) (value : Bytes) : Bool := decide (value.length = n)

def anything (_ : Bytes) : Bool := true

/-- Well-formed text of one to `max` bytes. -/
def isName (max : Nat) (value : Bytes) : Bool :=
  decide (value ≠ []) && atMost max value && (Utf8.strict? value).isSome

/-- One given byte. -/
def isByte (b : UInt8) (value : Bytes) : Bool := decide (value = [b])

/-- At most `width` bytes that spell a given number. -/
def isNumber (width : Nat) (n : UInt32) (value : Bytes) : Bool :=
  atMost width value && decide (UInt32.ofNat value.toNat = n)

/-- A record fits a table if its value is as the shape of its tag says. -/
def admits (shapes : List Shape) (r : Record) : Bool :=
  (shapes.find? (·.tag == r.tag)).any fun shape => shape.fits r.value

/-- Whole records, no two of one tag, that all fit a table. -/
structure WellFormed (shapes : List Shape) (bs : Bytes) : Prop where
  whole : (records bs).2 = []
  distinct : ((records bs).1.map Record.tag).Nodup
  admitted : ∀ r ∈ (records bs).1, admits shapes r = true

/-- The value under a tag is as the shape of the tag says. -/
theorem WellFormed.fits_under {shapes : List Shape} {bs : Bytes} {r : Record} {t : UInt8}
    (h : WellFormed shapes bs) (hr : r ∈ (records bs).1) (htag : r.tag = t) :
    ((shapes.find? (·.tag == t)).any fun shape => shape.fits r.value) = true := by
  rw [← htag]
  exact h.admitted r hr

end Shape

section

variable {σ : Type}

/-- A rule takes a record just if its value fits, and no two of its tag. -/
structure Rule.Takes (rule : Rule σ) (shape : Shape) : Prop where
  tag : rule.tag = shape.tag
  once : rule.repeats = false
  fits : ∀ r target, (rule.apply r target).toBool = shape.fits r.value

section

open Shape

variable {α : Type} {tag : UInt8} {fits : Bytes → Bool}

theorem toBool_bind_pure (e : Except Error α) (f : α → σ) :
    (e >>= fun a => pure (f a)).toBool = e.toBool := by
  cases e <;> rfl

/-- A rule that keeps what it reads off its record takes what can be read. -/
theorem takes_of_read {read : Record → Except Error α} {put : α → σ → σ}
    (h : ∀ r, (read r).toBool = fits r.value) :
    (Rule.once tag fun r t => do return put (← read r) t).Takes ⟨tag, fits⟩ :=
  ⟨rfl, rfl, fun r t => (toBool_bind_pure (read r) (put · t)).trans (h r)⟩

/-- A rule that makes something of any value takes all of them. -/
theorem takes_of_ok {put : Record → σ → σ} :
    (Rule.once tag fun r t => .ok (put r t)).Takes ⟨tag, anything⟩ := ⟨rfl, rfl, fun _ _ => rfl⟩

/-- A rule that only looks at what it reads takes what passes. -/
theorem takes_of_check {read : Record → Except Error α} {good : α → Prop} [DecidablePred good]
    {e : Error} (h : ∀ r, ((read r).toOption.any fun a => good a) = fits r.value) :
    (Rule.once tag fun r (t : σ) => do if good (← read r) then return t else throw e).Takes
      ⟨tag, fits⟩ := by
  refine ⟨rfl, rfl, fun r t => Eq.trans ?_ (h r)⟩
  show (read r >>= fun a => if good a then pure t else throw e).toBool = _
  cases read r with
  | error e => rfl
  | ok a => by_cases hgood : good a <;> simp [hgood, bind, Except.bind, pure, Except.pure, throw,
      throwThe, MonadExceptOf.throw, Except.toBool, Except.toOption]

end

namespace Record

open Shape

theorem toBool_asByte (r : Record) : r.asByte.toBool = exactly 1 r.value := by
  unfold asByte exactly
  match r.value with
  | [] | [_] => rfl
  | _ :: _ :: _ => simp [Except.toBool]

theorem toBool_asFixed (n : Nat) (r : Record) : (r.asFixed n).toBool = atMost n r.value := by
  unfold asFixed atMost
  split <;> simp [*, Except.toBool]

theorem toBool_asBytes (n : Nat) (r : Record) : (r.asBytes n).toBool = atMost n r.value := by
  unfold asBytes atMost
  split <;> simp [*, Except.toBool]

theorem toBool_asNat (n : Nat) (r : Record) : (r.asNat n).toBool = atMost n r.value := by
  unfold asNat atMost
  split <;> simp [*, Except.toBool]

theorem toBool_asUInt32 (r : Record) : r.asUInt32.toBool = atMost 4 r.value := by
  rw [← toBool_asNat, asUInt32]
  cases r.asNat 4 <;> rfl

theorem toBool_asUInt64 (r : Record) : r.asUInt64.toBool = atMost 8 r.value := by
  rw [← toBool_asNat, asUInt64]
  cases r.asNat 8 <;> rfl

theorem toBool_asName (max : Nat) (r : Record) : (r.asName max).toBool = isName max r.value := by
  unfold asName isName atMost
  split
  · rename_i h
    rcases h with h | h
    · simp [h, Except.toBool]
    · simp [Nat.not_le.mpr h, Except.toBool]
  · rename_i h
    obtain ⟨hne, hle⟩ := not_or.mp h
    cases Utf8.strict? r.value <;> simp [hne, Nat.le_of_not_lt hle, Except.toBool]

theorem value_of_asByte {r : Record} {b : UInt8} (h : r.asByte = .ok b) : r.value = [b] := by
  unfold asByte at h
  split at h
  · rename_i hvalue
    rw [hvalue, Except.ok.inj h]
  · cases h

theorem any_asByte (b : UInt8) (r : Record) :
    (r.asByte.toOption.any fun a => a = b) = isByte b r.value := by
  unfold asByte isByte
  match r.value with
  | [] => rfl
  | [_] => simp [Except.toOption]
  | _ :: _ :: _ => simp [Except.toOption]

theorem any_asUInt32 (n : UInt32) (r : Record) :
    (r.asUInt32.toOption.any fun m => m = n) = isNumber 4 n r.value := by
  unfold asUInt32 asNat isNumber atMost
  split <;> simp [*, Except.toOption, Functor.map, Except.map]

end Record

namespace Schema

variable {S : Schema σ} {shapes : List Shape}

/-- A table that says what each rule of a schema takes. -/
structure Tabled (S : Schema σ) (shapes : List Shape) : Prop where
  common : ∀ r state, (S.common r state).toBool = true
  rules : List.Forall₂ Rule.Takes S.rules shapes

/-- The rule of a tag takes what the shape of the tag says. -/
theorem Tabled.rule? (h : S.Tabled shapes) (t : UInt8) :
    Option.Rel Rule.Takes (S.rule? t) (shapes.find? (·.tag == t)) := by
  obtain ⟨-, hrules⟩ := h
  unfold Schema.rule?
  generalize S.rules = rules at hrules
  induction hrules with
  | nil => exact .none
  | @cons rule shape rules shapes takes _ ih =>
    by_cases htag : shape.tag = t
    · rw [List.find?_cons_of_pos (by simpa [takes.tag] using htag),
        List.find?_cons_of_pos (by simpa using htag)]
      exact .some takes
    · rw [List.find?_cons_of_neg (by simpa [takes.tag] using htag),
        List.find?_cons_of_neg (by simpa using htag)]
      exact ih

/-- A record that is taken fits the table, and its tag is new. -/
theorem Tabled.of_accept (h : S.Tabled shapes) {before after : σ × Tags} {r : Record}
    (ha : S.accept before r = .ok after) :
    Shape.admits shapes r = true ∧ r.tag ∉ before.2.list := by
  obtain ⟨rule, hrule, accepts⟩ := accepts_of_accept ha
  obtain ⟨target, -, happly⟩ := accepts.applied
  have hrel := h.rule? r.tag
  rw [hrule] at hrel
  unfold Shape.admits
  cases hshape : shapes.find? (·.tag == r.tag) with
  | none => simp [hshape] at hrel
  | some shape =>
    rw [hshape, Option.rel_some_some] at hrel
    refine ⟨?_, accepts.fresh hrel.once⟩
    rw [Option.any_some, ← hrel.fits r target, happly]
    rfl

/-- A record of a new tag that fits the table is taken. -/
theorem Tabled.accept (h : S.Tabled shapes) {r : Record} (hr : Shape.admits shapes r = true)
    (state : σ) {tags : Tags} (hfresh : r.tag ∉ tags.list) :
    ∃ made, S.accept (state, tags) r = .ok (made, tags.insert r.tag) := by
  have hrel := h.rule? r.tag
  unfold Shape.admits at hr
  cases hshape : shapes.find? (·.tag == r.tag) with
  | none => simp [hshape] at hr
  | some shape =>
    cases hrule : S.rule? r.tag with
    | none => simp [hshape, hrule] at hrel
    | some rule =>
      rw [hshape, hrule, Option.rel_some_some] at hrel
      rw [hshape, Option.any_some] at hr
      obtain ⟨target, htarget⟩ := exists_of_toBool (h.common r state)
      obtain ⟨made, hmade⟩ := exists_of_toBool ((hrel.fits r target).trans hr)
      refine ⟨made, ?_⟩
      simp [Schema.accept, hrule, hrel.once, Tags.contains, hfresh, htarget, hmade, bind,
        Except.bind, pure, Except.pure]

/-- Records of new tags that fit the table are taken one after the other. -/
theorem Tabled.foldlM_accept (h : S.Tabled shapes) {rs : List Record}
    (hrs : ∀ r ∈ rs, Shape.admits shapes r = true) (hdistinct : (rs.map Record.tag).Nodup)
    (state : σ) (tags : Tags) (hfresh : ∀ r ∈ rs, r.tag ∉ tags.list) :
    ∃ result, rs.foldlM S.accept (state, tags) = .ok result := by
  induction rs generalizing state tags with
  | nil => exact ⟨(state, tags), rfl⟩
  | cons r rs ih =>
    rw [List.forall_mem_cons] at hrs hfresh
    rw [List.map_cons, List.nodup_cons] at hdistinct
    obtain ⟨made, hmade⟩ := h.accept hrs.1 state hfresh.1
    obtain ⟨result, hresult⟩ := ih hrs.2 hdistinct.2 made (tags.insert r.tag) (by
      intro q hq hmem
      rcases List.mem_cons.mp hmem with heq | hmem
      · exact hdistinct.1 (heq ▸ List.mem_map_of_mem hq)
      · exact hfresh.2 q hq hmem)
    exact ⟨result, by rw [List.foldlM_cons, hmade]; exact hresult⟩

/-- Bytes are parsed just if they are well formed by the table. -/
theorem Tabled.parse_iff (h : S.Tabled shapes) (initial : σ) (bs : Bytes) :
    (∃ result, S.parse initial bs = .ok result) ↔ Shape.WellFormed shapes bs := by
  constructor
  · rintro ⟨result, hresult⟩
    obtain ⟨hall, hfold⟩ := records_of_parse hresult
    have hkept := foldlM_keeps (I := fun rs (p : σ × Tags) =>
        p.2.list = (rs.map Record.tag).reverse ∧ (rs.map Record.tag).Nodup ∧
          ∀ r ∈ rs, Shape.admits shapes r = true)
      (by
        rintro done r before after ⟨htags, hdistinct, hdone⟩ ha
        obtain ⟨_, -, accepts⟩ := accepts_of_accept ha
        obtain ⟨hr, hfresh⟩ := h.of_accept ha
        refine ⟨by simp [accepts.tags, htags], ?_, ?_⟩
        · rw [htags, List.mem_reverse] at hfresh
          rw [List.map_append, List.map_singleton, ← List.concat_eq_append]
          exact List.Nodup.concat hfresh hdistinct
        · exact List.forall_mem_append.mpr ⟨hdone, by simpa using hr⟩)
      _ ⟨rfl, List.nodup_nil, by simp⟩ hfold
    refine ⟨?_, hkept.2.1, hkept.2.2⟩
    have hspec := (records_spec bs).2
    rw [← hall] at hspec
    exact List.self_eq_append_right.mp hspec.symm
  · intro hbs
    obtain ⟨result, hresult⟩ := h.foldlM_accept hbs.admitted hbs.distinct initial Tags.empty
      (by simp [Tags.empty])
    exact ⟨result, by simp [Schema.parse, hresult, hbs.whole, bind, Except.bind, pure,
      Except.pure]⟩

end Schema

end

end ClearSign.Tlv
