import ClearSign.Text.Utf8
import Mathlib.Algebra.Group.Nat.Defs

/-!
Bytes read as text, against the bytes that each character is written as. Reading goes from
character to character; where none stands, the longest stretch that begins one counts as one
ill-formed part, or a single byte that begins none.
-/

namespace ClearSign.Utf8

/-- The bytes of some character begin with these. -/
def Begins (bs : Bytes) : Prop := ∃ c t, String.utf8EncodeChar c = bs ++ t

/-- A part in front of other bytes that is no character: it begins one, and no longer part does, or
it is a single byte. -/
structure IllFormed (part rest : Bytes) : Prop where
  nonempty : part ≠ []
  no_character : ∀ c, String.utf8EncodeChar c ≠ part
  begins : Begins part ∨ part.length = 1
  longest : ∀ b ∈ rest.head?, ¬ Begins (part ++ [b])

/-- The text that bytes read as, with each ill-formed part replaced. -/
inductive Reads : Bytes → List Char → Prop
  | nil : Reads [] []
  | character (c : Char) {rest : Bytes} {cs : List Char} (h : Reads rest cs) :
      Reads (String.utf8EncodeChar c ++ rest) (c :: cs)
  | replaced {part rest : Bytes} {cs : List Char} (hpart : IllFormed part rest)
      (h : Reads rest cs) : Reads (part ++ rest) (replacement :: cs)

/-- The inside of a character after one more byte. -/
def Partial.next (p : Partial) (b : UInt8) : Partial := ⟨p.due - 1, p.extend b, 0x80, 0xbf⟩

/-- The next byte may be this one. -/
def Partial.Admits (p : Partial) (b : UInt8) : Prop := p.low ≤ b ∧ b ≤ p.high

/-- Bytes that lead from the inside of a character to its end. -/
def Spells (c : Char) : Bytes → Partial → Prop
  | [], _ => False
  | b :: t, p => p.Admits b ∧
      if p.due ≤ 1 then t = [] ∧ c.toNat = p.extend b else Spells c t (p.next b)

/-- Some byte is admitted, and every one that is leads to numbers of characters only. -/
structure Partial.Valid (p : Partial) : Prop where
  range : p.low ≤ p.high
  numbers : ∀ b, p.Admits b → ∀ r < 64 ^ (p.due - 1),
    (p.extend b * 64 ^ (p.due - 1) + r).isValidChar

theorem toNat_ofNat {n : Nat} (h : n.isValidChar) : (Char.ofNat n).toNat = n := by
  unfold Char.ofNat
  rw [dif_pos h]
  rfl

section

variable {p : Partial} {b : UInt8} {c : Char}

theorem Partial.Valid.next (h : p.Valid) (hb : p.Admits b) (hdue : ¬ p.due ≤ 1) :
    (p.next b).Valid := by
  refine ⟨show (0x80 : UInt8) ≤ 0xbf by decide, ?_⟩
  intro b' _ r hr
  obtain ⟨k, hk⟩ : ∃ k, p.due - 1 = k + 1 := ⟨p.due - 2, by omega⟩
  have hdue' : (p.next b).due - 1 = k := by
    show p.due - 1 - 1 = k
    omega
  rw [hdue'] at hr ⊢
  have hlow : b'.toNat % 64 < 64 := Nat.mod_lt _ (by omega)
  -- the bits of the byte and all behind them stay below one step of the bits before
  have hbehind : b'.toNat % 64 * 64 ^ k + r < 64 ^ (p.due - 1) := by
    rw [hk, Nat.pow_succ']
    calc b'.toNat % 64 * 64 ^ k + r
        < b'.toNat % 64 * 64 ^ k + 64 ^ k := Nat.add_lt_add_left hr _
      _ = (b'.toNat % 64 + 1) * 64 ^ k := (Nat.succ_mul _ _).symm
      _ ≤ 64 * 64 ^ k := Nat.mul_le_mul_right _ hlow
  have hsum : (p.next b).extend b' * 64 ^ k + r =
      p.extend b * 64 ^ (p.due - 1) + (b'.toNat % 64 * 64 ^ k + r) := by
    show (p.extend b * 64 + b'.toNat % 64) * 64 ^ k + r = _
    rw [hk, Nat.pow_succ', Nat.add_mul, Nat.mul_assoc, Nat.add_assoc]
  rw [hsum]
  exact h.numbers b hb _ hbehind

/-- An admitted byte that ends a character leads to its number. -/
theorem Partial.Valid.toNat_ofNat (h : p.Valid) (hb : p.Admits b) (hdue : p.due ≤ 1) :
    (Char.ofNat (p.extend b)).toNat = p.extend b := by
  have hlast : p.due - 1 = 0 := by omega
  have hvalid := h.numbers b hb 0 (by rw [hlast]; decide)
  rw [hlast, Nat.pow_zero, Nat.mul_one, Nat.add_zero] at hvalid
  exact Utf8.toNat_ofNat hvalid

/-- From the inside of a character every admitted byte can be completed. -/
theorem Partial.Valid.completes (h : p.Valid) (hb : p.Admits b) : ∃ c t, Spells c (b :: t) p := by
  generalize hdue : p.due = due
  induction due generalizing p b with
  | zero =>
    have hlast : p.due ≤ 1 := by omega
    exact ⟨_, [], hb, by rw [if_pos hlast]; exact ⟨rfl, h.toNat_ofNat hb hlast⟩⟩
  | succ due ih =>
    by_cases hlast : p.due ≤ 1
    · exact ⟨_, [], hb, by rw [if_pos hlast]; exact ⟨rfl, h.toNat_ofNat hb hlast⟩⟩
    · have hnext : (p.next b).due = due := by
        show p.due - 1 = due
        omega
      have hvalid := h.next hb hlast
      obtain ⟨c, t, hspells⟩ := ih hvalid ⟨UInt8.le_refl _, hvalid.range⟩ hnext
      exact ⟨c, _ :: t, hb, by rw [if_neg hlast]; exact hspells⟩

theorem feed_admitted (hb : p.Admits b) : feed (some p) b =
    if p.due ≤ 1 then ([some (Char.ofNat (p.extend b))], none) else ([], some (p.next b)) :=
  if_pos hb

theorem feed_refused (hb : ¬ p.Admits b) :
    feed (some p) b = (none :: (enter b).1, (enter b).2) := if_neg hb

/-- Bytes that complete a character make one unit. -/
theorem units_of_spells {t rest : Bytes} (h : Spells c t p) :
    units (some p) (t ++ rest) = some c :: units none rest := by
  induction t generalizing p with
  | nil => exact h.elim
  | cons b t ih =>
    obtain ⟨hb, h⟩ := h
    rw [List.cons_append, units, feed_admitted hb]
    by_cases hlast : p.due ≤ 1
    · rw [if_pos hlast] at h ⊢
      obtain ⟨rfl, hc⟩ := h
      rw [← hc, Char.ofNat_toNat]
      rfl
    · rw [if_neg hlast] at h ⊢
      exact ih h

/-- Inside a character some of its bytes lead further inside. -/
theorem inside_of_spells {seen t : Bytes} (hvalid : p.Valid) (h : Spells c (seen ++ t) p)
    (ht : t ≠ []) : ∃ q : Partial, q.Valid ∧ (∀ c t, Spells c (seen ++ t) p ↔ Spells c t q) ∧
      ∀ rest, units (some p) (seen ++ rest) = units (some q) rest := by
  induction seen generalizing p with
  | nil => exact ⟨p, hvalid, fun _ _ => Iff.rfl, fun _ => rfl⟩
  | cons b seen ih =>
    obtain ⟨hb, h⟩ := h
    by_cases hlast : p.due ≤ 1
    · rw [if_pos hlast] at h
      exact absurd (List.append_eq_nil_iff.mp h.1).2 ht
    · rw [if_neg hlast] at h
      obtain ⟨q, hq, hspells, hunits⟩ := ih (hvalid.next hb hlast) h
      refine ⟨q, hq, fun c t => ?_, fun rest => ?_⟩
      · rw [← hspells, List.cons_append, Spells, if_neg hlast]
        exact and_iff_right hb
      · rw [← hunits, List.cons_append, units, feed_admitted hb, if_neg hlast]
        rfl

end

/-- What a first byte announces, by its number. -/
theorem lead_eq (b : UInt8) : lead b =
    if b.toNat < 0x80 then .whole (Char.ofNat b.toNat)
    else if b.toNat < 0xc2 then .stray
    else if b.toNat < 0xe0 then .opens ⟨1, b.toNat - 0xc0, 0x80, 0xbf⟩
    else if b.toNat = 0xe0 then .opens ⟨2, 0, 0xa0, 0xbf⟩
    else if b.toNat = 0xed then .opens ⟨2, 0xd, 0x80, 0x9f⟩
    else if b.toNat < 0xf0 then .opens ⟨2, b.toNat - 0xe0, 0x80, 0xbf⟩
    else if b.toNat = 0xf0 then .opens ⟨3, 0, 0x90, 0xbf⟩
    else if b.toNat < 0xf4 then .opens ⟨3, b.toNat - 0xf0, 0x80, 0xbf⟩
    else if b.toNat = 0xf4 then .opens ⟨3, 4, 0x80, 0x8f⟩
    else .stray := by
  unfold lead
  simp only [UInt8.lt_iff_toNat_lt, ← UInt8.toNat_inj]
  rfl

section

variable {b : UInt8}

theorem lead_one (h : b.toNat < 0x80) : lead b = .whole (Char.ofNat b.toNat) := by
  rw [lead_eq, if_pos h]

theorem lead_two (h : 0xc2 ≤ b.toNat) (h' : b.toNat < 0xe0) :
    lead b = .opens ⟨1, b.toNat - 0xc0, 0x80, 0xbf⟩ := by
  rw [lead_eq, if_neg (by omega), if_neg (by omega), if_pos h']

theorem lead_three (h : 0xe0 ≤ b.toNat) (h' : b.toNat < 0xf0) :
    lead b = .opens ⟨2, b.toNat - 0xe0, if b.toNat = 0xe0 then 0xa0 else 0x80,
      if b.toNat = 0xed then 0x9f else 0xbf⟩ := by
  rw [lead_eq, if_neg (by omega), if_neg (by omega), if_neg (by omega)]
  by_cases hfirst : b.toNat = 0xe0
  · simp [hfirst]
  · by_cases hbefore : b.toNat = 0xed
    · simp [hbefore]
    · simp only [if_neg hfirst, if_neg hbefore, if_pos h']

theorem lead_four (h : 0xf0 ≤ b.toNat) (h' : b.toNat < 0xf5) :
    lead b = .opens ⟨3, b.toNat - 0xf0, if b.toNat = 0xf0 then 0x90 else 0x80,
      if b.toNat = 0xf4 then 0x8f else 0xbf⟩ := by
  rw [lead_eq, if_neg (by omega), if_neg (by omega), if_neg (by omega), if_neg (by omega),
    if_neg (by omega), if_neg (by omega)]
  by_cases hfirst : b.toNat = 0xf0
  · simp [hfirst]
  · by_cases hlast : b.toNat = 0xf4
    · simp [hlast]
    · simp only [if_neg hfirst, if_neg hlast, if_pos (show b.toNat < 0xf4 by omega)]

theorem lead_stray (h : 0x80 ≤ b.toNat ∧ b.toNat < 0xc2 ∨ 0xf5 ≤ b.toNat) : lead b = .stray := by
  rw [lead_eq]
  rcases h with ⟨h, h'⟩ | h
  · rw [if_neg (by omega), if_pos h']
  · rw [if_neg (by omega), if_neg (by omega), if_neg (by omega), if_neg (by omega),
      if_neg (by omega), if_neg (by omega), if_neg (by omega), if_neg (by omega),
      if_neg (by omega)]

end

/-- The five kinds of first bytes. -/
theorem first_cases (b : UInt8) :
    b.toNat < 0x80 ∨ (0xc2 ≤ b.toNat ∧ b.toNat < 0xe0) ∨ (0xe0 ≤ b.toNat ∧ b.toNat < 0xf0) ∨
      (0xf0 ≤ b.toNat ∧ b.toNat < 0xf5) ∨
      (0x80 ≤ b.toNat ∧ b.toNat < 0xc2 ∨ 0xf5 ≤ b.toNat) := by
  omega

/-- The bytes of a character as numbers. -/
def codes (v : Nat) : List Nat :=
  if v ≤ 127 then [v]
  else if v ≤ 2047 then [v / 64 + 192, v % 64 + 128]
  else if v ≤ 65535 then [v / 4096 + 224, v / 64 % 64 + 128, v % 64 + 128]
  else [v / 262144 + 240, v / 4096 % 64 + 128, v / 64 % 64 + 128, v % 64 + 128]

theorem encode_eq_iff {c : Char} {bs : Bytes} :
    String.utf8EncodeChar c = bs ↔ codes c.toNat = bs.map UInt8.toNat := by
  have hlast : c.toNat < 1114112 := by
    rcases c.valid with h | ⟨-, h⟩
    · exact Nat.lt_trans h (by decide)
    · exact h
  have hcodes : (String.utf8EncodeChar c).map UInt8.toNat = codes c.toNat := by
    unfold String.utf8EncodeChar codes
    show List.map _ (if c.toNat ≤ 127 then _ else if c.toNat ≤ 2047 then _
      else if c.toNat ≤ 65535 then _ else _) = _
    split
    · simp; omega
    · split
      · simp; omega
      · split <;> simp <;> omega
  rw [← hcodes, List.map_inj_right fun _ _ => UInt8.toNat_inj.mp]

section

variable {n v : Nat} {ns : List Nat}

theorem codes_one (hn : n < 0x80) : codes v = n :: ns ↔ v = n ∧ ns = [] := by
  unfold codes
  constructor
  · intro h
    repeat' split at h
    all_goals simp only [List.cons.injEq] at h
    all_goals first | omega | exact ⟨h.1, h.2.symm⟩
  · rintro ⟨rfl, rfl⟩
    rw [if_pos (by omega)]

theorem codes_two (hn : 0xc2 ≤ n) (hn' : n < 0xe0) : codes v = n :: ns ↔ ∃ x, ns = [x] ∧
    0x80 ≤ x ∧ x ≤ 0xbf ∧ v = (n - 0xc0) * 64 + x % 64 := by
  unfold codes
  constructor
  · intro h
    repeat' split at h
    all_goals simp only [List.cons.injEq] at h
    all_goals first | omega | exact ⟨_, h.2.symm, by omega⟩
  · rintro ⟨x, rfl, hx, hx', hv⟩
    rw [if_neg (by omega), if_pos (by omega)]
    simp only [List.cons.injEq, and_true]
    omega

theorem codes_three (hn : 0xe0 ≤ n) (hn' : n < 0xf0) (hv : v < 0x110000) : codes v = n :: ns ↔
    ∃ x y, ns = [x, y] ∧ 0x80 ≤ x ∧ x ≤ 0xbf ∧ 0x80 ≤ y ∧ y ≤ 0xbf ∧
      v = ((n - 0xe0) * 64 + x % 64) * 64 + y % 64 ∧ 0x800 ≤ v := by
  unfold codes
  constructor
  · intro h
    repeat' split at h
    all_goals simp only [List.cons.injEq] at h
    all_goals first | omega | exact ⟨_, _, h.2.symm, by omega⟩
  · rintro ⟨x, y, rfl, hx, hx', hy, hy', hv⟩
    rw [if_neg (by omega), if_neg (by omega), if_pos (by omega)]
    simp only [List.cons.injEq, and_true]
    omega

theorem codes_four (hn : 0xf0 ≤ n) (hv : v < 0x110000) : codes v = n :: ns ↔
    ∃ x y z, ns = [x, y, z] ∧ 0x80 ≤ x ∧ x ≤ 0xbf ∧ 0x80 ≤ y ∧ y ≤ 0xbf ∧ 0x80 ≤ z ∧ z ≤ 0xbf ∧
      v = (((n - 0xf0) * 64 + x % 64) * 64 + y % 64) * 64 + z % 64 ∧ 0x10000 ≤ v := by
  unfold codes
  constructor
  · intro h
    repeat' split at h
    all_goals simp only [List.cons.injEq] at h
    all_goals first | omega | exact ⟨_, _, _, h.2.symm, by omega⟩
  · rintro ⟨x, y, z, rfl, hx, hx', hy, hy', hz, hz', hv⟩
    rw [if_neg (by omega), if_neg (by omega), if_neg (by omega)]
    simp only [List.cons.injEq, and_true]
    omega

/-- No character is written with such a byte first. -/
theorem codes_stray (hn : 0x80 ≤ n ∧ n < 0xc2 ∨ 0xf5 ≤ n) (hv : v < 0x110000) :
    codes v ≠ n :: ns := by
  unfold codes
  intro h
  repeat' split at h
  all_goals simp only [List.cons.injEq] at h
  all_goals omega

end

section

variable {c : Char} {t : Bytes} {bits : Nat} {low high : UInt8}

/-- A character that one more byte ends. -/
theorem spells_one : Spells c t ⟨1, bits, low, high⟩ ↔ ∃ x, t.map UInt8.toNat = [x] ∧
    low.toNat ≤ x ∧ x ≤ high.toNat ∧ c.toNat = bits * 64 + x % 64 := by
  rcases t with _ | ⟨a, _ | ⟨b, t⟩⟩ <;>
    simp [Spells, Partial.Admits, Partial.extend, UInt8.le_iff_toNat_le, and_assoc]

theorem spells_two : Spells c t ⟨2, bits, low, high⟩ ↔ ∃ x y, t.map UInt8.toNat = [x, y] ∧
    low.toNat ≤ x ∧ x ≤ high.toNat ∧ 0x80 ≤ y ∧ y ≤ 0xbf ∧
    c.toNat = (bits * 64 + x % 64) * 64 + y % 64 := by
  rcases t with _ | ⟨a, _ | ⟨b, _ | ⟨d, t⟩⟩⟩ <;>
    simp [Spells, Partial.Admits, Partial.extend, Partial.next, UInt8.le_iff_toNat_le, and_assoc]

theorem spells_three : Spells c t ⟨3, bits, low, high⟩ ↔ ∃ x y z,
    t.map UInt8.toNat = [x, y, z] ∧ low.toNat ≤ x ∧ x ≤ high.toNat ∧ 0x80 ≤ y ∧ y ≤ 0xbf ∧
    0x80 ≤ z ∧ z ≤ 0xbf ∧ c.toNat = ((bits * 64 + x % 64) * 64 + y % 64) * 64 + z % 64 := by
  rcases t with _ | ⟨a, _ | ⟨b, _ | ⟨d, _ | ⟨e, t⟩⟩⟩⟩ <;>
    simp [Spells, Partial.Admits, Partial.extend, Partial.next, UInt8.le_iff_toNat_le, and_assoc]

end

/-- The numbers that the inside of a character leads to make up a span, which has to keep clear of
those that are no characters. -/
theorem Partial.valid_of_span {p : Partial} (hlow : 0x80 ≤ p.low.toNat)
    (hrange : p.low.toNat ≤ p.high.toNat) (hhigh : p.high.toNat ≤ 0xbf)
    (hspan : (p.extend p.high + 1) * 64 ^ (p.due - 1) ≤ 0xd800 ∨
      0xe000 ≤ p.extend p.low * 64 ^ (p.due - 1) ∧
      (p.extend p.high + 1) * 64 ^ (p.due - 1) ≤ 0x110000) : p.Valid where
  range := UInt8.le_iff_toNat_le.mpr hrange
  numbers b hb r hr := by
    obtain ⟨hb, hb'⟩ := hb
    rw [UInt8.le_iff_toNat_le] at hb hb'
    have hleast : p.extend p.low ≤ p.extend b := by
      unfold extend
      omega
    have hmost : p.extend b ≤ p.extend p.high := by
      unfold extend
      omega
    have hfirst := Nat.mul_le_mul_right (64 ^ (p.due - 1)) hleast
    have hlast : p.extend b * 64 ^ (p.due - 1) + r < (p.extend p.high + 1) * 64 ^ (p.due - 1) :=
      calc p.extend b * 64 ^ (p.due - 1) + r
          < p.extend b * 64 ^ (p.due - 1) + 64 ^ (p.due - 1) := Nat.add_lt_add_left hr _
        _ = (p.extend b + 1) * 64 ^ (p.due - 1) := (Nat.succ_mul _ _).symm
        _ ≤ (p.extend p.high + 1) * 64 ^ (p.due - 1) :=
          Nat.mul_le_mul_right _ (Nat.succ_le_succ hmost)
    rcases hspan with hbefore | ⟨hbehind, hend⟩
    · exact .inl (Nat.lt_of_lt_of_le hlast hbefore)
    · exact .inr ⟨by omega, Nat.lt_of_lt_of_le hlast hend⟩

/-- The numbers that the bytes behind a first byte lead to are those of characters. -/
theorem valid_of_lead {b : UInt8} {p : Partial} (h : lead b = .opens p) : p.Valid := by
  rcases first_cases b with hn | ⟨hn, hn'⟩ | ⟨hn, hn'⟩ | ⟨hn, hn'⟩ | hn
  · rw [lead_one hn] at h
    cases h
  · rw [lead_two hn hn'] at h
    cases h
    apply Partial.valid_of_span
    all_goals
      simp only [Partial.extend, UInt8.reduceToNat, Nat.reduceSub, Nat.reducePow]
      omega
  · rw [lead_three hn hn'] at h
    cases h
    apply Partial.valid_of_span
    all_goals
      simp only [Partial.extend, apply_ite UInt8.toNat, UInt8.reduceToNat, Nat.reduceSub,
        Nat.reducePow]
      repeat' split
      all_goals omega
  · rw [lead_four hn hn'] at h
    cases h
    apply Partial.valid_of_span
    all_goals
      simp only [Partial.extend, apply_ite UInt8.toNat, UInt8.reduceToNat, Nat.reduceSub,
        Nat.reducePow]
      repeat' split
      all_goals omega
  · rw [lead_stray hn] at h
    cases h

/-- A character is written with a first byte and the bytes that it announces. -/
theorem encode_eq_cons {b : UInt8} {c : Char} {t : Bytes} :
    String.utf8EncodeChar c = b :: t ↔
      (lead b = .whole c ∧ t = []) ∨ ∃ p, lead b = .opens p ∧ Spells c t p := by
  have hvalid : c.toNat < 0xd800 ∨ 0xdfff < c.toNat ∧ c.toNat < 0x110000 := c.valid
  have hlast : c.toNat < 0x110000 := by omega
  rw [encode_eq_iff, List.map_cons]
  rcases first_cases b with hn | ⟨hn, hn'⟩ | ⟨hn, hn'⟩ | ⟨hn, hn'⟩ | hn
  · have hsame : c.toNat = b.toNat ↔ Char.ofNat b.toNat = c := by
      constructor
      · intro hc
        rw [← hc, Char.ofNat_toNat]
      · intro hc
        rw [← hc, toNat_ofNat (.inl (by omega))]
    simp [codes_one hn, lead_one hn, hsame]
  · simp [codes_two hn hn', lead_two hn hn', spells_one]
  · simp only [codes_three hn hn' hlast, lead_three hn hn', reduceCtorEq, false_and, false_or,
      Lead.opens.injEq, exists_eq_left', spells_two]
    refine exists_congr fun x => exists_congr fun y => and_congr_right fun _ => ?_
    simp only [apply_ite UInt8.toNat, UInt8.reduceToNat]
    repeat' split
    all_goals omega
  · simp only [codes_four hn hlast, lead_four hn hn', reduceCtorEq, false_and, false_or,
      Lead.opens.injEq, exists_eq_left', spells_three]
    refine exists_congr fun x => exists_congr fun y => exists_congr fun z =>
      and_congr_right fun _ => ?_
    simp only [apply_ite UInt8.toNat, UInt8.reduceToNat]
    repeat' split
    all_goals omega
  · simp [codes_stray hn hlast, lead_stray hn]

section

variable {part rest bs : Bytes} {c : Char}

/-- Bytes have led inside a character, and this is how it goes on. -/
structure Inside (seen : Bytes) (p : Partial) : Prop where
  nonempty : seen ≠ []
  valid : p.Valid
  spells : ∀ c t, String.utf8EncodeChar c = seen ++ t ↔ Spells c t p

namespace Inside

variable {seen : Bytes} {p : Partial} {b : UInt8}

theorem of_lead (h : lead b = .opens p) : Inside [b] p where
  nonempty := List.cons_ne_nil _ _
  valid := valid_of_lead h
  spells c t := by
    rw [List.singleton_append, encode_eq_cons, h]
    simp

theorem no_character (h : Inside seen p) (c : Char) : String.utf8EncodeChar c ≠ seen := by
  intro hc
  exact (h.spells c []).mp (by rw [hc, List.append_nil])

theorem begins (h : Inside seen p) : Begins seen := by
  obtain ⟨c, t, hspells⟩ := h.valid.completes ⟨UInt8.le_refl _, h.valid.range⟩
  exact ⟨c, _, (h.spells c _).mpr hspells⟩

/-- Only a byte that is admitted leads on. -/
theorem begins_iff (h : Inside seen p) : Begins (seen ++ [b]) ↔ p.Admits b := by
  unfold Begins
  simp only [List.append_assoc, List.singleton_append, h.spells]
  exact ⟨fun ⟨_, _, hspells⟩ => hspells.1, h.valid.completes⟩

theorem next (h : Inside seen p) (hb : p.Admits b) (hdue : ¬ p.due ≤ 1) :
    Inside (seen ++ [b]) (p.next b) where
  nonempty := by simp
  valid := h.valid.next hb hdue
  spells c t := by
    rw [List.append_assoc, h.spells, List.singleton_append, Spells, if_neg hdue]
    exact and_iff_right hb

theorem last (h : Inside seen p) (hb : p.Admits b) (hdue : p.due ≤ 1) :
    String.utf8EncodeChar (Char.ofNat (p.extend b)) = seen ++ [b] := by
  rw [h.spells, Spells, if_pos hdue]
  exact ⟨hb, rfl, h.valid.toNat_ofNat hb hdue⟩

/-- The part that has begun is ill-formed where it cannot go on. -/
theorem illFormed (h : Inside seen p) (rest : Bytes) (hrest : ∀ b ∈ rest.head?, ¬ p.Admits b) :
    IllFormed seen rest where
  nonempty := h.nonempty
  no_character := h.no_character
  begins := .inl h.begins
  longest b hb hbegins := hrest b hb (h.begins_iff.mp hbegins)

/-- From inside a character bytes lead to its end, or to where it cannot go on. -/
theorem ends (h : Inside seen p) (bs : Bytes) : ∃ t rest, bs = t ++ rest ∧
    ((∃ c, String.utf8EncodeChar c = seen ++ t) ∨ IllFormed (seen ++ t) rest) := by
  induction bs generalizing seen p with
  | nil => exact ⟨[], [], rfl, .inr (by simpa using h.illFormed [] (by simp))⟩
  | cons b bs ih =>
    by_cases hb : p.Admits b
    · by_cases hdue : p.due ≤ 1
      · exact ⟨[b], bs, rfl, .inl ⟨_, h.last hb hdue⟩⟩
      · obtain ⟨t, rest, rfl, hends⟩ := ih (h.next hb hdue)
        exact ⟨b :: t, rest, rfl, by simpa using hends⟩
    · exact ⟨[], b :: bs, rfl, .inr (by simpa using h.illFormed (b :: bs) (by simpa))⟩

end Inside

variable {part rest bs : Bytes}

/-- Bytes that begin a character and are not all of it lead inside it. -/
theorem Begins.inside (h : Begins part) (hnonempty : part ≠ [])
    (hpart : ∀ c, String.utf8EncodeChar c ≠ part) :
    ∃ p, Inside part p ∧ ∀ rest, units none (part ++ rest) = units (some p) rest := by
  obtain ⟨c, t, hc⟩ := h
  obtain ⟨b, seen, rfl⟩ := List.exists_cons_of_ne_nil hnonempty
  have ht : t ≠ [] := by
    rintro rfl
    exact hpart c (by rw [hc, List.append_nil])
  rcases encode_eq_cons.mp hc with ⟨-, hnil⟩ | ⟨p, hlead, hspells⟩
  · exact absurd (List.append_eq_nil_iff.mp hnil).2 ht
  · obtain ⟨q, hvalid, hsame, hunits⟩ := inside_of_spells (valid_of_lead hlead) hspells ht
    refine ⟨q, ⟨hnonempty, hvalid, fun c t => ?_⟩, fun rest => ?_⟩
    · rw [List.cons_append, encode_eq_cons, hlead, ← hsame]
      simp
    · rw [← hunits, List.cons_append, units]
      simp only [feed, enter, hlead, List.nil_append]

/-- A character is one unit. -/
theorem units_encode (c : Char) (rest : Bytes) :
    units none (String.utf8EncodeChar c ++ rest) = some c :: units none rest := by
  have hnonempty : String.utf8EncodeChar c ≠ [] := by
    rw [← List.length_pos_iff, String.length_utf8EncodeChar]
    exact c.utf8Size_pos
  obtain ⟨b, t, hc⟩ := List.exists_cons_of_ne_nil hnonempty
  rw [hc, List.cons_append, units]
  rcases encode_eq_cons.mp hc with ⟨hlead, rfl⟩ | ⟨p, hlead, hspells⟩
  · simp only [feed, enter, hlead, List.nil_append, List.singleton_append]
  · simp only [feed, enter, hlead, List.nil_append]
    exact units_of_spells hspells

/-- A byte that begins no character is a stray one. -/
theorem lead_eq_stray {b : UInt8} (h : ¬ Begins [b]) : lead b = .stray := by
  cases hlead : lead b with
  | whole c => exact absurd ⟨c, [], encode_eq_cons.mpr (.inl ⟨hlead, rfl⟩)⟩ h
  | opens p => exact absurd (Inside.of_lead hlead).begins h
  | stray => rfl

/-- An ill-formed part is one unit. -/
theorem units_illFormed (h : IllFormed part rest) :
    units none (part ++ rest) = none :: units none rest := by
  by_cases hbegins : Begins part
  · obtain ⟨p, hinside, hunits⟩ := hbegins.inside h.nonempty h.no_character
    rw [hunits]
    cases rest with
    | nil => rfl
    | cons b rest =>
      have hrefused : ¬ p.Admits b := fun hb => h.longest b rfl (hinside.begins_iff.mpr hb)
      rw [units, feed_refused hrefused, units]
      rfl
  · obtain ⟨b, rfl⟩ := List.length_eq_one_iff.mp (h.begins.resolve_left hbegins)
    rw [List.singleton_append, units]
    simp only [feed, enter, lead_eq_stray hbegins, List.singleton_append]

/-- Bytes start with a character or with an ill-formed part. -/
theorem starts (hbs : bs ≠ []) : ∃ part rest, bs = part ++ rest ∧ part ≠ [] ∧
    ((∃ c, String.utf8EncodeChar c = part) ∨ IllFormed part rest) := by
  obtain ⟨b, bs, rfl⟩ := List.exists_cons_of_ne_nil hbs
  cases hlead : lead b with
  | whole c =>
    exact ⟨[b], bs, rfl, List.cons_ne_nil _ _, .inl ⟨c, encode_eq_cons.mpr (.inl ⟨hlead, rfl⟩)⟩⟩
  | opens p =>
    obtain ⟨t, rest, rfl, hends⟩ := (Inside.of_lead hlead).ends bs
    exact ⟨b :: t, rest, rfl, List.cons_ne_nil _ _, hends⟩
  | stray =>
    have hnone : ∀ c t, String.utf8EncodeChar c ≠ b :: t := by
      intro c t hc
      simpa [hlead] using encode_eq_cons.mp hc
    refine ⟨[b], bs, rfl, List.cons_ne_nil _ _, .inr ⟨List.cons_ne_nil _ _, fun c => hnone c [],
      .inr rfl, ?_⟩⟩
    rintro d - ⟨c, t, hc⟩
    exact hnone c _ hc

theorem exists_reads (bs : Bytes) : ∃ cs, Reads bs cs := by
  generalize hlength : bs.length = n
  induction n using Nat.strongRecOn generalizing bs with
  | ind n ih =>
    by_cases hbs : bs = []
    · exact ⟨[], hbs ▸ .nil⟩
    · obtain ⟨part, rest, rfl, hpart, hstarts⟩ := starts hbs
      have hshorter : rest.length < n := by
        have := List.length_pos_iff.mpr hpart
        rw [List.length_append] at hlength
        omega
      obtain ⟨cs, hcs⟩ := ih _ hshorter rest rfl
      rcases hstarts with ⟨c, rfl⟩ | hill
      · exact ⟨c :: cs, .character c hcs⟩
      · exact ⟨replacement :: cs, .replaced hill hcs⟩

/-- The text with every ill-formed part replaced is what the bytes read as, and the only such
text. -/
theorem reads_iff {cs : List Char} : Reads bs cs ↔ lossy bs = cs := by
  have hlossy {bs : Bytes} {cs : List Char} (h : Reads bs cs) : lossy bs = cs := by
    induction h with
    | nil => rfl
    | character c _ ih =>
      rw [← ih]
      unfold lossy
      rw [units_encode]
      rfl
    | replaced hpart _ ih =>
      rw [← ih]
      unfold lossy
      rw [units_illFormed hpart]
      rfl
  constructor
  · exact hlossy
  · rintro rfl
    obtain ⟨cs, hcs⟩ := exists_reads bs
    rw [hlossy hcs]
    exact hcs

end

end ClearSign.Utf8
