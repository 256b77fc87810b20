import ClearSign.Proofs.Text.Digits
import ClearSign.Text.Duration
import Mathlib.Data.List.Basic

/-!
Lengths of time as texts. A text that is put together in the proper form reads back as a number of
seconds, and every number of seconds has just one such text.
-/

namespace ClearSign.Duration

open Decimal

inductive TimeUnit where
  | day
  | hour
  | minute
  | second
deriving DecidableEq

namespace TimeUnit

def seconds : TimeUnit → Nat
  | day => 86400
  | hour => 3600
  | minute => 60
  | second => 1

def letter : TimeUnit → Char
  | day => 'd'
  | hour => 'h'
  | minute => 'm'
  | second => 's'

/-- How many make one of the next larger unit. -/
def limit? : TimeUnit → Option Nat
  | day => none
  | hour => some 24
  | minute => some 60
  | second => some 60

def read? (c : Char) : Option TimeUnit := [day, hour, minute, second].find? (·.letter == c)

end TimeUnit

/-- A number of one unit, in its digits. -/
structure Part where
  digits : List Char
  unit : TimeUnit

namespace Part

def count (p : Part) : Nat := spelled p.digits

def seconds (p : Part) : Nat := p.count * p.unit.seconds

def chars (p : Part) : List Char := p.digits ++ [p.unit.letter]

/-- Days have as many digits as they need, and the smaller units have two. -/
def InForm (p : Part) : Prop :=
  match p.unit.limit? with
  | none => IsWhole p.digits
  | some limit => AllDigits p.digits ∧ p.digits.length = 2 ∧ p.count < limit

def read? (cs : List Char) : Option Part := do
  let unit ← TimeUnit.read? (← cs.getLast?)
  if isDigits cs.dropLast then some ⟨cs.dropLast, unit⟩ else none

end Part

def total : List Part → Nat
  | [] => 0
  | p :: parts => p.seconds + total parts

/-- Parts from the larger unit to the smaller, each in its form. -/
structure InOrder (parts : List Part) : Prop where
  descending : parts.Pairwise fun p q => q.unit.seconds < p.unit.seconds
  inForm : ∀ p ∈ parts, p.InForm

def nothing : Part := ⟨['0', '0'], .second⟩

/-- Units of which there are none are left out, unless there is nothing else to tell. -/
structure WellFormed (parts : List Part) : Prop extends InOrder parts where
  ne_nil : parts ≠ []
  positive : ∀ p ∈ parts, p.count = 0 → parts = [nothing]

/-- The parts that a text tells of, set apart by blanks. -/
def read? (cs : List Char) : Option (List Part) := (cs.splitOn ' ').mapM Part.read?

theorem TimeUnit.read?_eq_some_iff {c : Char} {unit : TimeUnit} :
    TimeUnit.read? c = some unit ↔ c = unit.letter := by
  constructor
  · intro h
    have hfound := List.find?_some h
    exact (beq_iff_eq.mp hfound).symm
  · rintro rfl
    cases unit <;> rfl

theorem TimeUnit.seconds_pos (unit : TimeUnit) : 0 < unit.seconds := by
  cases unit <;> decide

theorem TimeUnit.seconds_inj {unit unit' : TimeUnit} (h : unit.seconds = unit'.seconds) :
    unit = unit' := by
  cases unit <;> cases unit' <;> first | rfl | (revert h; decide)

/-- The units are multiples of each other. -/
theorem TimeUnit.limit_mul_le {unit larger : TimeUnit} (h : unit.seconds < larger.seconds) :
    ∃ limit, unit.limit? = some limit ∧ limit * unit.seconds ≤ larger.seconds := by
  cases unit <;> cases larger <;> first | exact ⟨_, rfl, by decide⟩ | (revert h; decide)

namespace Part

theorem read?_eq_some_iff {cs : List Char} {p : Part} :
    read? cs = some p ↔ cs = p.chars ∧ isDigits p.digits = true := by
  rcases List.eq_nil_or_concat cs with rfl | ⟨ds, c, rfl⟩
  · simp [read?, chars]
  · rw [List.concat_eq_append]
    constructor
    · intro h
      simp only [read?, List.getLast?_append, List.getLast?_singleton, Option.some_or,
        List.dropLast_concat, Option.bind_eq_bind, Option.bind_some,
        Option.bind_eq_some_iff] at h
      obtain ⟨unit, hunit, hp⟩ := h
      split at hp
      · cases hp
        rw [TimeUnit.read?_eq_some_iff] at hunit
        exact ⟨by rw [hunit]; rfl, by assumption⟩
      · cases hp
    · rintro ⟨hchars, hdigits⟩
      obtain ⟨rfl, hc⟩ := List.append_inj' hchars rfl
      have hunit : TimeUnit.read? c = some p.unit :=
        TimeUnit.read?_eq_some_iff.mpr (List.singleton_inj.mp hc)
      simp [read?, hunit, hdigits]

theorem InForm.isDigits {p : Part} (h : p.InForm) : isDigits p.digits = true := by
  rw [isDigits_iff]
  unfold InForm at h
  split at h
  · exact ⟨h.ne_nil, h.allDigits⟩
  · exact ⟨List.ne_nil_of_length_pos (by omega), h.1⟩

theorem InForm.blank_notMem {p : Part} (h : p.InForm) : ' ' ∉ p.chars := by
  have hdigits := (isDigits_iff.mp h.isDigits).2.notMem (c := ' ') rfl
  have hletter : ' ' ≠ p.unit.letter := by cases p.unit <;> decide
  simp [chars, hdigits, hletter]

/-- How a number of a unit is written is settled by the number. -/
theorem InForm.ext {p q : Part} (hp : p.InForm) (hq : q.InForm) (hunit : p.unit = q.unit)
    (hcount : p.count = q.count) : p = q := by
  obtain ⟨ds, unit⟩ := p
  obtain ⟨ds', unit'⟩ := q
  cases hunit
  change spelled ds = spelled ds' at hcount
  congr
  unfold InForm at hp hq
  split at hp <;> rename_i hlimit <;> rw [hlimit] at hq
  · exact hp.eq_digits.trans (hcount ▸ hq.eq_digits.symm)
  · exact eq_of_spelled_eq hp.1 hq.1 (hp.2.1.trans hq.2.1.symm) hcount

end Part

section

variable {parts parts' : List Part}

@[simp]
theorem total_nil : total [] = 0 := rfl

@[simp]
theorem total_cons (p : Part) (parts : List Part) :
    total (p :: parts) = p.seconds + total parts := rfl

theorem InOrder.tail {p : Part} (h : InOrder (p :: parts)) : InOrder parts where
  descending := h.descending.of_cons
  inForm q hq := h.inForm q (List.mem_cons_of_mem _ hq)

/-- All smaller units together do not make up one larger unit. -/
theorem InOrder.total_lt {unit : TimeUnit} (h : InOrder parts)
    (hsmaller : ∀ p ∈ parts, p.unit.seconds < unit.seconds) : total parts < unit.seconds := by
  induction parts generalizing unit with
  | nil => exact unit.seconds_pos
  | cons p rest ih =>
    -- The rest is less than one more of the first unit, of which there are fewer than make the next.
    have hrest : total rest < p.unit.seconds := ih h.tail (List.pairwise_cons.mp h.descending).1
    obtain ⟨limit, hlimit, hle⟩ := TimeUnit.limit_mul_le (hsmaller p List.mem_cons_self)
    have hform := h.inForm p List.mem_cons_self
    rw [Part.InForm, hlimit] at hform
    calc total (p :: rest) = p.count * p.unit.seconds + total rest := rfl
      _ < (p.count + 1) * p.unit.seconds := by rw [Nat.succ_mul]; omega
      _ ≤ limit * p.unit.seconds := Nat.mul_le_mul_right _ hform.2.2
      _ ≤ unit.seconds := hle

theorem InOrder.total_tail_lt {p : Part} (h : InOrder (p :: parts)) :
    total parts < p.unit.seconds :=
  h.tail.total_lt (List.pairwise_cons.mp h.descending).1

theorem Part.seconds_le {p : Part} (h : p.count ≠ 0) : p.unit.seconds ≤ p.seconds :=
  Nat.le_mul_of_pos_left _ (Nat.pos_of_ne_zero h)

/-- The unit of the first part is the largest that goes into the total. -/
theorem InOrder.unit_le {p q : Part} (h' : InOrder (q :: parts')) (hp : p.count ≠ 0)
    (heq : total (p :: parts) = total (q :: parts')) :
    p.unit.seconds ≤ q.unit.seconds := by
  by_contra hless
  have hq : total (q :: parts') < p.unit.seconds := by
    refine h'.total_lt fun r hr => ?_
    rcases List.mem_cons.mp hr with rfl | hr
    · omega
    · have hr := (List.pairwise_cons.mp h'.descending).1 r hr
      omega
  have hp := Part.seconds_le hp
  rw [← heq, total_cons] at hq
  omega

theorem total_pos {p : Part} (h : p.count ≠ 0) : 0 < total (p :: parts) := by
  have hp := Part.seconds_le h
  have hunit := p.unit.seconds_pos
  rw [total_cons]
  omega

/-- Of two sequences with the same total the first parts have the same unit, which goes into the
total the same number of times. -/
theorem InOrder.head_eq {p q : Part} (h : InOrder (p :: parts)) (hp : p.count ≠ 0)
    (h' : InOrder (q :: parts')) (hq : q.count ≠ 0)
    (heq : total (p :: parts) = total (q :: parts')) : p = q ∧ total parts = total parts' := by
  have hunit : p.unit = q.unit :=
    TimeUnit.seconds_inj (Nat.le_antisymm (h'.unit_le hp heq) (h.unit_le hq heq.symm))
  have hless : total parts' < p.unit.seconds := hunit ▸ h'.total_tail_lt
  rw [total_cons, total_cons, Part.seconds, Part.seconds, ← hunit, Nat.mul_comm p.count,
    Nat.mul_comm q.count, Nat.add_comm, Nat.add_comm _ (total parts')] at heq
  obtain ⟨hcount, hrest⟩ := (Nat.div_mod_unique p.unit.seconds_pos).mpr ⟨heq, h.total_tail_lt⟩
  obtain ⟨hcount', hrest'⟩ :=
    (Nat.div_mod_unique p.unit.seconds_pos (d := q.count)).mpr ⟨rfl, hless⟩
  refine ⟨?_, hrest.symm.trans hrest'⟩
  apply (h.inForm p List.mem_cons_self).ext (h'.inForm q List.mem_cons_self) hunit
  exact hcount.symm.trans hcount'

/-- Two sequences of parts without zeros that have the same total are the same. -/
theorem InOrder.ext (h : InOrder parts) (hpos : ∀ p ∈ parts, p.count ≠ 0) (h' : InOrder parts')
    (hpos' : ∀ p ∈ parts', p.count ≠ 0) (heq : total parts = total parts') :
    parts = parts' := by
  induction parts generalizing parts' with
  | nil =>
    cases parts' with
    | nil => rfl
    | cons q rest' =>
      exact absurd heq (Nat.ne_of_lt (total_pos (hpos' q List.mem_cons_self)))
  | cons p rest ih =>
    cases parts' with
    | nil => exact absurd heq (Nat.ne_of_gt (total_pos (hpos p List.mem_cons_self)))
    | cons q rest' =>
      rw [List.forall_mem_cons] at hpos hpos'
      obtain ⟨rfl, hrest⟩ := h.head_eq hpos.1 h' hpos'.1 heq
      rw [ih h.tail hpos.2 h'.tail hpos'.2 hrest]

theorem InOrder.filter (h : InOrder parts) (f : Part → Bool) : InOrder (parts.filter f) where
  descending := h.descending.sublist List.filter_sublist
  inForm p hp := h.inForm p (List.mem_of_mem_filter hp)

theorem total_filter (parts : List Part) : total (parts.filter (·.count ≠ 0)) = total parts := by
  induction parts with
  | nil => rfl
  | cons p rest ih =>
    by_cases hzero : p.count = 0
    · rw [List.filter_cons_of_neg (by simpa using hzero), ih, total_cons, Part.seconds, hzero,
        Nat.zero_mul, Nat.zero_add]
    · rw [List.filter_cons_of_pos (by simpa using hzero), total_cons, total_cons, ih]

theorem WellFormed.eq_nothing (h : WellFormed parts) (hzero : total parts = 0) :
    parts = [nothing] := by
  obtain ⟨p, rest, rfl⟩ := List.exists_cons_of_ne_nil h.ne_nil
  apply h.positive p List.mem_cons_self
  by_contra hp
  exact absurd hzero (Nat.ne_of_gt (total_pos hp))

theorem WellFormed.ext (h : WellFormed parts) (h' : WellFormed parts')
    (heq : total parts = total parts') : parts = parts' := by
  by_cases hzero : total parts = 0
  · rw [h.eq_nothing hzero, h'.eq_nothing (heq ▸ hzero)]
  · refine h.toInOrder.ext ?_ h'.toInOrder ?_ heq <;> intro p hp hcount
    · rw [h.positive p hp hcount] at hzero
      exact hzero rfl
    · rw [heq, h'.positive p hp hcount] at hzero
      exact hzero rfl

/-- A sequence of parts as a text. -/
def written (parts : List Part) : List Char := [' '].intercalate (parts.map Part.chars)

theorem mapM_read?_eq_some_iff {words : List (List Char)} :
    words.mapM Part.read? = some parts ↔
      words = parts.map Part.chars ∧ ∀ p ∈ parts, isDigits p.digits = true := by
  induction words generalizing parts with
  | nil => cases parts <;> simp
  | cons cs words ih =>
    simp only [List.mapM_cons, Option.bind_eq_bind, Option.pure_def, Option.bind_eq_some_iff,
      Option.some.injEq, Part.read?_eq_some_iff, ih]
    constructor
    · rintro ⟨p, ⟨rfl, hp⟩, rest, ⟨rfl, hrest⟩, rfl⟩
      exact ⟨rfl, List.forall_mem_cons.mpr ⟨hp, hrest⟩⟩
    · rintro ⟨hwords, hdigits⟩
      obtain ⟨p, rest, rfl, rfl, rfl⟩ := List.map_eq_cons_iff.mp hwords.symm
      obtain ⟨hp, hrest⟩ := List.forall_mem_cons.mp hdigits
      exact ⟨p, ⟨rfl, hp⟩, rest, ⟨rfl, hrest⟩, rfl⟩

theorem read?_written (h : WellFormed parts) : read? (written parts) = some parts := by
  have hblank : ∀ cs ∈ parts.map Part.chars, ' ' ∉ cs := by
    intro cs hcs
    obtain ⟨p, hp, rfl⟩ := List.mem_map.mp hcs
    exact (h.inForm p hp).blank_notMem
  rw [read?, written, List.splitOn_intercalate ' ' hblank (by simpa using h.ne_nil),
    mapM_read?_eq_some_iff]
  exact ⟨rfl, fun p hp => (h.inForm p hp).isDigits⟩

theorem eq_written {cs : List Char} (h : read? cs = some parts) : cs = written parts := by
  rw [written, ← (mapM_read?_eq_some_iff.mp h).1, List.intercalate_splitOn]

end

section

variable (n : Nat)

/-- All four units, with those of which there are none. -/
def allParts : List Part :=
  [⟨padded 1 (n / 86400), .day⟩, ⟨padded 2 (n % 86400 / 3600), .hour⟩,
    ⟨padded 2 (n % 3600 / 60), .minute⟩, ⟨padded 2 (n % 60), .second⟩]

/-- The parts of which the text of a number of seconds is made. -/
def parts : List Part :=
  match (allParts n).filter (·.count ≠ 0) with
  | [] => [nothing]
  | parts => parts

theorem inForm_padded {unit : TimeUnit} {n limit : Nat} (hunit : unit.limit? = some limit)
    (h : n < limit) (hlimit : limit < 100) : Part.InForm ⟨padded 2 n, unit⟩ := by
  unfold Part.InForm
  rw [hunit]
  refine ⟨allDigits_padded 2 n, length_padded (by decide) (by omega), ?_⟩
  rw [Part.count, spelled_padded]
  exact h

theorem inOrder_allParts : InOrder (allParts n) where
  descending := by simp [allParts, TimeUnit.seconds]
  inForm := by
    have hdays : padded 1 (n / 86400) = digits (n / 86400) := by
      have hpos : 0 < (digits (n / 86400)).length := Nat.length_toDigits_pos
      rw [padded, Nat.sub_eq_zero_of_le hpos, List.replicate_zero, List.nil_append]
    simp only [allParts, List.forall_mem_cons, List.not_mem_nil, false_implies, implies_true,
      and_true]
    refine ⟨hdays ▸ isWhole_digits _, inForm_padded rfl ?_ (by decide),
      inForm_padded rfl ?_ (by decide), inForm_padded rfl ?_ (by decide)⟩ <;> omega

theorem total_allParts : total (allParts n) = n := by
  simp only [allParts, total_cons, total_nil, Part.seconds, Part.count, spelled_padded,
    TimeUnit.seconds]
  omega

theorem wellFormed_parts : WellFormed (parts n) := by
  unfold parts
  split
  · exact ⟨⟨by simp, by simp [Part.InForm, nothing, TimeUnit.limit?, AllDigits]; decide⟩,
      by simp, by simp⟩
  · rename_i hne
    refine ⟨(inOrder_allParts n).filter _, hne, fun p hp hcount => ?_⟩
    simpa [hcount] using List.of_mem_filter hp

theorem total_parts : total (parts n) = n := by
  have htotal := (total_filter (allParts n)).trans (total_allParts n)
  unfold parts
  split
  · rename_i hnil
    rw [hnil] at htotal
    rw [← htotal]
    rfl
  · exact htotal

theorem component_eq (width : Nat) (unit : TimeUnit) : component width n unit.letter =
    ([(⟨padded width n, unit⟩ : Part)].filter (·.count ≠ 0)).map Part.chars := by
  unfold component
  by_cases hzero : n = 0 <;> simp [hzero, Part.count, spelled_padded, Part.chars]

theorem components_eq : components n = ((allParts n).filter (·.count ≠ 0)).map Part.chars := by
  have hfour (p q r t : Part) : [p, q, r, t] = [p] ++ [q] ++ [r] ++ [t] := rfl
  rw [allParts, hfour, List.filter_append, List.filter_append, List.filter_append,
    List.map_append, List.map_append, List.map_append, ← component_eq, ← component_eq,
    ← component_eq, ← component_eq]
  rfl

theorem chars_eq : chars n = written (parts n) := by
  unfold chars parts
  rw [components_eq]
  cases hparts : (allParts n).filter (·.count ≠ 0) <;> rfl

end

/-- Of all texts the one that is shown is the one in proper form that reads back as the number of
seconds. -/
theorem chars_iff (n : Nat) (cs : List Char) :
    cs = chars n ↔ ∃ parts, read? cs = some parts ∧ WellFormed parts ∧ total parts = n := by
  constructor
  · rintro rfl
    exact ⟨parts n, chars_eq n ▸ read?_written (wellFormed_parts n), wellFormed_parts n,
      total_parts n⟩
  · rintro ⟨ps, hread, hform, htotal⟩
    rw [eq_written hread, hform.ext (wellFormed_parts n) (htotal.trans (total_parts n).symm),
      chars_eq]

/-- A text that tells of a number of seconds. -/
def Says (text : String) (n : Nat) : Prop :=
  ∃ parts, read? text.toList = some parts ∧ WellFormed parts ∧ total parts = n

theorem Says.unique {text : String} {n n' : Nat} (h : Says text n) (h' : Says text n') :
    n = n' := by
  obtain ⟨ps, hread, -, rfl⟩ := h
  obtain ⟨ps', hread', -, rfl⟩ := h'
  rw [hread, Option.some.injEq] at hread'
  rw [hread']

theorem says_text (n : Nat) : Says (text n) n := by
  rw [Says, text, String.toList_ofList]
  exact (chars_iff n _).mp rfl

/-- A length of time is shown by the one text in proper form that reads back as its number of
seconds: by days, hours, minutes and seconds, of each less than makes one of the next and none
where there are none, and by 00s just if there are no seconds at all. So no two lengths of time
are shown by the same text. -/
theorem durations_exact (n : Nat) :
    (∀ t : String, t = text n ↔ Says t n) ∧ (text n = "00s" ↔ n = 0) ∧
      ∀ n', text n = text n' ↔ n = n' := by
  have hinj (n' : Nat) : text n = text n' ↔ n = n' :=
    ⟨fun h => (says_text n).unique (h ▸ says_text n'), fun h => h ▸ rfl⟩
  refine ⟨fun t => ?_, hinj 0, hinj⟩
  rw [Says, ← chars_iff, text, ← String.toList_inj, String.toList_ofList]

end ClearSign.Duration
