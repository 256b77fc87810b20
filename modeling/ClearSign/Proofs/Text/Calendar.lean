import ClearSign.Text.Calendar
import Mathlib.Algebra.Group.Nat.Defs
import Mathlib.Data.List.Lex
import Mathlib.Logic.Function.Iterate
import Mathlib.Order.Lattice

/-!
Dates against the calendar. Counting days in eras of 400 years gives each day the date behind that
of the day before, so a date is as many days behind the first of January 1970 as it should be, and
later instants read as later dates. Nothing on the way leaves a machine word.
-/

namespace ClearSign

/-- A date of the Gregorian calendar, which is taken to have been in use at all times. -/
structure Date where
  year : Nat
  month : Nat
  day : Nat
  deriving DecidableEq, Repr

namespace Date

/-- Every fourth year has a day more, but of the full centuries only every fourth. -/
def leapDays (year : Nat) : Nat := if 4 ∣ year ∧ (100 ∣ year → 400 ∣ year) then 1 else 0

def monthLength (leapDays : Nat) : (month : Nat) → Nat
  | 2 => 28 + leapDays
  | 4 | 6 | 9 | 11 => 30
  | _ => 31

structure Valid (d : Date) : Prop where
  month_pos : 1 ≤ d.month
  month_le : d.month ≤ 12
  day_pos : 1 ≤ d.day
  day_le : d.day ≤ monthLength (leapDays d.year) d.month

/-- The date of the day after. -/
def next (d : Date) : Date :=
  if d.day < monthLength (leapDays d.year) d.month then ⟨d.year, d.month, d.day + 1⟩
  else if d.month < 12 then ⟨d.year, d.month + 1, 1⟩
  else ⟨d.year + 1, 1, 1⟩

def epoch : Date := ⟨1970, 1, 1⟩

/-- Of two dates the first part that differs says which is earlier. -/
def parts (d : Date) : List Nat := [d.year, d.month, d.day]

theorem monthLength_pos (leapDays month : Nat) : 1 ≤ monthLength leapDays month := by
  unfold monthLength
  split <;> omega

/-- Only the length of February hangs on the year. -/
theorem monthLength_eq {month : Nat} (h : month ≠ 2) (leapDays leapDays' : Nat) :
    monthLength leapDays month = monthLength leapDays' month := by
  unfold monthLength
  split
  · exact absurd rfl h
  all_goals rfl

theorem Valid.next {d : Date} (h : d.Valid) : d.next.Valid := by
  unfold Date.next
  by_cases hwithin : d.day < monthLength (leapDays d.year) d.month
  · rw [if_pos hwithin]
    exact ⟨h.month_pos, h.month_le, Nat.le_add_left .., hwithin⟩
  · rw [if_neg hwithin]
    by_cases hearly : d.month < 12
    · rw [if_pos hearly]
      exact ⟨Nat.le_add_left .., hearly, Nat.le_refl _, monthLength_pos ..⟩
    · rw [if_neg hearly]
      exact ⟨Nat.le_refl _, Nat.le_add_left 1 11, Nat.le_refl _, monthLength_pos ..⟩

theorem parts_lt_next (d : Date) : d.parts < d.next.parts := by
  unfold next parts
  split
  · simp [List.cons_lt_cons_iff]
  · split
    · simp [List.cons_lt_cons_iff]
    · simp [List.cons_lt_cons_iff]

end Date

namespace Civil

/-- Days from the first of March of year 0 to the first of March of a year. -/
def marchDay (year : Nat) : Nat := 365 * year + year / 4 - year / 100 + year / 400

/-- A year that begins in March ends with the leap day of the next one. -/
theorem marchDay_succ (year : Nat) :
    marchDay (year + 1) = marchDay year + 365 + Date.leapDays (year + 1) := by
  have hless : year / 100 ≤ year / 4 := by omega
  unfold marchDay Date.leapDays
  simp only [Nat.succ_div]
  split <;> split <;> split <;> split <;> omega

theorem marchDay_era (era year : Nat) :
    marchDay (400 * era + year) = era * daysInEra + marchDay year := by
  unfold marchDay daysInEra
  omega

theorem yearOfEra_le_succ (day : Nat) : yearOfEra day ≤ yearOfEra (day + 1) := by
  have hleap : (day + 1) / 1460 ≤ day / 1460 + 1 := by omega
  have hleaps : day / 1460 ≤ day := Nat.div_le_self ..
  have hcentury : day / 36524 ≤ (day + 1) / 36524 := Nat.div_le_div_right (Nat.le_succ day)
  have hfourth : ∀ days, days / 146096 = days / 36524 / 4 := fun days =>
    (Nat.div_div_eq_div_mul days 36524 4).symm
  unfold yearOfEra
  apply Nat.div_le_div_right
  rw [hfourth, hfourth]
  generalize (day + 1) / 1460 = leaps', day / 1460 = leaps at hleap hleaps ⊢
  generalize (day + 1) / 36524 = centuries', day / 36524 = centuries at hcentury ⊢
  omega

theorem yearOfEra_ends : ∀ year < 400, yearOfEra (marchDay year) = year ∧
    yearOfEra (marchDay (year + 1) - 1) = year := by
  decide +kernel

/-- The year within an era never falls from one day to the next, so it is right on every day as it
is on the first and the last day of each year. -/
theorem yearOfEra_eq {year day : Nat} (hyear : year < 400) (hlow : marchDay year ≤ day)
    (hhigh : day < marchDay (year + 1)) : yearOfEra day = year := by
  have hmono : Monotone yearOfEra := monotone_nat_of_le_succ yearOfEra_le_succ
  obtain ⟨hfirst, hlast⟩ := yearOfEra_ends year hyear
  apply Nat.le_antisymm
  · calc yearOfEra day ≤ yearOfEra (marchDay (year + 1) - 1) := hmono (by omega)
      _ = year := hlast
  · calc year = yearOfEra (marchDay year) := hfirst.symm
      _ ≤ yearOfEra day := hmono hlow

/-- Month and day of a day of a year that begins in March. -/
def monthDay (dayOfYear : Nat) : Nat × Nat :=
  let fromMarch := (5 * dayOfYear + 2) / 153
  (if fromMarch < 10 then fromMarch + 3 else fromMarch - 9,
    dayOfYear - (153 * fromMarch + 2) / 5 + 1)

/-- The date of a day of the year that begins with March of a year. -/
def marchDate (year dayOfYear : Nat) : Date :=
  let (month, day) := monthDay dayOfYear
  ⟨year + (if month ≤ 2 then 1 else 0), month, day⟩

/-- A day is counted from the first of March before it. -/
structure FromMarch (days year dayOfYear : Nat) : Prop where
  eq : days + epochShift = marchDay year + dayOfYear
  lt : dayOfYear < 365 + Date.leapDays (year + 1)

theorem exists_fromMarch (days : Nat) : ∃ year dayOfYear, FromMarch days year dayOfYear := by
  induction days with
  | zero => exact ⟨1969, 306, by decide, by decide⟩
  | succ days ih =>
    obtain ⟨year, dayOfYear, heq, hlt⟩ := ih
    by_cases hlast : dayOfYear + 1 < 365 + Date.leapDays (year + 1)
    · exact ⟨year, dayOfYear + 1, by omega, hlast⟩
    · refine ⟨year + 1, 0, ?_, by omega⟩
      rw [marchDay_succ]
      omega

theorem leapDays_le (year : Nat) : Date.leapDays year ≤ 1 := by
  unfold Date.leapDays
  split <;> omega

/-- Within a year that begins in March, the next day is the next of the month, or the first of the
next month; February is not left. -/
theorem monthDay_succ : ∀ leapDays ≤ 1, ∀ day < 364 + leapDays,
    1 ≤ (monthDay day).1 ∧ (monthDay day).1 ≤ 12 ∧
      if (monthDay day).2 < Date.monthLength leapDays (monthDay day).1 then
        monthDay (day + 1) = ((monthDay day).1, (monthDay day).2 + 1)
      else (monthDay day).1 ≠ 2 ∧ monthDay (day + 1) = ((monthDay day).1 % 12 + 1, 1) := by
  decide +kernel

/-- A year that begins in March ends with the last day of February. -/
theorem monthDay_last : ∀ leapDays ≤ 1,
    monthDay (364 + leapDays) = (2, Date.monthLength leapDays 2) := by
  decide

theorem next_marchDate {year day : Nat} (h : day < 364 + Date.leapDays (year + 1)) :
    (marchDate year day).next = marchDate year (day + 1) := by
  obtain ⟨hpos, hle, hsucc⟩ := monthDay_succ _ (leapDays_le (year + 1)) day h
  unfold marchDate
  generalize monthDay day = today at hpos hle hsucc
  obtain ⟨month, today⟩ := today
  have hlength : Date.monthLength (Date.leapDays (year + if month ≤ 2 then 1 else 0)) month =
      Date.monthLength (Date.leapDays (year + 1)) month := by
    by_cases hfebruary : month = 2
    · rw [hfebruary, if_pos (Nat.le_refl 2)]
    · exact Date.monthLength_eq hfebruary ..
  unfold Date.next
  simp only [hlength]
  by_cases hwithin : today < Date.monthLength (Date.leapDays (year + 1)) month
  · rw [if_pos hwithin] at hsucc ⊢
    rw [hsucc]
  · rw [if_neg hwithin] at hsucc ⊢
    obtain ⟨hother, hsucc⟩ := hsucc
    rw [hsucc]
    by_cases hdecember : month = 12
    · subst hdecember
      simp
    · have hmonth : month % 12 = month := Nat.mod_eq_of_lt (by omega)
      rw [if_pos (by omega), hmonth]
      by_cases hjanuary : month = 1
      · subst hjanuary
        simp
      · rw [if_neg (show ¬ month ≤ 2 by omega), if_neg (show ¬ month + 1 ≤ 2 by omega)]

theorem next_marchDate_last (year : Nat) :
    (marchDate year (364 + Date.leapDays (year + 1))).next = marchDate (year + 1) 0 := by
  unfold marchDate
  rw [monthDay_last _ (leapDays_le (year + 1))]
  simp [Date.next, monthDay]

/-- Year, month and day of a number of days, as a date. -/
def date (days : Nat) : Date :=
  let (year, month, day) := ofDays days
  ⟨year, month, day⟩

theorem marchDay_of_lt {year : Nat} (h : year < 400) :
    marchDay year = 365 * year + year / 4 - year / 100 := by
  unfold marchDay
  rw [Nat.div_eq_of_lt h, Nat.add_zero]

theorem FromMarch.le {days year dayOfYear : Nat} (h : FromMarch days year dayOfYear) :
    dayOfYear ≤ 365 := by
  have := leapDays_le (year + 1)
  have := h.lt
  omega

/-- Four hundred years are an era. -/
theorem FromMarch.era {days year dayOfYear : Nat} (h : FromMarch days year dayOfYear) :
    (days + epochShift) / daysInEra = year / 400 ∧
      (days + epochShift) % daysInEra = marchDay (year % 400) + dayOfYear ∧
      yearOfEra (marchDay (year % 400) + dayOfYear) = year % 400 := by
  obtain ⟨heq, hlt⟩ := h
  have hyoe : year % 400 < 400 := Nat.mod_lt _ (by decide)
  rw [← Nat.div_add_mod year 400] at heq hlt
  generalize year / 400 = era, year % 400 = yoe at heq hlt hyoe ⊢
  have hend := marchDay_succ (400 * era + yoe)
  rw [Nat.add_assoc, marchDay_era, marchDay_era] at hend
  rw [marchDay_era, Nat.add_assoc] at heq
  rw [Nat.add_assoc] at hlt
  have hwithin : marchDay yoe + dayOfYear < marchDay (yoe + 1) := by omega
  have hlast : marchDay (yoe + 1) ≤ daysInEra := by
    unfold marchDay daysInEra
    omega
  refine ⟨?_, ?_, yearOfEra_eq hyoe (Nat.le_add_right ..) hwithin⟩
  · rw [heq, Nat.mul_comm, Nat.mul_add_div (by decide), Nat.div_eq_of_lt (by omega), Nat.add_zero]
  · rw [heq, Nat.mul_comm, Nat.mul_add_mod, Nat.mod_eq_of_lt (by omega)]

/-- The eras, and the years in them, come to counting from the first of March before a day. -/
theorem FromMarch.date_eq {days year dayOfYear : Nat} (h : FromMarch days year dayOfYear) :
    date days = marchDate year dayOfYear := by
  obtain ⟨hera, hday, hyear⟩ := h.era
  have hstart := marchDay_of_lt (Nat.mod_lt year (show 400 > 0 by decide))
  have hyears : year % 400 + year / 400 * 400 = year := by omega
  unfold date ofDays marchDate monthDay
  simp only [hera, hday, hyear, ← hstart, Nat.add_sub_cancel_left, hyears]

theorem date_succ (days : Nat) : date (days + 1) = (date days).next := by
  obtain ⟨year, dayOfYear, h⟩ := exists_fromMarch days
  rw [h.date_eq]
  by_cases hlast : dayOfYear < 364 + Date.leapDays (year + 1)
  · have hnext : FromMarch (days + 1) year (dayOfYear + 1) := ⟨by have := h.eq; omega, by omega⟩
    rw [hnext.date_eq, next_marchDate hlast]
  · have hday : dayOfYear = 364 + Date.leapDays (year + 1) := by
      have := h.lt
      omega
    have hnext : FromMarch (days + 1) (year + 1) 0 := by
      refine ⟨?_, by omega⟩
      have := h.eq
      rw [marchDay_succ]
      omega
    rw [hnext.date_eq, hday, next_marchDate_last]

theorem date_eq_iterate (days : Nat) : date days = Nat.iterate Date.next days Date.epoch := by
  induction days with
  | zero => rfl
  | succ days ih => rw [date_succ, ih, Function.iterate_succ_apply']

theorem date_valid (days : Nat) : (date days).Valid := by
  induction days with
  | zero => exact ⟨by decide, by decide, by decide, by decide⟩
  | succ days ih =>
    rw [date_succ]
    exact ih.next

theorem parts_date_strictMono : StrictMono fun days => (date days).parts := by
  apply strictMono_nat_of_lt_succ
  intro days
  rw [date_succ]
  exact (date days).parts_lt_next

/-- The parts of a date and those of a time of day; the first that differs says which instant is
earlier. -/
def parts (c : Civil) : List Nat := [c.year, c.month, c.day, c.hour, c.minute, c.second]

theorem ofTimestamp_eq (seconds : Nat) : ofTimestamp seconds =
    ⟨(date (seconds / 86400)).year, (date (seconds / 86400)).month, (date (seconds / 86400)).day,
      seconds % 86400 / 3600, seconds % 86400 % 3600 / 60, seconds % 86400 % 60⟩ := rfl

theorem parts_ofTimestamp (seconds : Nat) : (ofTimestamp seconds).parts =
    (date (seconds / 86400)).parts ++
      [seconds % 86400 / 3600, seconds % 86400 % 3600 / 60, seconds % 86400 % 60] := rfl

/-- Later instants read as later dates or, on one day, as later times. -/
theorem parts_strictMono : StrictMono fun seconds => (ofTimestamp seconds).parts := by
  intro seconds seconds' hlater
  simp only [parts_ofTimestamp]
  rcases Nat.lt_or_eq_of_le (Nat.div_le_div_right (c := 86400) (Nat.le_of_lt hlater)) with
    hday | hday
  · have hdate : (date (seconds / 86400)).parts < (date (seconds' / 86400)).parts :=
      parts_date_strictMono hday
    unfold Date.parts at hdate ⊢
    simp only [List.cons_append, List.nil_append, List.cons_lt_cons_iff, List.not_lt_nil] at hdate ⊢
    tauto
  · rw [hday]
    apply List.append_left_lt
    simp only [List.cons_lt_cons_iff, List.not_lt_nil]
    omega

/-! Counting with machine words, which stops at what a word cannot hold. -/

def plus? (a b : UInt64) : Option UInt64 :=
  if a.toNat + b.toNat < 2 ^ 64 then some (a + b) else none

def minus? (a b : UInt64) : Option UInt64 := if b ≤ a then some (a - b) else none

def times? (a b : UInt64) : Option UInt64 :=
  if a.toNat * b.toNat < 2 ^ 64 then some (a * b) else none

def byte? (a : UInt64) : Option UInt8 := if a.toNat < 256 then some a.toUInt8 else none

/-- The era of a day, and the day within it. -/
def eraWords? (days : UInt64) : Option (UInt64 × UInt64) := do
  let shifted ← plus? days 719468
  let era := shifted / 146097
  let dayOfEra ← minus? shifted (← times? era 146097)
  return (era, dayOfEra)

/-- The year of a day of an era, and the day within it. -/
def yearWords? (dayOfEra : UInt64) : Option (UInt64 × UInt64) := do
  let less ← minus? dayOfEra (dayOfEra / 1460)
  let days ← minus? (← plus? less (dayOfEra / 36524)) (dayOfEra / 146096)
  let year := days / 365
  let start ← minus? (← plus? (← times? 365 year) (year / 4)) (year / 100)
  let dayOfYear ← minus? dayOfEra start
  return (year, dayOfYear)

def monthWord? (fromMarch : UInt64) : Option UInt64 :=
  if fromMarch < 10 then plus? fromMarch 3 else minus? fromMarch 9

/-- Month and day of a day of a year. -/
def monthDayBytes? (dayOfYear : UInt64) : Option (UInt8 × UInt8) := do
  let fromMarch := (← plus? (← times? 5 dayOfYear) 2) / 153
  let before := (← plus? (← times? 153 fromMarch) 2) / 5
  let day ← byte? (← plus? (← minus? dayOfYear before) 1)
  let month ← byte? (← monthWord? fromMarch)
  return (month, day)

def yearWord? (era yearOfEra : UInt64) (month : UInt8) : Option UInt64 := do
  let marchYear ← plus? yearOfEra (← times? era 400)
  plus? marchYear (if month ≤ 2 then 1 else 0)

def timeBytes? (rest : UInt64) : Option (UInt8 × UInt8 × UInt8) := do
  return (← byte? (rest / 3600), ← byte? (rest % 3600 / 60), ← byte? (rest % 60))

/-- Date and time of day in machine words: the year in a word, and a byte for each of the others. -/
def inWords? (seconds : UInt64) : Option (UInt64 × UInt8 × UInt8 × UInt8 × UInt8 × UInt8) := do
  let (era, dayOfEra) ← eraWords? (seconds / 86400)
  let (yearOfEra, dayOfYear) ← yearWords? dayOfEra
  let (month, day) ← monthDayBytes? dayOfYear
  let year ← yearWord? era yearOfEra month
  let (hour, minute, second) ← timeBytes? (seconds % 86400)
  return (year, month, day, hour, minute, second)

def ofWords : UInt64 × UInt8 × UInt8 × UInt8 × UInt8 × UInt8 → Civil
  | (year, month, day, hour, minute, second) =>
    ⟨year.toNat, month.toNat, day.toNat, hour.toNat, minute.toNat, second.toNat⟩

theorem plus?_eq {a b : UInt64} {m n : Nat} (ha : a.toNat = m) (hb : b.toNat = n)
    (h : m + n < 2 ^ 64) : ∃ c, plus? a b = some c ∧ c.toNat = m + n := by
  subst ha hb
  exact ⟨a + b, if_pos h, by rw [UInt64.toNat_add, Nat.mod_eq_of_lt h]⟩

theorem minus?_eq {a b : UInt64} {m n : Nat} (ha : a.toNat = m) (hb : b.toNat = n)
    (h : n ≤ m) : ∃ c, minus? a b = some c ∧ c.toNat = m - n := by
  subst ha hb
  exact ⟨a - b, if_pos h, UInt64.toNat_sub_of_le _ _ h⟩

theorem times?_eq {a b : UInt64} {m n : Nat} (ha : a.toNat = m) (hb : b.toNat = n)
    (h : m * n < 2 ^ 64) : ∃ c, times? a b = some c ∧ c.toNat = m * n := by
  subst ha hb
  exact ⟨a * b, if_pos h, by rw [UInt64.toNat_mul, Nat.mod_eq_of_lt h]⟩

theorem byte?_eq {a : UInt64} {n : Nat} (ha : a.toNat = n) (h : n < 256) :
    ∃ c, byte? a = some c ∧ c.toNat = n := by
  subst ha
  exact ⟨a.toUInt8, if_pos h, by rw [UInt64.toNat_toUInt8, Nat.mod_eq_of_lt h]⟩

theorem toNat_over {a b : UInt64} {m n : Nat} (ha : a.toNat = m) (hb : b.toNat = n) :
    (a / b).toNat = m / n := by
  rw [UInt64.toNat_div, ha, hb]

theorem toNat_rest {a b : UInt64} {m n : Nat} (ha : a.toNat = m) (hb : b.toNat = n) :
    (a % b).toNat = m % n := by
  rw [UInt64.toNat_mod, ha, hb]

theorem eraWords?_eq {days : UInt64} {n : Nat} (hn : days.toNat = n) (h : n < 2 ^ 63) :
    ∃ era dayOfEra, eraWords? days = some (era, dayOfEra) ∧
      era.toNat = (n + epochShift) / daysInEra ∧ dayOfEra.toNat = (n + epochShift) % daysInEra := by
  have hshift : epochShift < 2 ^ 63 := by decide
  obtain ⟨shifted, hshifted, hshiftedn⟩ :=
    plus?_eq (b := 719468) (n := epochShift) hn rfl (by omega)
  have hera : (shifted / 146097).toNat = (n + epochShift) / daysInEra := toNat_over hshiftedn rfl
  have hwhole : (n + epochShift) / daysInEra * daysInEra ≤ n + epochShift := Nat.div_mul_le_self ..
  obtain ⟨past, hpast, hpastn⟩ := times?_eq (b := 146097) (n := daysInEra) hera rfl (by omega)
  obtain ⟨dayOfEra, hday, hdayn⟩ := minus?_eq hshiftedn hpastn hwhole
  refine ⟨shifted / 146097, dayOfEra, ?_, hera, ?_⟩
  · rw [eraWords?, hshifted, Option.bind_eq_bind, Option.bind_some]
    simp only [hpast, hday, Option.bind_some, Option.pure_def]
  · rw [hdayn, Nat.mod_eq_sub_div_mul]

/-- On any day of an era, the year within it begins on that day or before. -/
theorem yearWords?_eq {dayOfEra : UInt64} {year dayOfYear : Nat} (hyear : year < 400)
    (hn : dayOfEra.toNat = marchDay year + dayOfYear)
    (hyoe : yearOfEra (marchDay year + dayOfYear) = year)
    (h : marchDay year + dayOfYear < daysInEra) :
    ∃ yearWord dayWord, yearWords? dayOfEra = some (yearWord, dayWord) ∧
      yearWord.toNat = year ∧ dayWord.toNat = dayOfYear := by
  have hstart := marchDay_of_lt hyear
  unfold daysInEra at h
  generalize marchDay year = start at *
  generalize hday : start + dayOfYear = n at *
  obtain ⟨less, hless, hlessn⟩ :=
    minus?_eq (b := dayOfEra / 1460) (n := n / 1460) hn (toNat_over hn rfl) (by omega)
  obtain ⟨more, hmore, hmoren⟩ :=
    plus?_eq (b := dayOfEra / 36524) (n := n / 36524) hlessn (toNat_over hn rfl) (by omega)
  obtain ⟨days, hdays, hdaysn⟩ :=
    minus?_eq (b := dayOfEra / 146096) (n := n / 146096) hmoren (toNat_over hn rfl) (by omega)
  have hyearn : (days / 365).toNat = year := hyoe ▸ toNat_over hdaysn rfl
  obtain ⟨plain, hplain, hplainn⟩ := times?_eq (a := 365) (m := 365) rfl hyearn (by omega)
  obtain ⟨leap, hleap, hleapn⟩ := plus?_eq (b := days / 365 / 4) (n := year / 4) hplainn
    (toNat_over hyearn rfl) (by omega)
  obtain ⟨first, hfirst, hfirstn⟩ := minus?_eq (b := days / 365 / 100) (n := year / 100) hleapn
    (toNat_over hyearn rfl) (by omega)
  obtain ⟨dayWord, hdayWord, hdayWordn⟩ := minus?_eq hn hfirstn (by omega)
  refine ⟨days / 365, dayWord, ?_, hyearn, by omega⟩
  simp only [yearWords?, hless, hmore, hdays, hplain, hleap, hfirst, hdayWord,
    Option.bind_eq_bind, Option.bind_some, Option.pure_def]

theorem monthWord?_eq {fromMarch : UInt64} {n : Nat} (hn : fromMarch.toNat = n) (h : n < 12) :
    ∃ month, monthWord? fromMarch = some month ∧
      month.toNat = if n < 10 then n + 3 else n - 9 := by
  have hearly : fromMarch < 10 ↔ n < 10 := by
    rw [UInt64.lt_iff_toNat_lt, hn]
    rfl
  unfold monthWord?
  by_cases h10 : n < 10
  · rw [if_pos (hearly.mpr h10), if_pos h10]
    exact plus?_eq hn rfl (by omega)
  · rw [if_neg (mt hearly.mp h10), if_neg h10]
    exact minus?_eq hn rfl (by omega)

theorem monthDayBytes?_eq {dayOfYear : UInt64} {n : Nat} (hn : dayOfYear.toNat = n)
    (h : n ≤ 365) :
    ∃ month day, monthDayBytes? dayOfYear = some (month, day) ∧
      monthDay n = (month.toNat, day.toNat) := by
  obtain ⟨five, hfive, hfiven⟩ := times?_eq (a := 5) (m := 5) rfl hn (by omega)
  obtain ⟨top, htop, htopn⟩ := plus?_eq (b := 2) (n := 2) hfiven rfl (by omega)
  have hmonth : (top / 153).toNat = (5 * n + 2) / 153 := toNat_over htopn rfl
  obtain ⟨days, hdays, hdaysn⟩ := times?_eq (a := 153) (m := 153) rfl hmonth (by omega)
  obtain ⟨past, hpast, hpastn⟩ := plus?_eq (b := 2) (n := 2) hdaysn rfl (by omega)
  have hbefore : (past / 5).toNat = (153 * ((5 * n + 2) / 153) + 2) / 5 := toNat_over hpastn rfl
  obtain ⟨within, hwithin, hwithinn⟩ := minus?_eq hn hbefore (by omega)
  obtain ⟨first, hfirst, hfirstn⟩ := plus?_eq (b := 1) (n := 1) hwithinn rfl (by omega)
  obtain ⟨day, hday, hdayn⟩ := byte?_eq hfirstn (by omega)
  obtain ⟨name, hname, hnamen⟩ := monthWord?_eq hmonth (by omega)
  obtain ⟨month, hmonthb, hmonthbn⟩ := byte?_eq hnamen (by split <;> omega)
  refine ⟨month, day, ?_, ?_⟩
  · simp only [monthDayBytes?, hfive, htop, hdays, hpast, hwithin, hfirst, hday, hname, hmonthb,
      Option.bind_eq_bind, Option.bind_some, Option.pure_def]
  · unfold monthDay
    rw [hmonthbn, hdayn]

theorem yearWord?_eq {era yearOfEra : UInt64} {year : Nat} (hera : era.toNat = year / 400)
    (hyear : yearOfEra.toNat = year % 400) (h : year / 400 < 2 ^ 48) (month : UInt8) :
    ∃ word, yearWord? era yearOfEra month = some word ∧
      word.toNat = year + if month.toNat ≤ 2 then 1 else 0 := by
  obtain ⟨years, hyears, hyearsn⟩ := times?_eq (b := 400) (n := 400) hera rfl (by omega)
  obtain ⟨marchYear, hmarch, hmarchn⟩ := plus?_eq hyear hyearsn (by omega)
  rw [show year % 400 + year / 400 * 400 = year by omega] at hmarchn
  have hturn : (if month ≤ 2 then 1 else 0 : UInt64).toNat = if month.toNat ≤ 2 then 1 else 0 := by
    have hearly : month ≤ 2 ↔ month.toNat ≤ 2 := UInt8.le_iff_toNat_le
    by_cases h2 : month.toNat ≤ 2
    · rw [if_pos (hearly.mpr h2), if_pos h2]
      rfl
    · rw [if_neg (mt hearly.mp h2), if_neg h2]
      rfl
  obtain ⟨word, hword, hwordn⟩ := plus?_eq hmarchn hturn (by split <;> omega)
  refine ⟨word, ?_, hwordn⟩
  simp only [yearWord?, hyears, hmarch, hword, Option.bind_eq_bind, Option.bind_some]

theorem timeBytes?_eq {rest : UInt64} {n : Nat} (hn : rest.toNat = n) (h : n < 86400) :
    ∃ hour minute second, timeBytes? rest = some (hour, minute, second) ∧
      hour.toNat = n / 3600 ∧ minute.toNat = n % 3600 / 60 ∧ second.toNat = n % 60 := by
  obtain ⟨hour, hhour, hhourn⟩ :=
    byte?_eq (a := rest / 3600) (n := n / 3600) (toNat_over hn rfl) (by omega)
  obtain ⟨minute, hminute, hminuten⟩ := byte?_eq (a := rest % 3600 / 60) (n := n % 3600 / 60)
    (toNat_over (toNat_rest hn rfl) rfl) (by omega)
  obtain ⟨second, hsecond, hsecondn⟩ :=
    byte?_eq (a := rest % 60) (n := n % 60) (toNat_rest hn rfl) (by omega)
  refine ⟨hour, minute, second, ?_, hhourn, hminuten, hsecondn⟩
  simp only [timeBytes?, hhour, hminute, hsecond, Option.bind_eq_bind, Option.bind_some,
    Option.pure_def]

/-- The words hold every step on the way, whatever the instant. -/
theorem inWords?_eq (seconds : UInt64) :
    (inWords? seconds).map ofWords = some (ofTimestamp seconds.toNat) := by
  have hword : seconds.toNat < 2 ^ 64 := seconds.toNat_lt
  generalize hn : seconds.toNat = n at hword ⊢
  have hdays : (seconds / 86400).toNat = n / 86400 := toNat_over hn rfl
  have hrest : (seconds % 86400).toNat = n % 86400 := toNat_rest hn rfl
  obtain ⟨yearn, dayn, h⟩ := exists_fromMarch (n / 86400)
  obtain ⟨hera, hday, hyear⟩ := h.era
  obtain ⟨era, dayOfEra, heraWords, heran, hdayOfEran⟩ := eraWords?_eq hdays (by omega)
  rw [hera] at heran
  rw [hday] at hdayOfEran
  obtain ⟨yearOfEra, dayOfYear, hyearWords, hyearOfEran, hdayOfYearn⟩ :=
    yearWords?_eq (Nat.mod_lt _ (by decide)) hdayOfEran hyear (hday ▸ Nat.mod_lt _ (by decide))
  obtain ⟨month, day, hmonthDay, hmonthDayn⟩ := monthDayBytes?_eq hdayOfYearn h.le
  have heralt : yearn / 400 < 2 ^ 48 := by
    rw [← hera]
    unfold epochShift daysInEra
    omega
  obtain ⟨year, hyearWord, hyearWordn⟩ := yearWord?_eq heran hyearOfEran heralt month
  obtain ⟨hour, minute, second, htime, hhour, hminute, hsecond⟩ := timeBytes?_eq hrest (by omega)
  have hwords : inWords? seconds = some (year, month, day, hour, minute, second) := by
    simp only [inWords?, heraWords, hyearWords, hmonthDay, hyearWord, htime,
      Option.bind_eq_bind, Option.bind_some, Option.pure_def]
  rw [hwords, ofTimestamp_eq, h.date_eq]
  unfold marchDate
  simp only [Option.map_some, ofWords, hmonthDayn, hyearWordn, hhour, hminute, hsecond]

/-- The date without the time of day. -/
def onDate (c : Civil) : Date := ⟨c.year, c.month, c.day⟩

/-- A date and a time of day say an instant: as many days behind the epoch, as many seconds into
the day. -/
structure Says (c : Civil) (seconds : Nat) : Prop where
  valid : c.onDate.Valid
  date : c.onDate = Nat.iterate Date.next (seconds / 86400) Date.epoch
  hour_lt : c.hour < 24
  minute_lt : c.minute < 60
  second_lt : c.second < 60
  time : c.hour * 3600 + c.minute * 60 + c.second = seconds % 86400

theorem says_ofTimestamp (seconds : Nat) : (ofTimestamp seconds).Says seconds where
  valid := date_valid (seconds / 86400)
  date := date_eq_iterate (seconds / 86400)
  hour_lt := by simp only [ofTimestamp_eq]; omega
  minute_lt := by simp only [ofTimestamp_eq]; omega
  second_lt := by simp only [ofTimestamp_eq]; omega
  time := by simp only [ofTimestamp_eq]; omega

/-- Every instant of a machine word is shown as the date and time that say it, with nothing lost in
a word on the way, and two instants are shown in their order. -/
theorem ofTimestamp_exact (seconds : UInt64) :
    (ofTimestamp seconds.toNat).Says seconds.toNat ∧
      (inWords? seconds).map ofWords = some (ofTimestamp seconds.toNat) ∧
      ∀ later : UInt64,
        (seconds < later ↔ (ofTimestamp seconds.toNat).parts < (ofTimestamp later.toNat).parts) ∧
          (seconds ≠ later → ofTimestamp seconds.toNat ≠ ofTimestamp later.toNat) := by
  refine ⟨says_ofTimestamp seconds.toNat, inWords?_eq seconds, fun later => ⟨?_, ?_⟩⟩
  · rw [UInt64.lt_iff_toNat_lt]
    exact parts_strictMono.lt_iff_lt.symm
  · intro hne heq
    apply hne
    apply UInt64.toNat_inj.mp
    apply parts_strictMono.injective
    exact congrArg parts heq

example : ofTimestamp 951782399 = ⟨2000, 2, 28, 23, 59, 59⟩ := rfl

end Civil
end ClearSign
