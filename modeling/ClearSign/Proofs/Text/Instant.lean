import ClearSign.Proofs.Text.Calendar
import ClearSign.Proofs.Text.Digits

/-!
Instants as texts. The text of a date and a time of day can be read back in one way only, so it
says a single instant.
-/

namespace ClearSign.Civil

open Decimal

/-- Date and time of day on the clock face, as they are shown. -/
def chars (c : Civil) : List Char := c.dateChars ++ ' ' :: c.timeChars ++ [' ', 'U', 'T', 'C']

/-- A text that shows the date and the time of day of an instant. -/
def SaysText (text : String) (seconds : Nat) : Prop :=
  ∃ c : Civil, c.Says seconds ∧ text = String.ofList c.chars

/-- Two texts that are cut at the first place of a character are cut alike. -/
theorem append_cons_inj {c : Char} {as as' rest rest' : List Char} (h : c ∉ as) (h' : c ∉ as')
    (heq : as ++ c :: rest = as' ++ c :: rest') : as = as' ∧ rest = rest' := by
  have hpieces := congrArg (List.splitOn c) heq
  rw [List.splitOn_append_cons_self_of_not_mem h, List.splitOn_append_cons_self_of_not_mem h',
    List.cons.injEq] at hpieces
  obtain ⟨rfl, -⟩ := hpieces
  exact ⟨rfl, by simpa using heq⟩

/-- A number ends where a character comes that is no digit. -/
theorem padded_append_cons_inj {width n n' : Nat} {c : Char} {rest rest' : List Char}
    (hc : c.isDigit = false) :
    padded width n ++ c :: rest = padded width n' ++ c :: rest' ↔ n = n' ∧ rest = rest' := by
  constructor
  · intro h
    obtain ⟨hnumber, hrest⟩ := append_cons_inj ((allDigits_padded width n).notMem hc)
      ((allDigits_padded width n').notMem hc) h
    exact ⟨padded_inj hnumber, hrest⟩
  · rintro ⟨rfl, rfl⟩
    rfl

/-- The clock face goes round twice a day, and the half of the day tells which time it is. -/
theorem clock_inj : ∀ hour < 24, ∀ hour' < 24, clockHour hour = clockHour hour' →
    meridiem hour = meridiem hour' → hour = hour' := by
  decide +kernel

theorem chars_inj {c c' : Civil} (hhour : c.hour < 24) (hhour' : c'.hour < 24)
    (h : c.chars = c'.chars) : c = c' := by
  obtain ⟨year, month, day, hour, minute, second⟩ := c
  obtain ⟨year', month', day', hour', minute', second'⟩ := c'
  simp only [chars, dateChars, timeChars, List.append_assoc, List.cons_append,
    padded_append_cons_inj (c := '-') rfl, padded_append_cons_inj (c := ' ') rfl,
    padded_append_cons_inj (c := ':') rfl, List.append_cancel_right_eq] at h
  obtain ⟨rfl, rfl, rfl, hclock, rfl, rfl, hmeridiem⟩ := h
  rw [clock_inj hour hhour hour' hhour' hclock hmeridiem]

theorem Says.unique {c : Civil} {n n' : Nat} (h : c.Says n) (h' : c.Says n') : n = n' := by
  have hdate : Civil.date (n / 86400) = Civil.date (n' / 86400) := by
    rw [date_eq_iterate, date_eq_iterate, ← h.date, h'.date]
  have hday : n / 86400 = n' / 86400 :=
    parts_date_strictMono.injective (congrArg Date.parts hdate)
  have htime : n % 86400 = n' % 86400 := h.time.symm.trans h'.time
  rw [← Nat.div_add_mod n 86400, hday, htime, Nat.div_add_mod]

theorem SaysText.unique {text : String} {n n' : Nat} (h : SaysText text n)
    (h' : SaysText text n') : n = n' := by
  obtain ⟨c, hc, rfl⟩ := h
  obtain ⟨c', hc', htext⟩ := h'
  obtain rfl : c = c' := chars_inj hc.hour_lt hc'.hour_lt (String.ofList_inj.mp htext)
  exact hc.unique hc'

theorem saysText_dateTimeText (n : Nat) : SaysText (dateTimeText n) n :=
  ⟨ofTimestamp n, says_ofTimestamp n, rfl⟩

end ClearSign.Civil
