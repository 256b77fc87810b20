import ClearSign.Proofs.Review.Book
import ClearSign.Proofs.Review.Shedding

/-!
Which rows are shown for which calls as calls leave. A call without arguments leaves with rows that
describe it; any other call that leaves has a descriptor, and is not the first of a transaction.
-/

namespace ClearSign

open Refusal ClearSign.Action

namespace CallStack

variable {s : CallStack}

/-- The first slot of all is the first in use if it is in use. -/
theorem head?_places {c : Call} (h : s.call? 0 = some c) : s.places.head? = some 0 := by
  have hmem := mem_places.mpr ⟨c, h⟩
  unfold places at hmem ⊢
  cases hlength : s.slots.length with
  | zero => simp [hlength] at hmem
  | succ n =>
    rw [List.range_succ_eq_map, List.filter_cons_of_pos (by rw [h]; rfl)]
    rfl

/-- In a transaction, a call that is held to its digest is not in the first slot. -/
theorem ne_zero_of_isHashed {slot : Nat} {c : Call} (hslot : s.current = some slot)
    (hcall : s.call? slot = some c) (h : s.isHashed .transaction = true) : slot ≠ 0 := by
  rintro rfl
  unfold isHashed isRoot at h
  rw [hslot, head?_places hcall] at h
  simp at h

end CallStack

namespace Review

/-- Calls leave. The rows in the book come behind those that are there, and describe calls without
arguments; a call that is not in the book has a descriptor, and is not the first of a
transaction. -/
structure Tells (host : Host) (r r' : Review) (book : Book) : Prop where
  length : r'.calls.slots.length = r.calls.slots.length
  table : r'.table = r.table ++ book.rows
  nodup : book.keys.Nodup
  told : ∀ slot rows, (slot, rows) ∈ book → ∃ c, r.calls.call? slot = some c ∧
    c.calldata = none ∧ LegRows host c rows ∧ r'.calls.call? slot = none
  kept : ∀ slot, r'.calls.call? slot = r.calls.call? slot ∨
    r'.calls.call? slot = none ∧ (slot ∈ book.keys ∨ ∀ c, r.calls.call? slot = some c →
      c.info.isSome = true ∧ (host.settings.mode = .transaction → slot ≠ 0))

namespace Tells

variable {host : Host} {r r' r'' : Review} {book more : Book}

theorem refl (r : Review) : Tells host r r [] where
  length := rfl
  table := (List.append_nil _).symm
  nodup := List.nodup_nil
  told := by simp
  kept _ := .inl rfl

/-- A call that is there afterwards was there before. -/
theorem before (h : Tells host r r' book) {slot : Nat} {c : Call}
    (hc : r'.calls.call? slot = some c) : r.calls.call? slot = some c := by
  rcases h.kept slot with hkept | ⟨hgone, -⟩
  · rw [← hkept, hc]
  · rw [hgone] at hc
    cases hc

theorem trans (h : Tells host r r' book) (h' : Tells host r' r'' more) :
    Tells host r r'' (book ++ more) where
  length := h'.length.trans h.length
  table := by rw [h'.table, h.table, Book.rows_append, List.append_assoc]
  nodup := by
    rw [Book.keys_append]
    refine List.nodup_append.mpr ⟨h.nodup, h'.nodup, ?_⟩
    rintro slot hslot _ hslot' rfl
    obtain ⟨rows, hrows⟩ := Book.mem_keys.mp hslot
    obtain ⟨rows', hrows'⟩ := Book.mem_keys.mp hslot'
    obtain ⟨-, -, -, -, hgone⟩ := h.told slot rows hrows
    obtain ⟨c, hc, -⟩ := h'.told slot rows' hrows'
    rw [hgone] at hc
    cases hc
  told := by
    intro slot rows hmem
    rcases List.mem_append.mp hmem with hmem | hmem
    · obtain ⟨c, hc, hdata, hrows, hgone⟩ := h.told slot rows hmem
      refine ⟨c, hc, hdata, hrows, ?_⟩
      rcases h'.kept slot with hkept | ⟨hnone, -⟩
      · rw [hkept, hgone]
      · exact hnone
    · obtain ⟨c, hc, hdata, hrows, hgone⟩ := h'.told slot rows hmem
      exact ⟨c, h.before hc, hdata, hrows, hgone⟩
  kept := by
    intro slot
    rw [Book.keys_append, List.mem_append]
    rcases h.kept slot with hkept | ⟨hnone, hleft⟩
    · rcases h'.kept slot with hkept' | ⟨hnone', hmem | hinfo⟩
      · exact .inl (hkept'.trans hkept)
      · exact .inr ⟨hnone', .inl (.inr hmem)⟩
      · exact .inr ⟨hnone', .inr (by rwa [hkept] at hinfo)⟩
    · have hnone' : r''.calls.call? slot = none := by
        rcases h'.kept slot with hkept' | ⟨hnone', -⟩
        · rw [hkept', hnone]
        · exact hnone'
      exact .inr ⟨hnone', hleft.imp_left .inl⟩

/-- A described call leaves without a row. -/
theorem pop {s : CallStack} {slot : Nat} (hslot : r.calls.current = some slot)
    (hpop : r.calls.pop = .ok s) (hinfo : ∀ c, r.calls.call? slot = some c →
      c.info.isSome = true ∧ (host.settings.mode = .transaction → slot ≠ 0)) :
    Tells host r { r with calls := s } [] where
  length := by
    show s.slots.length = _
    rw [CallStack.eq_popped_of_pop hpop, CallStack.length_popped]
  table := (List.append_nil _).symm
  nodup := List.nodup_nil
  told := by simp
  kept := by
    intro i
    show s.call? i = _ ∨ s.call? i = none ∧ _
    rw [CallStack.eq_popped_of_pop hpop, CallStack.call?_popped hslot]
    by_cases hi : i = slot
    · subst hi
      rw [if_pos rfl]
      exact .inr ⟨rfl, .inr hinfo⟩
    · rw [if_neg hi]
      exact .inl rfl

theorem describe {slot : Nat} (h : (Review.describe host slot).exec r = (.ok (), r'))
    (hdata : ∀ c, r.calls.call? slot = some c → c.calldata = none) :
    ∃ book, Tells host r r' book := by
  obtain ⟨c, rows, hcall, hrows, rfl⟩ := describe_answers h
  have hgone := r.calls.call?_leave slot
  refine ⟨[(slot, rows)], List.length_set, by simp [Book.rows], by simp [Book.keys], ?_, ?_⟩
  · intro i rows' hmem
    cases List.mem_singleton.mp hmem
    exact ⟨c, hcall, hdata c hcall, hrows, (hgone slot).trans (if_pos rfl)⟩
  · intro i
    by_cases hi : i = slot
    · subst hi
      exact .inr ⟨(hgone i).trans (if_pos rfl), .inl List.mem_cons_self⟩
    · exact .inl ((hgone i).trans (if_neg hi))

theorem forM_describe {slots : List Nat}
    (h : (slots.forM (Review.describe host)).exec r = (.ok (), r'))
    (hdata : ∀ slot ∈ slots, ∀ c, r.calls.call? slot = some c → c.calldata = none) :
    ∃ book, Tells host r r' book := by
  induction slots generalizing r with
  | nil =>
    cases h
    exact ⟨[], refl _⟩
  | cons slot slots ih =>
    rw [forM_cons_answers] at h
    obtain ⟨mid, hdescribe, hrest⟩ := h
    obtain ⟨first, hfirst⟩ := describe hdescribe (hdata slot List.mem_cons_self)
    obtain ⟨rest, hrest⟩ := ih hrest fun i hi c hc =>
      hdata i (List.mem_cons_of_mem _ hi) c (hfirst.before hc)
    exact ⟨first ++ rest, hfirst.trans hrest⟩

theorem flushBefore (h : (Review.flushBefore host).exec r = (.ok (), r')) :
    ∃ book, Tells host r r' book := by
  unfold Review.flushBefore at h
  rw [exec_get_bind] at h
  exact forM_describe h fun _ => CallStack.calldata_of_mem_emptyRun

theorem flushAfter (h : (Review.flushAfter host).exec r = (.ok (), r')) :
    ∃ book, Tells host r r' book := by
  unfold Review.flushAfter at h
  rw [exec_get_bind] at h
  exact forM_describe h fun _ => CallStack.calldata_of_mem_emptyRun

/-- A complete call leaves after the calls without arguments behind it. -/
theorem round {s : CallStack} (hdone : r.calls.isDone host.settings.mode = true)
    (hflush : (Review.flushAfter host).exec r = (.ok (), r')) (hpop : r'.calls.pop = .ok s) :
    ∃ book, Tells host r { r' with calls := s } book := by
  obtain ⟨hhashed, hverified⟩ := Bool.and_eq_true_iff.mp hdone
  obtain ⟨book, htells⟩ := flushAfter hflush
  unfold CallStack.isVerified CallStack.currentCall at hverified
  obtain ⟨c, hcurrent, hdigest⟩ := (Option.any_eq_true _ _).mp hverified
  obtain ⟨slot, hslot, hcall⟩ := Option.bind_eq_some_iff.mp hcurrent
  have hslot' : r'.calls.current = some slot := by
    rw [flushAfter_calls hflush]
    exact (CallStack.current_leaveAll _).trans hslot
  refine ⟨book ++ [], htells.trans (pop hslot' hpop ?_)⟩
  intro d hd
  obtain rfl : c = d := Option.some.inj (hcall.symm.trans (htells.before hd))
  refine ⟨?_, ?_⟩
  · unfold Call.isVerified at hdigest
    cases hinfo : c.info with
    | none => simp [hinfo] at hdigest
    | some info => rfl
  · intro hmode
    rw [hmode] at hhashed
    exact CallStack.ne_zero_of_isHashed hslot hcall hhashed

theorem settleFor {rounds : Nat} (h : (Review.settleFor host rounds).exec r = (.ok (), r')) :
    ∃ book, Tells host r r' book := by
  induction rounds generalizing r with
  | zero =>
    cases h
    exact ⟨[], refl _⟩
  | succ rounds ih =>
    unfold Review.settleFor at h
    rw [exec_get_bind] at h
    by_cases hdone : r.calls.isDone host.settings.mode = true
    · simp only [if_pos hdone, bind_answers, onCalls_answers] at h
      obtain ⟨⟨⟩, flushed, hflush, ⟨⟩, -, ⟨s, hpop, rfl⟩, hrest⟩ := h
      obtain ⟨first, hfirst⟩ := round hdone hflush hpop
      obtain ⟨rest, hrest⟩ := ih hrest
      exact ⟨first ++ rest, hfirst.trans hrest⟩
    · rw [if_neg hdone] at h
      cases h
      exact ⟨[], refl _⟩

theorem settle (h : (Review.settle host).exec r = (.ok (), r')) : ∃ book, Tells host r r' book := by
  unfold Review.settle at h
  rw [exec_get_bind] at h
  exact settleFor h

/-- A call gets its descriptor, with a row if it is held to its digest, and may leave after that. -/
theorem attach {info : TransactionInfo} (h : (Review.attach host info).exec r = (.ok (), r')) :
    ∃ slot c rows, r.calls.current = some slot ∧ r.calls.call? slot = some c ∧
      (r.calls.isHashed host.settings.mode = true →
        ∃ row : Row, rows = [row] ∧ row.Shows intentKey info.operation) ∧
      Tells host ⟨r.calls.modifyAt slot (Call.withInfo info), r.table ++ rows⟩ r' [] := by
  obtain ⟨hattached, rows, htable, hrow⟩ := attach_answers h
  unfold CallStack.attached at hattached
  obtain ⟨s, hmodify, hattached⟩ := bind_eq_ok.mp hattached
  obtain ⟨slot, c, hslot, hcall, rfl⟩ := CallStack.modifyCurrent_eq_ok hmodify
  refine ⟨slot, c, rows, hslot, hcall, hrow, ?_⟩
  obtain ⟨calls, table⟩ := r'
  obtain rfl : table = r.table ++ rows := htable
  split at hattached
  · rename_i hleaves
    refine pop (r := ⟨r.calls.modifyAt slot (Call.withInfo info), _⟩) hslot hattached ?_
    intro d hd
    have hd' : (r.calls.modifyAt slot (Call.withInfo info)).call? slot = some d := hd
    rw [CallStack.call?_modifyAt, if_pos rfl, hcall] at hd'
    cases hd'
    refine ⟨rfl, fun hmode => ?_⟩
    rw [hmode] at hleaves
    exact CallStack.ne_zero_of_isHashed hslot hcall hleaves.1
  · cases hattached
    exact refl _

end Tells

end Review

end ClearSign
