import ClearSign.Proofs.Review.Telling
import ClearSign.Proofs.Session.Attachment

/-!
Which rows of the table are shown for which call. Each call that a field opened is live and without
a descriptor, or has rows of its own in the table; every change of a review keeps this.
-/

namespace ClearSign

open Refusal ClearSign.Action

/-- What a call is described by stays the same as long as the call is there. -/
theorem Review.LegRows.of_becomes {host : Host} {c c' : Call} {rows : List Row} (h : c.Becomes c')
    (hrows : LegRows host c' rows) : LegRows host c rows := by
  have hto : destinationText host c' = destinationText host c := by
    unfold destinationText
    rw [h.chain, h.destination]
  cases hrows with
  | sent amount info hamount hintent hshown hrow =>
    exact .sent amount info (h.amount.symm.trans hamount) hintent hshown (hto ▸ hrow)
  | empty hamount hintent hrow =>
    exact .empty (h.amount.symm.trans hamount) hintent (hto ▸ hrow)

/-- The rows of a call that a field opened: with arguments, one that announces a descriptor that
came for it; without, those that describe it. -/
inductive Told (host : Host) (c : Call) (infos : List TransactionInfo) : List Row → Prop
  | announced {info : TransactionInfo} {row : Row} : c.calldata.isSome = true → info ∈ infos →
    row.Shows Review.intentKey info.operation → Told host c infos [row]
  | described {rows : List Row} : c.calldata = none → Review.LegRows host c rows →
    Told host c infos rows

theorem Told.mono {host : Host} {c : Call} {infos infos' : List TransactionInfo} {rows : List Row}
    (h : Told host c infos rows) (hsub : infos ⊆ infos') : Told host c infos' rows := by
  cases h with
  | announced hdata hinfo hrow => exact .announced hdata (hsub hinfo) hrow
  | described hdata hrows => exact .described hdata hrows

/-- A call as a field opened it, and how many rows were shown by then. -/
structure Opening where
  call : Call
  shown : Nat

/-- The book has rows of a call, and they came after the call was opened. -/
def Opening.Settled (host : Host) (table : Table) (infos : List TransactionInfo) (book : Book)
    (k : Nat) (o : Opening) : Prop :=
  ∃ rows, (k, rows) ∈ book ∧ Told host o.call infos rows ∧ rows.Sublist (table.drop o.shown)

theorem Opening.Settled.mono {host : Host} {table table' : Table}
    {infos infos' : List TransactionInfo} {book book' : Book} {k : Nat} {o : Opening}
    (h : o.Settled host table infos book k) (htable : table.Sublist table')
    (hinfos : infos ⊆ infos') (hbook : book ⊆ book') : o.Settled host table' infos' book' k := by
  obtain ⟨rows, hrows, htold, hlater⟩ := h
  exact ⟨rows, hbook hrows, htold.mono hinfos, hlater.trans (htable.drop _)⟩

/-- The rows in the book are in the table, and each call that a field opened has some of its own
there, or is live and without a descriptor. The numbers of the calls in the slots start at
`past`. -/
structure Booked (host : Host) (r : Review) (past : Nat) (origins : List (Option Opening))
    (infos : Nat → List TransactionInfo) (book : Book) : Prop where
  length : origins.length = past + r.calls.slots.length
  fits : book.Fits r.table origins.length
  arguments : ∀ slot c, r.calls.call? slot = some c → c.info.isSome = true →
    c.calldata.isSome = true
  free : ∀ slot c, r.calls.call? slot = some c → c.info = none → past + slot ∉ book.keys
  opened : ∀ (k : Nat) (o : Opening), origins[k]? = some (some o) → o.shown ≤ r.table.length
  becomes : ∀ (slot : Nat) (o : Opening) (c : Call), origins[past + slot]? = some (some o) →
    r.calls.call? slot = some c → o.call.Becomes c
  told : ∀ (k : Nat) (o : Opening), origins[k]? = some (some o) →
    o.Settled host r.table (infos k) book k ∨
    ∃ slot c, k = past + slot ∧ r.calls.call? slot = some c ∧ c.info = none

namespace Booked

variable {host : Host} {r r' : Review} {past : Nat} {origins : List (Option Opening)}
  {infos infos' : Nat → List TransactionInfo} {book more : Book}

theorem number_lt (h : Booked host r past origins infos book) {slot : Nat} {c : Call}
    (hc : r.calls.call? slot = some c) : past + slot < origins.length := by
  have hslot := CallStack.lt_length hc
  rw [h.length]
  omega

theorem mono (h : Booked host r past origins infos book) (hsub : ∀ k, infos k ⊆ infos' k) :
    Booked host r past origins infos' book where
  __ := h
  told k o hk := (h.told k o hk).imp_left fun hsettled =>
    hsettled.mono (List.Sublist.refl _) (hsub k) (List.Subset.refl _)

/-- A review before any call was opened. -/
theorem empty : Booked host Review.empty 0 [] infos [] where
  length := rfl
  fits := .empty _ _
  arguments _ _ hc := by cases hc
  free := by simp [Book.keys]
  opened _ _ hk := by cases hk
  becomes _ _ _ _ hc := by cases hc
  told _ _ hk := by cases hk

/-- Every call may change, as long as it keeps its slot and its descriptor, and rows may come. -/
theorem change (h : Booked host r past origins infos book)
    (hlength : r'.calls.slots.length = r.calls.slots.length)
    (hback : ∀ slot c', r'.calls.call? slot = some c' →
      ∃ c, r.calls.call? slot = some c ∧ c'.info = c.info ∧ c.Becomes c')
    (hforth : ∀ slot c, r.calls.call? slot = some c →
      ∃ c', r'.calls.call? slot = some c' ∧ c'.info = c.info)
    (hshown : r.table.Sublist r'.table) : Booked host r' past origins infos book where
  length := h.length.trans (by rw [hlength])
  fits := h.fits.mono hshown (Nat.le_refl _)
  arguments slot c' hc' hinfo := by
    obtain ⟨c, hc, hsame, hbecomes⟩ := hback slot c' hc'
    rw [hbecomes.arguments]
    exact h.arguments slot c hc (hsame ▸ hinfo)
  free slot c' hc' hnone := by
    obtain ⟨c, hc, hsame, -⟩ := hback slot c' hc'
    exact h.free slot c hc (hsame ▸ hnone)
  opened k o hk := Nat.le_trans (h.opened k o hk) hshown.length_le
  becomes slot o c' horigin hc' := by
    obtain ⟨c, hc, -, hbecomes⟩ := hback slot c' hc'
    exact (h.becomes slot o c horigin hc).trans hbecomes
  told k o hk := by
    rcases h.told k o hk with hsettled | ⟨slot, c, rfl, hc, hnone⟩
    · exact .inl (hsettled.mono hshown (List.Subset.refl _) (List.Subset.refl _))
    · obtain ⟨c', hc', hsame⟩ := hforth slot c hc
      exact .inr ⟨slot, c', rfl, hc', hsame.trans hnone⟩

/-- The calls stay in their slots, and another one may be current. -/
theorem of_slots (h : Booked host r past origins infos book)
    (hslots : r'.calls.slots = r.calls.slots) (hshown : r.table.Sublist r'.table) :
    Booked host r' past origins infos book := by
  have hcall := CallStack.call?_congr hslots
  refine h.change (by rw [hslots]) ?_ ?_ hshown
  · intro slot c hc
    exact ⟨c, by rw [← hcall, hc], rfl, .refl c⟩
  · intro slot c hc
    exact ⟨c, by rw [hcall, hc], rfl⟩

theorem modifyAt (h : Booked host r past origins infos book) {slot : Nat} {f : Call → Call}
    (hf : ∀ c, r.calls.call? slot = some c → (f c).info = c.info ∧ c.Becomes (f c)) :
    Booked host ⟨r.calls.modifyAt slot f, r.table⟩ past origins infos book := by
  refine h.change (List.length_modify ..) ?_ ?_ (List.Sublist.refl _)
  · intro i c' hc'
    rcases CallStack.call?_modifyAt_cases hc' with ⟨rfl, c, hc, rfl⟩ | ⟨-, hc⟩
    · obtain ⟨hinfo, hbecomes⟩ := hf c hc
      exact ⟨c, hc, hinfo, hbecomes⟩
    · exact ⟨c', hc, rfl, .refl c'⟩
  · intro i c hc
    show ∃ c', (r.calls.modifyAt slot f).call? i = some c' ∧ _
    rw [CallStack.call?_modifyAt]
    split
    · rename_i hi
      subst hi
      exact ⟨f c, by rw [hc, Option.map_some], (hf c hc).1⟩
    · exact ⟨c, hc, rfl⟩

/-- Calls that a field opens are live and without a descriptor. -/
theorem grows (h : Booked host r past origins infos book) {new : List NewCall}
    {opened : List Call} {rows : List Row} (hgrows : Field.Grows new r.calls r'.calls opened)
    (htable : r'.table = r.table ++ rows) :
    Booked host r' past (origins ++ opened.map fun c => some ⟨c, r.table.length⟩) infos book where
  length := by
    rw [hgrows.slots, List.length_append, List.length_append, h.length, List.length_map,
      List.length_map, Nat.add_assoc]
  fits := by
    rw [htable, List.length_append]
    exact h.fits.mono (List.sublist_append_left _ _) (Nat.le_add_right ..)
  arguments slot c hc hinfo := by
    rw [hgrows.call?] at hc
    split at hc
    · exact h.arguments slot c hc hinfo
    · rw [(hgrows.fresh c (List.mem_of_getElem? hc)).1] at hinfo
      cases hinfo
  free slot c hc hnone := by
    rw [hgrows.call?] at hc
    split at hc
    · exact h.free slot c hc hnone
    · rename_i hnew
      intro hmem
      have hbound := h.fits.bound _ hmem
      rw [h.length] at hbound
      omega
  opened k o hk := by
    rw [htable, List.length_append]
    rw [List.getElem?_append] at hk
    split at hk
    · exact Nat.le_add_right_of_le (h.opened k o hk)
    · rw [List.getElem?_map] at hk
      obtain ⟨c, -, hsome⟩ := Option.map_eq_some_iff.mp hk
      cases hsome
      exact Nat.le_add_right ..
  becomes slot o c horigin hc := by
    rw [hgrows.call?] at hc
    rw [List.getElem?_append, h.length] at horigin
    by_cases hold : slot < r.calls.slots.length
    · rw [if_pos hold] at hc
      rw [if_pos (by omega)] at horigin
      exact h.becomes slot o c horigin hc
    · rw [if_neg hold] at hc
      rw [if_neg (by omega), show past + slot - (past + r.calls.slots.length) =
        slot - r.calls.slots.length by omega, List.getElem?_map, hc] at horigin
      cases horigin
      exact .refl c
  told k o hk := by
    rw [List.getElem?_append] at hk
    by_cases hold : k < origins.length
    · rw [if_pos hold] at hk
      rcases h.told k o hk with hsettled | ⟨slot, c, rfl, hc, hnone⟩
      · refine .inl (hsettled.mono ?_ (List.Subset.refl _) (List.Subset.refl _))
        rw [htable]
        exact List.sublist_append_left _ _
      · exact .inr ⟨slot, c, rfl, by rw [hgrows.call?, if_pos (CallStack.lt_length hc), hc], hnone⟩
    · rw [if_neg hold, List.getElem?_map] at hk
      rw [h.length] at hold hk
      obtain ⟨c, hc, hsome⟩ := Option.map_eq_some_iff.mp hk
      cases hsome
      refine .inr ⟨k - past, c, by omega, ?_, (hgrows.fresh c (List.mem_of_getElem? hc)).1⟩
      rw [hgrows.call?, if_neg (by omega), Nat.sub_sub, hc]

/-- The rows of calls that leave are a book of what they add to the table. -/
theorem fits_of_tells (h : Booked host r past origins infos book)
    (htells : Review.Tells host r r' more) :
    (more.shifted past).Fits more.rows origins.length where
  nodup := by
    rw [Book.keys_shifted]
    exact List.pairwise_map.mpr (htells.nodup.imp fun hne => by omega)
  bound k hk := by
    rw [Book.keys_shifted] at hk
    obtain ⟨slot, hslot, rfl⟩ := List.mem_map.mp hk
    obtain ⟨rows, hrows⟩ := Book.mem_keys.mp hslot
    obtain ⟨c, hc, -⟩ := htells.told slot rows hrows
    exact h.number_lt hc
  intents k rows hk := by
    obtain ⟨⟨slot, rows'⟩, hmem, heq⟩ := List.mem_map.mp hk
    obtain ⟨-, rfl⟩ := Prod.mk.inj heq
    obtain ⟨c, -, -, hrows, -⟩ := htells.told slot rows' hmem
    exact hrows.exists_intent
  shown := by
    rw [Book.rows_shifted]

/-- A call that a field opened and that leaves without arguments has rows of its own then. -/
theorem settled_of_tells (h : Booked host r past origins infos book)
    (htells : Review.Tells host r r' more) {slot : Nat} {o : Opening}
    (hk : origins[past + slot]? = some (some o)) (hslot : slot ∈ more.keys) :
    o.Settled host (r.table ++ more.rows) (infos (past + slot)) (book ++ more.shifted past)
      (past + slot) := by
  obtain ⟨rows, hrows⟩ := Book.mem_keys.mp hslot
  obtain ⟨c, hc, hdata, hleg, -⟩ := htells.told slot rows hrows
  have hbecomes := h.becomes slot o c hk hc
  have hempty : o.call.calldata = none := by
    have hargs := hbecomes.arguments
    rw [hdata] at hargs
    exact Option.not_isSome_iff_eq_none.mp (by simp [← hargs])
  refine ⟨rows, List.mem_append_right _ (Book.mem_shifted.mpr hrows),
    .described hempty (hleg.of_becomes hbecomes), ?_⟩
  rw [List.drop_append_of_le_length (h.opened _ o hk)]
  exact (Book.sublist_rows hrows).trans (List.sublist_append_right _ _)

/-- Calls without arguments leave with rows of their own, and described ones had a row before. -/
theorem tells (h : Booked host r past origins infos book) (htells : Review.Tells host r r' more) :
    Booked host r' past origins infos (book ++ more.shifted past) where
  length := by rw [h.length, htells.length]
  fits := by
    rw [htells.table]
    refine h.fits.append (h.fits_of_tells htells) ?_
    intro k hk
    rw [Book.keys_shifted] at hk
    obtain ⟨slot, hslot, rfl⟩ := List.mem_map.mp hk
    obtain ⟨rows, hrows⟩ := Book.mem_keys.mp hslot
    obtain ⟨c, hc, hdata, -⟩ := htells.told slot rows hrows
    refine h.free slot c hc ?_
    by_contra hinfo
    have hsome := h.arguments slot c hc (Option.isSome_iff_ne_none.mpr hinfo)
    rw [hdata] at hsome
    cases hsome
  arguments slot c hc := h.arguments slot c (htells.before hc)
  free slot c hc hnone := by
    rw [Book.keys_append, Book.keys_shifted, List.mem_append, List.mem_map]
    rintro (hk | ⟨slot', hslot, hsame⟩)
    · exact h.free slot c (htells.before hc) hnone hk
    · obtain rfl : slot' = slot := by omega
      obtain ⟨rows, hrows⟩ := Book.mem_keys.mp hslot
      obtain ⟨-, -, -, -, hgone⟩ := htells.told slot' rows hrows
      rw [hgone] at hc
      cases hc
  opened k o hk := by
    rw [htells.table, List.length_append]
    exact Nat.le_add_right_of_le (h.opened k o hk)
  becomes slot o c horigin hc := h.becomes slot o c horigin (htells.before hc)
  told k o hk := by
    rw [htells.table]
    rcases h.told k o hk with hsettled | ⟨slot, c, rfl, hc, hnone⟩
    · exact .inl (hsettled.mono (List.sublist_append_left _ _) (List.Subset.refl _)
        (List.subset_append_left _ _))
    · rcases htells.kept slot with hkept | ⟨-, hslot | hinfo⟩
      · exact .inr ⟨slot, c, rfl, by rw [hkept, hc], hnone⟩
      · exact .inl (h.settled_of_tells htells hk hslot)
      · have hsome := (hinfo c hc).1
        rw [hnone] at hsome
        cases hsome

/-- Where no call is live, every call that a field opened has its rows. -/
theorem told_of_none (h : Booked host r past origins infos book) (hnone : r.calls.count = 0)
    {k : Nat} {o : Opening} (hk : origins[k]? = some (some o)) :
    o.Settled host r.table (infos k) book k := by
  rcases h.told k o hk with hsettled | ⟨slot, c, -, hc, -⟩
  · exact hsettled
  · exact absurd (List.length_eq_zero_iff.mp hnone) (CallStack.live_ne_nil hc)

theorem getElem?_of_concat {k : Nat} {o : Opening}
    (hk : (origins ++ [none])[k]? = some (some o)) : origins[k]? = some (some o) := by
  rw [List.getElem?_append] at hk
  split at hk
  · exact hk
  · rw [List.getElem?_singleton] at hk
    split at hk <;> cases hk

/-- The first call after all others have left. Rows may only start over if there was no call
before it. -/
theorem restarted (h : Booked host r past origins infos book) (hnone : r.calls.count = 0) {c : Call}
    (hfresh : CallStack.IsFresh c) (hslots : r'.calls.slots = [some c])
    (htable : origins = [] ∨ r'.table = r.table) :
    Booked host r' origins.length (origins ++ [none]) infos book where
  length := by rw [hslots, List.length_append, List.length_singleton, List.length_singleton]
  fits := by
    rw [List.length_append]
    rcases htable with rfl | hsame
    · rw [h.fits.nil_of_none]
      exact .empty _ _
    · rw [hsame]
      exact h.fits.mono (List.Sublist.refl _) (Nat.le_add_right ..)
  arguments slot d hd hinfo := by
    obtain ⟨rfl, rfl⟩ := CallStack.eq_of_single hslots hd
    rw [hfresh.1] at hinfo
    cases hinfo
  free slot d hd _ hmem := by
    have hbound := h.fits.bound _ hmem
    omega
  opened k o hk := by
    have hold := getElem?_of_concat hk
    rcases htable with rfl | hsame
    · cases hold
    · rw [hsame]
      exact h.opened k o hold
  becomes slot o d horigin hd := by
    obtain ⟨rfl, rfl⟩ := CallStack.eq_of_single hslots hd
    simp at horigin
  told k o hk := by
    have hold := getElem?_of_concat hk
    rcases htable with rfl | hsame
    · cases hold
    · rw [hsame]
      exact .inl (h.told_of_none hnone hold)

/-- The call in a slot gets a descriptor. Rows for it may be booked if it is the first one; if a
field opened the call, the call has rows after that. -/
theorem withInfo (h : Booked host r past origins infos book) {slot : Nat} {c : Call}
    {info : TransactionInfo} {rows : List Row} (hcall : r.calls.call? slot = some c)
    (hdata : c.calldata.isSome = true) (hmore : more.Fits rows origins.length)
    (hfirst : ∀ k ∈ more.keys, k = past + slot ∧ c.info = none)
    (hsettled : ∀ o, origins[past + slot]? = some (some o) →
      o.Settled host (r.table ++ rows) (infos (past + slot)) (book ++ more) (past + slot)) :
    Booked host ⟨r.calls.modifyAt slot (Call.withInfo info), r.table ++ rows⟩ past origins infos
      (book ++ more) where
  length := h.length.trans (by rw [← List.length_modify (Option.map (Call.withInfo info))]; rfl)
  fits := by
    refine h.fits.append hmore ?_
    intro k hk
    obtain ⟨rfl, hnone⟩ := hfirst k hk
    exact h.free slot c hcall hnone
  arguments i d hd hinfo := by
    rcases CallStack.call?_modifyAt_cases hd with ⟨rfl, c', hc', rfl⟩ | ⟨-, hd⟩
    · obtain rfl : c = c' := Option.some.inj (hcall.symm.trans hc')
      exact hdata
    · exact h.arguments i d hd hinfo
  free i d hd hnone := by
    rcases CallStack.call?_modifyAt_cases hd with ⟨rfl, c', hc', rfl⟩ | ⟨hi, hd⟩
    · cases hnone
    · rw [Book.keys_append, List.mem_append]
      rintro (hk | hk)
      · exact h.free i d hd hnone hk
      · have hsame := (hfirst _ hk).1
        omega
  opened k o hk := by
    rw [List.length_append]
    exact Nat.le_add_right_of_le (h.opened k o hk)
  becomes i o d horigin hd := by
    rcases CallStack.call?_modifyAt_cases hd with ⟨rfl, c', hc', rfl⟩ | ⟨-, hd⟩
    · exact (h.becomes i o c' horigin hc').trans (.withInfo info c')
    · exact h.becomes i o d horigin hd
  told k o hk := by
    by_cases hsame : k = past + slot
    · subst hsame
      exact .inl (hsettled o hk)
    · rcases h.told k o hk with hbooked | ⟨i, d, rfl, hd, hnone⟩
      · exact .inl (hbooked.mono (List.sublist_append_left _ _) (List.Subset.refl _)
          (List.subset_append_left _ _))
      · refine .inr ⟨i, d, rfl, ?_, hnone⟩
        show (r.calls.modifyAt slot (Call.withInfo info)).call? i = _
        rw [CallStack.call?_modifyAt, if_neg (by omega), hd]

/-- A descriptor that is attached is the first one of its call, and then its row is booked, or the
call has a row already. -/
theorem attach (h : Booked host r past origins infos book) {slot : Nat} {c : Call}
    {info : TransactionInfo} (hslot : r.calls.current = some slot)
    (hcall : r.calls.call? slot = some c) (hdata : c.calldata.isSome = true)
    (hinfo : info ∈ infos (past + slot))
    (hhashed : ∀ o, origins[past + slot]? = some (some o) →
      r.calls.isHashed host.settings.mode = true)
    (hattach : (Review.attach host info).exec r = (.ok (), r')) :
    ∃ book, Booked host r' past origins infos book := by
  obtain ⟨slot', c', rows, hslot', hcall', hrow, htells⟩ := Review.Tells.attach hattach
  obtain rfl : slot = slot' := Option.some.inj (hslot.symm.trans hslot')
  obtain rfl : c = c' := Option.some.inj (hcall.symm.trans hcall')
  suffices hbooked : ∃ more, Booked host
      ⟨r.calls.modifyAt slot (Call.withInfo info), r.table ++ rows⟩ past origins infos
      (book ++ more) by
    obtain ⟨more, hmore⟩ := hbooked
    exact ⟨_, hmore.tells htells⟩
  -- a call that got a descriptor before has its row, and first calls need none
  by_cases hfirst : c.info = none ∧ ∃ o, origins[past + slot]? = some (some o)
  · obtain ⟨hnone, o, ho⟩ := hfirst
    obtain ⟨row, rfl, hshows⟩ := hrow (hhashed o ho)
    have hrow : Book.Fits [row] origins.length [(past + slot, [row])] :=
      ⟨by simp [Book.keys], by simpa [Book.keys] using h.number_lt hcall,
        by simpa using hshows.key, by simp [Book.rows]⟩
    refine ⟨[(past + slot, [row])], h.withInfo hcall hdata hrow (by simp [Book.keys, hnone]) ?_⟩
    intro o ho
    have hargs := (h.becomes slot o c ho hcall).arguments
    refine ⟨[row], List.mem_append_right _ List.mem_cons_self,
      .announced (hargs.symm.trans hdata) hinfo hshows, ?_⟩
    rw [List.drop_append_of_le_length (h.opened _ o ho)]
    exact List.sublist_append_right _ _
  · refine ⟨[], h.withInfo hcall hdata (.empty _ _) (by simp [Book.keys]) ?_⟩
    intro o ho
    rcases h.told _ o ho with hsettled | ⟨i, d, hi, hd, hnone⟩
    · exact hsettled.mono (List.sublist_append_left _ _) (List.Subset.refl _)
        (List.subset_append_left _ _)
    · obtain rfl : slot = i := by omega
      obtain rfl : c = d := Option.some.inj (hcall.symm.trans hd)
      exact absurd ⟨hnone, o, ho⟩ hfirst

end Booked

/-- The first call has the first slot, no field opened it, and it has arguments. -/
structure WithRoot (s : CallStack) (past : Nat) (origins : List (Option Opening)) : Prop where
  past : past = 0
  origin : origins[0]? = some none
  root : ∃ c, s.call? 0 = some c ∧ c.calldata.isSome = true

namespace WithRoot

variable {host : Host} {r r' : Review} {s s' : CallStack} {past : Nat}
  {origins : List (Option Opening)} {book : Book}

/-- A call that a field opened is held to its digest. -/
theorem isHashed (h : WithRoot s past origins) (mode : SigningMode) {slot : Nat} {o : Opening}
    (hslot : s.current = some slot) (ho : origins[past + slot]? = some (some o)) :
    s.isHashed mode = true := by
  obtain ⟨root, hroot, -⟩ := h.root
  have hother : slot ≠ 0 := by
    rintro rfl
    rw [h.past, h.origin] at ho
    cases ho
  unfold CallStack.isHashed CallStack.isRoot
  rw [hslot, CallStack.head?_places hroot]
  simp [hother]

theorem of_slots (h : WithRoot s past origins) (hslots : s'.slots = s.slots) :
    WithRoot s' past origins where
  past := h.past
  origin := h.origin
  root := by
    rw [CallStack.call?_congr hslots]
    exact h.root

theorem modifyAt (h : WithRoot s past origins) {slot : Nat} {f : Call → Call}
    (hf : ∀ c, c.calldata.isSome = true → (f c).calldata.isSome = true) :
    WithRoot (s.modifyAt slot f) past origins where
  past := h.past
  origin := h.origin
  root := by
    obtain ⟨c, hc, hdata⟩ := h.root
    rw [CallStack.call?_modifyAt]
    split
    · exact ⟨f c, by rw [hc, Option.map_some], hf c hdata⟩
    · exact ⟨c, hc, hdata⟩

theorem grows (h : WithRoot s past origins) {new : List NewCall} {opened : List Call}
    (hgrows : Field.Grows new s s' opened) (more : List (Option Opening)) :
    WithRoot s' past (origins ++ more) where
  past := h.past
  origin := by
    rw [List.getElem?_append_left (List.getElem?_eq_some_iff.mp h.origin).1, h.origin]
  root := by
    obtain ⟨c, hc, hdata⟩ := h.root
    exact ⟨c, by rw [hgrows.call?, if_pos (CallStack.lt_length hc), hc], hdata⟩

/-- The first call of a transaction stays while others leave. -/
theorem tells (h : WithRoot r.calls past origins) (hmode : host.settings.mode = .transaction)
    (htells : Review.Tells host r r' book) : WithRoot r'.calls past origins where
  past := h.past
  origin := h.origin
  root := by
    obtain ⟨c, hc, hdata⟩ := h.root
    rcases htells.kept 0 with hkept | ⟨-, htold | hinfo⟩
    · exact ⟨c, hkept.trans hc, hdata⟩
    · obtain ⟨rows, hrows⟩ := Book.mem_keys.mp htold
      obtain ⟨d, hd, hnone, -⟩ := htells.told 0 rows hrows
      obtain rfl : c = d := Option.some.inj (hc.symm.trans hd)
      rw [hnone] at hdata
      cases hdata
    · exact absurd rfl ((hinfo c hc).2 hmode)

theorem attach {info : TransactionInfo} (h : WithRoot r.calls past origins)
    (hmode : host.settings.mode = .transaction)
    (hattach : (Review.attach host info).exec r = (.ok (), r')) :
    WithRoot r'.calls past origins := by
  obtain ⟨slot, c, rows, -, -, -, htells⟩ := Review.Tells.attach hattach
  have hmodified : WithRoot (r.calls.modifyAt slot (Call.withInfo info)) past origins :=
    h.modifyAt fun _ hdata => hdata
  exact tells (r := ⟨r.calls.modifyAt slot (Call.withInfo info), r.table ++ rows⟩) hmodified hmode
    htells

end WithRoot

/-- In a transaction, the first call has the first slot, no field opened it, and it has arguments
once another call has come. -/
def Rooted (mode : SigningMode) (s : CallStack) (past : Nat) (origins : List (Option Opening)) :
    Prop :=
  mode = .transaction → origins = [] ∨ past = 0 ∧ origins[0]? = some none ∧
    ∃ c, s.call? 0 = some c ∧ (s.slots.length ≤ 1 ∨ c.calldata.isSome = true)

namespace Rooted

variable {mode : SigningMode} {s t : CallStack} {past : Nat} {origins : List (Option Opening)}

theorem of_withRoot (h : mode = .transaction → WithRoot s past origins) :
    Rooted mode s past origins := by
  intro hmode
  obtain ⟨hpast, horigin, c, hc, hdata⟩ := h hmode
  exact .inr ⟨hpast, horigin, c, hc, .inr hdata⟩

/-- Any call with arguments makes it that the first one has arguments. -/
theorem withRoot (h : Rooted mode s past origins)
    (hlength : origins.length = past + s.slots.length) {slot : Nat} {c : Call}
    (hcall : s.call? slot = some c) (hdata : c.calldata.isSome = true)
    (hmode : mode = .transaction) : WithRoot s past origins := by
  have hslot := CallStack.lt_length hcall
  rcases h hmode with rfl | ⟨hpast, horigin, root, hroot, hfew | hargs⟩
  · rw [List.length_nil] at hlength
    omega
  · obtain rfl : slot = 0 := by omega
    exact ⟨hpast, horigin, c, hcall, hdata⟩
  · exact ⟨hpast, horigin, root, hroot, hargs⟩

/-- No call was opened before the first one of a transaction. -/
theorem origins_nil (h : Rooted mode s past origins) (hnone : s.count = 0)
    (hmode : mode = .transaction) : origins = [] := by
  rcases h hmode with hnil | ⟨-, -, c, hc, -⟩
  · exact hnil
  · exact absurd (List.length_eq_zero_iff.mp hnone) (CallStack.live_ne_nil hc)

theorem restarted (h : Rooted mode s past origins) (hnone : s.count = 0) {c : Call}
    (hslots : t.slots = [some c]) : Rooted mode t origins.length (origins ++ [none]) := by
  intro hmode
  obtain rfl := h.origins_nil hnone hmode
  exact .inr ⟨rfl, rfl, c, by simp [CallStack.call?, hslots], .inl (by simp [hslots])⟩

theorem modifyAt (h : Rooted mode s past origins) {slot : Nat} {f : Call → Call}
    (hf : ∀ c, c.calldata.isSome = true → (f c).calldata.isSome = true) :
    Rooted mode (s.modifyAt slot f) past origins := by
  intro hmode
  rcases h hmode with hnil | ⟨hpast, horigin, c, hc, hargs⟩
  · exact .inl hnil
  · have hlength : (s.modifyAt slot f).slots.length = s.slots.length := List.length_modify ..
    refine .inr ⟨hpast, horigin, ?_⟩
    rw [hlength, CallStack.call?_modifyAt]
    split
    · exact ⟨f c, by rw [hc, Option.map_some], hargs.imp_right (hf c)⟩
    · exact ⟨c, hc, hargs⟩

end Rooted

end ClearSign
