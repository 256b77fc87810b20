import ClearSign.Proofs.Session.Booking
import ClearSign.Proofs.Session.History

/-!
What becomes of the calls that fields open. As long as nothing is wiped, a call that a field opened
is live and waits for its first descriptor, or it has rows of its own in the table: a call with
arguments the row that announces a descriptor of its own, a call without those that describe it. A
transaction that is ready has therefore announced every call that fields opened.
-/

namespace ClearSign.Session

open Refusal ClearSign.Action CallStack

namespace History

variable {h : History}

/-- The descriptors that came for a call. -/
def infos (h : History) (k : Nat) : List TransactionInfo :=
  (h.calls[k]?.map CallHistory.infos).getD []

theorem infos_subset_modify (slot : Nat) {g : CallHistory → CallHistory}
    (hg : ∀ m, m.infos ⊆ (g m).infos) (k : Nat) :
    h.infos k ⊆ ({ h with present := h.present.modify slot g } : History).infos k := by
  unfold infos calls
  rw [List.getElem?_append, List.getElem?_append, List.getElem?_modify]
  split
  · exact List.Subset.refl _
  · cases h.present[k - h.past.length]? with
    | none => exact List.nil_subset _
    | some m =>
      by_cases hk : slot = k - h.past.length
      · simpa [hk] using hg m
      · simp [hk]

theorem infos_subset_opened (arguments : List Bool) (k : Nat) :
    h.infos k ⊆ (h.opened arguments).infos k := by
  have hcalls : (h.opened arguments).calls = h.calls ++ arguments.map fun a => ⟨a, [], []⟩ :=
    (List.append_assoc ..).symm
  unfold infos
  rw [hcalls, List.getElem?_append]
  split
  · exact List.Subset.refl _
  · rename_i hk
    rw [List.getElem?_eq_none (Nat.le_of_not_lt hk)]
    exact List.nil_subset _

theorem infos_restarted : h.restarted.infos = h.infos := by
  have hcalls : h.restarted.calls = h.calls := List.append_nil _
  unfold infos
  rw [hcalls]

theorem infos_subset_withInfo (slot : Nat) (info : TransactionInfo) (k : Nat) :
    h.infos k ⊆ (h.withInfo slot info).infos k :=
  infos_subset_modify slot (fun _ => List.subset_append_left _ _) k

theorem mem_infos_withInfo {slot : Nat} {info : TransactionInfo} (hslot : slot < h.present.length) :
    info ∈ (h.withInfo slot info).infos (h.past.length + slot) := by
  unfold infos calls withInfo
  rw [List.getElem?_append_right (Nat.le_add_right ..), Nat.add_sub_cancel_left,
    List.getElem?_modify, List.getElem?_eq_getElem hslot]
  simp

/-- A field takes no descriptor from a call, and no call from its slot. -/
theorem takeField_keeps (device : Device) (s : Session) (payload : Bytes) :
    (h.takeField device s payload).past = h.past ∧
      ∀ k, h.infos k ⊆ (h.takeField device s payload).infos k := by
  have hfield : ∀ slot (arguments : List Bool) k,
      h.infos k ⊆ ((h.withField slot payload).opened arguments).infos k := by
    intro slot arguments k
    have hmodify : h.infos k ⊆ (h.withField slot payload).infos k :=
      infos_subset_modify slot (g := fun m => { m with fields := m.fields ++ [payload] })
        (fun _ => List.Subset.refl _) k
    exact List.Subset.trans hmodify (infos_subset_opened arguments k)
  unfold takeField
  split
  · split
    · exact ⟨rfl, hfield _ _⟩
    · exact ⟨rfl, fun _ => List.Subset.refl _⟩
  · exact ⟨rfl, fun _ => List.Subset.refl _⟩

end History

/-- The calls that a field opens, as they are opened: those behind the slots that were there. -/
def openedBy (device : Device) (s : Session) (payload : Bytes) : List (Option Opening) :=
  match Field.parse payload, s.review.calls.absorb payload with
  | .ok field, .ok absorbed =>
    let formatted := ((field.format device.toHost s.cache).exec ⟨absorbed, s.review.table⟩).2
    (formatted.calls.slots.drop absorbed.slots.length).map
      (Option.map fun c => ⟨c, s.review.table.length⟩)
  | _, _ => []

/-- The calls of a run, with what came for each and where each came from. -/
structure Ledger where
  history : History
  /-- For each call of the history, the call as a field opened it; nothing for a first call. -/
  origins : List (Option Opening)

namespace Ledger

def empty : Ledger := ⟨.empty, []⟩

/-- Where the calls come from after a whole payload was handled. -/
def takeOrigins (device : Device) (s : Session) (payload : Bytes)
    (origins : List (Option Opening)) : Command → List (Option Opening)
  | .field => origins ++ s.openedBy device payload
  | .transactionInfo => if s.review.calls.count = 0 then origins ++ [none] else origins
  | .proxyBinding | .enumLabel => origins

/-- Where the calls come from after one more operation. A command that fails wipes all. -/
def nextOrigins (device : Device) (s : Session) (origins : List (Option Opening)) :
    Operation → List (Option Opening)
  | .begin t => if ((begin device t).exec s).1.toBool then origins ++ [none] else origins
  | .command command mark chunk =>
    if (s.run device command mark chunk).1 = .ok then
      (s.completed device mark chunk).elim origins fun payload =>
        takeOrigins device s payload origins command
    else []
  | .cleanup => []
  | .park _ | .append _ | .roll => origins

def next (device : Device) (s : Session) (l : Ledger) (op : Operation) : Ledger :=
  ⟨l.history.next device s op, nextOrigins device s l.origins op⟩

end Ledger

/-- The ledger of a run, since all was wiped last. -/
def ledger (device : Device) (ops : List Operation) : Ledger :=
  (noted device (fun s l op => l.next device s op) Ledger.empty ops).2

section

variable {device : Device} {s s' : Session} {past : Nat} {origins : List (Option Opening)}
  {infos : Nat → List TransactionInfo} {book : Book}

/-- What a field opens is booked from then on, and what leaves with it has rows. -/
theorem booked_field {payload : Bytes}
    (hbooked : Booked device.toHost s.review past origins infos book)
    (hrooted : Rooted device.settings.mode s.review.calls past origins)
    (hallowed : s.isAllowed .field = true)
    (h : (handleField device payload).exec s = (.ok (), s')) :
    ∃ book, Booked device.toHost s'.review past (origins ++ s.openedBy device payload) infos book ∧
      Rooted device.settings.mode s'.review.calls past (origins ++ s.openedBy device payload) := by
  obtain ⟨field, slot, c, new, opened, rows, formatted, hparse, hslot, hcall, -, hformat, hgrows,
    htable, hsettle⟩ := handleField_stages h
  have hopened : s.openedBy device payload =
      opened.map fun c => some ⟨c, s.review.table.length⟩ := by
    unfold openedBy
    rw [hparse, absorb_eq hslot hcall payload]
    simp only [hformat, hgrows.slots, List.drop_left, List.map_map]
    rfl
  have hdata : c.calldata.isSome = true := by
    apply hbooked.arguments slot c hcall
    unfold isAllowed currentCall at hallowed
    simpa [hslot, hcall] using hallowed
  obtain ⟨more, htells⟩ := Review.Tells.settle hsettle
  have habsorbed : Booked device.toHost
      ⟨s.review.calls.modifyAt slot (Call.withField payload), s.review.table⟩ past origins infos
      book := hbooked.modifyAt fun c _ => ⟨rfl, .withField payload c⟩
  rw [hopened]
  refine ⟨_, (habsorbed.grows hgrows htable).tells htells, Rooted.of_withRoot fun hmode => ?_⟩
  have hroot := hrooted.withRoot hbooked.length hcall hdata hmode
  have habsorbed' : WithRoot (s.review.calls.modifyAt slot (Call.withField payload)) past origins :=
    hroot.modifyAt fun _ hargs => hargs
  exact (habsorbed'.grows hgrows _).tells hmode htells

/-- A descriptor that comes for a call is announced, and what leaves before has rows. -/
theorem booked_attach {offered flushed : Review} {selected : CallStack} {cache : Cache}
    {info : TransactionInfo} {slot : Nat}
    (hbooked : Booked device.toHost offered past origins infos book)
    (hrooted : Rooted device.settings.mode offered.calls past origins)
    (hselect : offered.calls.select cache info.contract info.selector info.chain = .ok selected)
    (hslot : selected.current = some slot) (hinfo : info ∈ infos (past + slot))
    (hflush : (Review.flushBefore device.toHost).exec { offered with calls := selected } =
      (.ok (), flushed))
    (hattach : (Review.attach device.toHost info).exec flushed = (.ok (), s'.review)) :
    ∃ book, Booked device.toHost s'.review past origins infos book ∧
      Rooted device.settings.mode s'.review.calls past origins := by
  obtain ⟨hslots, slot', c, hslot', hcall, hanswers⟩ := select_eq_ok hselect
  obtain rfl : slot = slot' := Option.some.inj (hslot.symm.trans hslot')
  have hdata := isSome_of_answers hanswers
  have hselected : Booked device.toHost { offered with calls := selected } past origins infos
      book := hbooked.of_slots hslots (List.Sublist.refl _)
  obtain ⟨more, htells⟩ := Review.Tells.flushBefore hflush
  have hflushed := hselected.tells htells
  have hroot : device.settings.mode = .transaction → WithRoot flushed.calls past origins := by
    intro hmode
    have hoffered := hrooted.withRoot hbooked.length hcall hdata hmode
    exact WithRoot.tells (r := { offered with calls := selected }) (hoffered.of_slots hslots)
      hmode htells
  have hcurrent : flushed.calls.current = some slot := by
    rw [Review.flushBefore_calls hflush]
    exact (current_leaveAll _).trans hslot
  -- the call that gets the descriptor is the selected one, which the flush has left alone
  obtain ⟨i, d, rows, hi, hd, -⟩ := Review.Tells.attach hattach
  obtain rfl : slot = i := Option.some.inj (hcurrent.symm.trans hi)
  obtain rfl : c = d := Option.some.inj
    (hcall.symm.trans ((call?_congr hslots slot).symm.trans (htells.before hd)))
  have hhashed : ∀ o, origins[past + slot]? = some (some o) →
      flushed.calls.isHashed device.settings.mode = true := by
    intro o ho
    cases hmode : device.settings.mode with
    | typedData => rfl
    | transaction => exact (hroot hmode).isHashed _ hcurrent ho
  obtain ⟨book', hbooked'⟩ := hflushed.attach hcurrent hd hdata hinfo hhashed hattach
  exact ⟨book', hbooked', Rooted.of_withRoot fun hmode => (hroot hmode).attach hmode hattach⟩

end

/-- A ledger is that of a session, and a book says which rows are shown for which of its calls. -/
structure Accounts (device : Device) (s : Session) (l : Ledger) (book : Book) : Prop where
  faithful : Faithful s.review.calls l.history
  rooted : Rooted device.settings.mode s.review.calls l.history.past.length l.origins
  booked : Booked device.toHost s.review l.history.past.length l.origins l.history.infos book

namespace Accounts

variable {device : Device} {s s' : Session} {l : Ledger} {book : Book}

theorem of_review (h : Accounts device s l book) (hsame : s'.review = s.review) :
    Accounts device s' l book := by
  obtain ⟨hfaithful, hrooted, hbooked⟩ := h
  rw [← hsame] at hfaithful hrooted hbooked
  exact ⟨hfaithful, hrooted, hbooked⟩

theorem length_calls (h : Accounts device s l book) :
    l.history.calls.length = l.origins.length := by
  rw [h.booked.length, ← h.faithful.length]
  exact List.length_append

/-- The ledger after the first call was opened, if all calls before it have left. -/
theorem restarted (h : Accounts device s l book) (hnone : s.review.calls.count = 0) {c : Call}
    {r : Review} (hfresh : IsFresh c) (hslots : r.calls.slots = [some c])
    (htable : r.table = s.review.table ∨ device.settings.mode = .transaction) :
    Booked device.toHost r l.history.calls.length (l.origins ++ [none]) l.history.infos book ∧
      Rooted device.settings.mode r.calls l.history.calls.length (l.origins ++ [none]) := by
  rw [h.length_calls]
  refine ⟨h.booked.restarted hnone hfresh hslots ?_, h.rooted.restarted hnone hslots⟩
  exact htable.symm.imp_left (h.rooted.origins_nil hnone)

theorem takeField (h : Accounts device s l book) {payload : Bytes}
    (hallowed : s.isAllowed .field = true)
    (hs : (handleField device payload).exec s = (.ok (), s')) :
    ∃ book, Accounts device s' ⟨l.history.takeField device s payload,
      l.origins ++ s.openedBy device payload⟩ book := by
  obtain ⟨book', hbooked, hrooted⟩ := booked_field h.booked h.rooted hallowed hs
  obtain ⟨hpast, hinfos⟩ := l.history.takeField_keeps device s payload
  refine ⟨book', faithful_takeField h.faithful hs, ?_, ?_⟩
  · show Rooted _ _ (l.history.takeField device s payload).past.length _
    rw [hpast]
    exact hrooted
  · show Booked _ _ (l.history.takeField device s payload).past.length _ _ _
    rw [hpast]
    exact hbooked.mono hinfos

theorem takeInfo (h : Accounts device s l book) {payload : Bytes}
    (hs : (handleInfo device payload).exec s = (.ok (), s')) :
    ∃ book, Accounts device s' ⟨l.history.takeInfo device s payload,
      if s.review.calls.count = 0 then l.origins ++ [none] else l.origins⟩ book := by
  have hfaithful := faithful_takeInfo h.faithful hs
  obtain ⟨info, offered, selected, flushed, hparse, hoffers, htable, hselect, hflush, hattach⟩ :=
    handleInfo_stages hs
  obtain ⟨-, slot, c', hslot, hcall, -⟩ := select_eq_ok hselect
  rcases hoffers with ⟨hsome, hoffered⟩ | ⟨hnone, c, hfresh, hdata, hroot, -⟩
  · obtain ⟨calls, table⟩ := offered
    obtain rfl : calls = s.review.calls := hoffered
    obtain rfl : table = s.review.table := htable.resolve_right fun hboth => hsome hboth.1
    have htake : l.history.takeInfo device s payload = l.history.withInfo slot info := by
      unfold History.takeInfo
      simp only [hparse, if_neg hsome, hselect, hslot, Option.elim_some]
    have hpresent : slot < l.history.present.length := by
      rw [h.faithful.length]
      exact lt_length hcall
    rw [if_neg hsome]
    rw [htake] at hfaithful ⊢
    obtain ⟨book', hbooked, hrooted⟩ := booked_attach
      (h.booked.mono (History.infos_subset_withInfo slot info)) h.rooted hselect hslot
      (History.mem_infos_withInfo hpresent) hflush hattach
    exact ⟨book', hfaithful, hrooted, hbooked⟩
  · obtain ⟨rfl, rfl⟩ := eq_of_single hroot hcall
    have htake : l.history.takeInfo device s payload =
        (l.history.restarted.opened [s.parked.isSome]).withInfo 0 info := by
      unfold History.takeInfo
      simp only [hparse, if_pos hnone]
    have hinfos : ∀ k, l.history.infos k ⊆
        ((l.history.restarted.opened [s.parked.isSome]).withInfo 0 info).infos k := by
      intro k
      rw [← History.infos_restarted]
      exact List.Subset.trans (History.infos_subset_opened _ k)
        (History.infos_subset_withInfo 0 info k)
    obtain ⟨hbooked, hrooted⟩ := h.restarted hnone hfresh hroot (htable.imp_right And.right)
    rw [if_pos hnone]
    rw [htake] at hfaithful ⊢
    obtain ⟨book', hbooked', hrooted'⟩ := booked_attach (hbooked.mono hinfos) hrooted hselect hslot
      (History.mem_infos_withInfo (h := l.history.restarted.opened _) Nat.zero_lt_one) hflush
      hattach
    exact ⟨book', hfaithful, hrooted', hbooked'⟩

/-- Nothing is to be told of where nothing was opened. -/
theorem empty (device : Device) (challenge : Challenge) :
    Accounts device (idle challenge) Ledger.empty [] :=
  ⟨.empty_slots rfl (by simp [Ledger.empty, History.empty]) rfl, fun _ => .inl rfl, .empty⟩

theorem begin (h : Accounts device s l book) (t : Transaction) :
    ∃ book, Accounts device (s.step device (.begin t)) (l.next device s (.begin t)) book := by
  show ∃ book, Accounts device ((Session.begin device t).exec s).2
    ⟨if ((Session.begin device t).exec s).1.toBool then
        l.history.restarted.opened [(t.calldata.or s.parked).isSome] else l.history,
      if ((Session.begin device t).exec s).1.toBool then l.origins ++ [none] else l.origins⟩ book
  rcases hexec : (Session.begin device t).exec s with ⟨e | ⟨⟩, s'⟩
  · exact ⟨book, h.of_review (begin_refused hexec)⟩
  · obtain ⟨hnone, c, hfresh, hdata, hslots, -, htable⟩ := begin_answers hexec
    obtain ⟨hbooked, hrooted⟩ := h.restarted hnone hfresh hslots htable
    refine ⟨book, ?_, hrooted, hbooked.mono ?_⟩
    · rw [← hdata]
      exact h.faithful.restarted hnone hfresh hslots
    · intro k
      rw [← History.infos_restarted]
      exact History.infos_subset_opened _ k

theorem append (h : Accounts device s l book) (bs : Bytes) :
    Accounts device (s.step device (.append bs)) l book := by
  have hfaithful : Faithful ((Session.append bs).exec s).2.review.calls l.history :=
    faithful_step device (.append bs) h.faithful
  show Accounts device ((Session.append bs).exec s).2 l book
  rcases append_review bs s with hsame | ⟨slot, c, data, data', -, hcall, hdata, happend, hchange⟩
  · exact h.of_review hsame
  · rw [hchange] at hfaithful
    refine ⟨by rwa [hchange], ?_, ?_⟩
    · rw [hchange]
      exact h.rooted.modifyAt fun _ _ => rfl
    · rw [hchange]
      apply h.booked.modifyAt
      intro d hd
      obtain rfl : c = d := Option.some.inj (hcall.symm.trans hd)
      exact ⟨rfl, .append hdata happend⟩

/-- One operation keeps the ledger that of the session. -/
theorem next (h : Accounts device s l book) (op : Operation) :
    ∃ book, Accounts device (s.step device op) (l.next device s op) book := by
  cases op with
  | begin t => exact h.begin t
  | park data => exact ⟨book, h.of_review rfl⟩
  | append bs => exact ⟨book, h.append bs⟩
  | command command mark chunk =>
    show ∃ book, Accounts device (s.run device command mark chunk).2
      ⟨if (s.run device command mark chunk).1 = .ok then _ else _,
        if (s.run device command mark chunk).1 = .ok then _ else _⟩ book
    rcases run_cases device command mark chunk s with ⟨hrefused, challenge, hwiped⟩ |
      ⟨hok, hwaits, r, hs'⟩ | ⟨hok, hallowed, payload, r, hcompleted, hhandle⟩
    · rw [if_neg hrefused, if_neg hrefused, hwiped]
      exact ⟨[], .empty device challenge⟩
    · rw [if_pos hok, if_pos hok, hwaits, hs']
      exact ⟨book, h.of_review rfl⟩
    · rw [if_pos hok, if_pos hok, hcompleted]
      have h' : Accounts device { s with reassembly := r } l book := h.of_review rfl
      cases command with
      | field => exact h'.takeField hallowed hhandle
      | transactionInfo => exact h'.takeInfo hhandle
      | proxyBinding =>
        exact ⟨book, h'.of_review (handle_keeps_review (by simp) (by simp) hhandle)⟩
      | enumLabel =>
        exact ⟨book, h'.of_review (handle_keeps_review (by simp) (by simp) hhandle)⟩
  | roll => exact ⟨book, h.of_review rfl⟩
  | cleanup => exact ⟨[], .empty device s.challenge⟩

end Accounts

/-- The ledger of a run is that of the session it ends in. -/
theorem accounts_run (device : Device) (ops : List Operation) :
    ∃ book, Accounts device (after device ops) (ledger device ops) book := by
  apply noted_keeps fun s l => ∃ book, Accounts device s l book
  · exact ⟨[], .empty device _⟩
  · rintro s l op ⟨book, h⟩
    exact h.next op

/-- In a transaction that is ready, every call that a field opened has rows. -/
theorem Accounts.told_of_ready {device : Device} {s : Session} {l : Ledger} {book : Book}
    (h : Accounts device s l book) (hmode : device.settings.mode = .transaction)
    (hready : s.isReady device = true) {k : Nat} {o : Opening}
    (hk : l.origins[k]? = some (some o)) : k ∈ book.keys := by
  unfold isReady at hready
  rw [hmode] at hready
  have hcount : s.review.calls.count = 1 :=
    beq_iff_eq.mp (Bool.and_eq_true_iff.mp (Bool.and_eq_true_iff.mp hready).1).1
  rcases h.booked.told k o hk with ⟨rows, hrows, -⟩ | ⟨slot, c, rfl, hc, -⟩
  · exact Book.mem_keys.mpr ⟨rows, hrows⟩
  · rcases h.rooted hmode with hnil | ⟨hpast, horigin, root, hroot, -⟩
    · rw [hnil] at hk
      cases hk
    · obtain rfl := eq_of_count_one hcount hroot hc
      rw [hpast, horigin] at hk
      cases hk

/-- As long as nothing is wiped, each call that a field opened is live and waits for its first
descriptor, or it has rows in the table that are its own and came after it: a call with arguments
one that announces a descriptor that came for it, a call without those that describe it. A
transaction that is ready has a row that announces a call for each call that fields opened. -/
theorem nested_accounted (device : Device) (ops : List Operation) :
    let s := after device ops
    let l := ledger device ops
    (∃ book : Book, book.keys.Nodup ∧ book.rows.Sublist s.review.table ∧
      ∀ (k : Nat) (o : Opening), l.origins[k]? = some (some o) →
        (k ∉ book.keys ∧ ∃ slot c, k = l.history.past.length + slot ∧
          s.review.calls.call? slot = some c ∧ o.call.Becomes c ∧ c.info = none) ∨
        ∃ rows, (k, rows) ∈ book ∧ rows.Sublist (s.review.table.drop o.shown) ∧
          Told device.toHost o.call (l.history.infos k) rows) ∧
    (device.settings.mode = .transaction → s.isReady device = true →
      l.origins.countP Option.isSome ≤
        s.review.table.countP fun row => row.key == Review.intentKey) := by
  intro s l
  obtain ⟨book, h⟩ := accounts_run device ops
  refine ⟨⟨book, h.booked.fits.nodup, h.booked.fits.shown, ?_⟩, ?_⟩
  · intro k o hk
    rcases h.booked.told k o hk with ⟨rows, hrows, htold, hlater⟩ | ⟨slot, c, rfl, hc, hnone⟩
    · exact .inr ⟨rows, hrows, hlater, htold⟩
    · exact .inl ⟨h.booked.free slot c hc hnone, slot, c, rfl, hc,
        h.booked.becomes slot o c hk hc, hnone⟩
  · intro hmode hready
    exact h.booked.fits.countP_le fun k o hk => h.told_of_ready hmode hready hk

open Tlv in
/-- A transaction whose fields open a call without arguments and one with arguments, and a
descriptor of the latter that announces no fields. -/
def sampleNesting : List Operation :=
  let nested := write 0 [1] ++ write 1 [97] ++ write 2 [9] ++
    write 3 (write 0 [1] ++ write 1 (sampleValue 7 [1, 2, 3, 4]) ++ write 2 (sampleValue 5 [9]))
  [sampleArguments, sampleInfo (Call.fieldsDigest (sampleLeg ++ nested)).bytes,
    whole .field sampleLeg, whole .field nested,
    whole .transactionInfo <| write 0 [1] ++ write 1 [1] ++ write 2 [9] ++ write 3 [1, 2, 3, 4] ++
      write 4 (Call.fieldsDigest []).bytes ++ write 5 [97] ++ write 0xff []]

/-- Both calls have left, and the table announces both. -/
theorem nested_accounted_both :
    (after (sampleDevice .transaction) sampleNesting).isReady (sampleDevice .transaction) = true ∧
    (ledger (sampleDevice .transaction) sampleNesting).origins.countP Option.isSome = 2 ∧
    (ledger (sampleDevice .transaction) sampleNesting).origins.countP Option.isSome ≤
      (after (sampleDevice .transaction) sampleNesting).review.table.countP
        fun row => row.key == Review.intentKey := by
  have hrun : (after (sampleDevice .transaction) sampleNesting).isReady
        (sampleDevice .transaction) = true ∧
      (ledger (sampleDevice .transaction) sampleNesting).origins.countP Option.isSome = 2 := by
    decide +kernel
  obtain ⟨hready, hopened⟩ := hrun
  exact ⟨hready, hopened, (nested_accounted _ sampleNesting).2 rfl hready⟩

end ClearSign.Session
