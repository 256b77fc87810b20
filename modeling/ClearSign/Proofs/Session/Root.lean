import ClearSign.Proofs.Review.Root
import ClearSign.Proofs.Session.Addressee
import ClearSign.Proofs.Session.Stranding
import Mathlib.Data.List.Induction

/-!
The transaction that is signed. The call that a transaction was begun with, or that parked
arguments became, stays the first one as long as nothing is wiped: no flush and no call that leaves
reaches it, and whenever a call leaves, one that is live is current. Whether the session is ready
is therefore a question about that call.
-/

namespace ClearSign.Session

open Refusal ClearSign.Action CallStack

/-- An operation opens the first call: it begins a transaction with success, or it is the last
chunk of a descriptor that is accepted where no call is live. -/
inductive Opens (device : Device) (s : Session) : Operation → Transaction → Prop
  | transaction {t : Transaction} (hok : ((begin device t).exec s).1 = .ok ()) :
    Opens device s (.begin t) { t with calldata := t.calldata.or s.parked }
  | descriptor {mark : UInt8} {chunk payload : Bytes} {info : TransactionInfo}
    (hnone : s.review.calls.count = 0) (hcompleted : s.completed device mark chunk = some payload)
    (hparse : TransactionInfo.parse s.selectorCheck device.verifier payload = .ok info)
    (hok : (s.run device .transactionInfo mark chunk).1 = .ok) :
    Opens device s (.command .transactionInfo mark chunk)
      ⟨some info.contract, none, info.chain, s.parked⟩

/-- An operation drops all that came. -/
def Wipes (device : Device) (s : Session) : Operation → Prop
  | .command command mark chunk => (s.run device command mark chunk).1 ≠ .ok
  | .cleanup => True
  | _ => False

instance (device : Device) (s : Session) : (op : Operation) → Decidable (Wipes device s op)
  | .command .. => inferInstanceAs (Decidable (_ ≠ _))
  | .cleanup => .isTrue trivial
  | .begin _ | .park _ | .append _ | .roll => .isFalse id

/-- What is under review at some moment until a field or a descriptor has been handled: before it
came, after any number of rounds of settling, after a flush, and after a call got its
descriptor. -/
inductive Passes (device : Device) (s : Session) : Review → Prop
  | start : Passes device s s.review
  | settle {payload : Bytes} {field : Field} {absorbed : CallStack} {formatted r : Review}
    {rounds : Nat} (hparse : Field.parse payload = .ok field)
    (habsorb : s.review.calls.absorb payload = .ok absorbed)
    (hformat : (field.format device.toHost s.cache).exec { s.review with calls := absorbed } =
      (.ok (), formatted))
    (hsettle : (Review.settleFor device.toHost rounds).exec formatted = (.ok (), r)) :
    Passes device s r
  | flushAfter {r r' : Review} (h : Passes device s r)
    (hflush : (Review.flushAfter device.toHost).exec r = (.ok (), r')) : Passes device s r'
  | flushBefore {payload : Bytes} {info : TransactionInfo} {selected : CallStack} {r : Review}
    (hparse : TransactionInfo.parse s.selectorCheck device.verifier payload = .ok info)
    (hselect : s.review.calls.select s.cache info.contract info.selector info.chain =
      .ok selected)
    (hflush : (Review.flushBefore device.toHost).exec { s.review with calls := selected } =
      (.ok (), r)) : Passes device s r
  | attach {info : TransactionInfo} {r r' : Review} (h : Passes device s r)
    (hattach : (Review.attach device.toHost info).exec r = (.ok (), r')) : Passes device s r'

section

variable {device : Device} {s s' : Session} {root : Call}

/-- However far the handling of a payload has come, the first call is there. -/
theorem Passes.pinned {r : Review} (h : Passes device s r)
    (hmode : device.settings.mode = .transaction) (hpinned : s.review.calls.Pinned root)
    (hs : s.review.calls.Sound) : r.calls.Pinned root := by
  induction h with
  | start => exact hpinned
  | settle _ habsorb hformat hsettle =>
    have habsorbed := hpinned.absorb habsorb
    have hlive := fun hnone => habsorbed.count_ne_zero (List.length_eq_zero_iff.mpr hnone)
    obtain ⟨new, opened, rows, -, hgrows, -⟩ := Field.format_answers hlive hformat
    rw [Review.settleFor_calls hsettle, hmode]
    exact (habsorbed.grows hgrows).settledFor _
  | flushAfter _ hflush ih =>
    rw [Review.flushAfter_calls hflush]
    exact ih.flushedAfter
  | flushBefore _ hselect hflush =>
    rw [Review.flushBefore_calls hflush]
    exact hpinned.selected hs.ordered.first hselect
  | attach _ hattach ih =>
    have hattached := (Review.attach_answers hattach).1
    rw [hmode] at hattached
    exact ih.attached hattached

/-- The call that an operation opens is the first one afterwards. -/
theorem Opens.pinned {op : Operation} {t : Transaction} (h : Opens device s op t)
    (hmode : device.settings.mode = .transaction) :
    ∃ wallet, device.registry.wallet = .ok wallet ∧
      (s.step device op).review.calls.Pinned (t.call wallet) := by
  cases h with
  | @transaction t hok =>
    show ∃ wallet, _ ∧ ((begin device t).exec s).2.review.calls.Pinned _
    rcases hexec : (begin device t).exec s with ⟨e | ⟨⟩, s'⟩
    · rw [hexec] at hok
      cases hok
    · obtain ⟨hnone, s₁, hreview, hopen⟩ := begin_opens hexec
      obtain ⟨wallet, hwallet, hslots, hcurrent, -⟩ :=
        openRoot_answers (by rw [hreview, hnone]) hopen
      exact ⟨wallet, hwallet, .alone hslots hcurrent⟩
  | descriptor hnone hcompleted hparse hok =>
    obtain ⟨r, hhandle⟩ := handleInfo_of_accepted hcompleted hok
    obtain ⟨info, s₁, hparse', hopens, hstages⟩ := handleInfo_opens hhandle
    obtain rfl := Except.ok.inj (hparse.symm.trans hparse')
    obtain ⟨hlive, -⟩ | ⟨-, hopen⟩ := hopens
    · exact absurd hnone hlive
    · obtain ⟨wallet, hwallet, hslots, hcurrent, -⟩ := openRoot_answers (by exact hnone) hopen
      obtain ⟨selected, flushed, hselect, hflush, hattach⟩ := attach_stages hstages
      refine ⟨wallet, hwallet, ?_⟩
      have hsingle : ∀ c others, s₁.review.calls.live = c :: others → others ≠ [] →
          c.calldata.isSome = true := by
        intro c others hlive hothers
        unfold live at hlive
        rw [hslots] at hlive
        exact absurd (List.cons.inj hlive).2.symm hothers
      have hattached := (Review.attach_answers hattach).1
      rw [hmode, Review.flushBefore_calls hflush] at hattached
      exact ((Pinned.alone hslots hcurrent).selected hsingle hselect).attached hattached

/-- An operation that wipes nothing leaves the first call in its place. -/
theorem step_pinned {op : Operation} (hmode : device.settings.mode = .transaction)
    (hpinned : s.review.calls.Pinned root) (hs : s.review.calls.Sound)
    (hkeeps : ¬ s.Wipes device op) : (s.step device op).review.calls.Pinned root := by
  have of_review (h : (s.step device op).review = s.review) :
      (s.step device op).review.calls.Pinned root := by
    rw [h]
    exact hpinned
  cases op with
  | begin t =>
    rcases hexec : (begin device t).exec s with ⟨e | ⟨⟩, s'⟩
    · exact of_review ((congrArg (fun p => p.2.review) hexec).trans (begin_refused hexec))
    · exact absurd (begin_answers hexec).1 hpinned.count_ne_zero
  | park data => exact hpinned
  | append bs =>
    rcases append_review bs s with hsame | ⟨slot, c, data, data', -, hcall, hdata, happend, hchange⟩
    · exact of_review hsame
    · show ((append bs).exec s).2.review.calls.Pinned root
      rw [hchange]
      apply hpinned.modifyAt
      intro d hd
      obtain rfl : c = d := Option.some.inj (hcall.symm.trans hd)
      exact .append hdata happend
  | command command mark chunk =>
    rcases run_cases device command mark chunk s with ⟨hrefused, -⟩ | ⟨-, -, r, hwaits⟩ |
      ⟨-, -, payload, r, -, hhandle⟩
    · exact absurd hrefused hkeeps
    · apply of_review
      show (s.run device command mark chunk).2.review = _
      rw [hwaits]
    · show (s.run device command mark chunk).2.review.calls.Pinned root
      let s₁ : Session := { s with reassembly := r }
      cases command with
      | field =>
        obtain ⟨field, slot, c, new, opened, rows, formatted, hparse, hslot, hcall, -, hformat, -,
          -, hsettle⟩ := handleField_stages hhandle
        have hpasses : Passes device s₁ (s.run device .field mark chunk).2.review :=
          .settle hparse (absorb_eq hslot hcall payload) hformat hsettle
        exact hpasses.pinned hmode hpinned hs
      | transactionInfo =>
        obtain ⟨info, s₂, hparse, ⟨-, rfl⟩ | ⟨hnone, -⟩, hstages⟩ := handleInfo_opens hhandle
        · obtain ⟨selected, flushed, hselect, hflush, hattach⟩ := attach_stages hstages
          have hpasses : Passes device s₁ (s.run device .transactionInfo mark chunk).2.review :=
            (Passes.flushBefore hparse hselect hflush).attach hattach
          exact hpasses.pinned hmode hpinned hs
        · exact absurd hnone hpinned.count_ne_zero
      | proxyBinding =>
        rw [handle_keeps_review (by simp) (by simp) hhandle]
        exact hpinned
      | enumLabel =>
        rw [handle_keeps_review (by simp) (by simp) hhandle]
        exact hpinned
  | roll => exact hpinned
  | cleanup => exact absurd trivial hkeeps

/-- As long as nothing is wiped, the first call stays in its place. -/
theorem pinned_run {ops rest : List Operation} {op : Operation}
    (hmode : device.settings.mode = .transaction)
    (hopened : ((after device ops).step device op).review.calls.Pinned root)
    (hkeeps : ∀ i next, rest[i]? = some next →
      ¬ Wipes device (after device (ops ++ op :: rest.take i)) next) :
    (after device (ops ++ op :: rest)).review.calls.Pinned root := by
  induction rest using List.reverseRecOn with
  | nil =>
    rw [after_concat]
    exact hopened
  | append_singleton rest next ih =>
    have hbefore : (after device (ops ++ op :: rest)).review.calls.Pinned root := by
      apply ih
      intro i next' hnext
      have hi : i < rest.length := (List.getElem?_eq_some_iff.mp hnext).1
      rw [← List.take_append_of_le_length (Nat.le_of_lt hi)]
      exact hkeeps i next' (by rw [List.getElem?_append_left hi, hnext])
    have hlast := hkeeps rest.length next (by simp)
    rw [List.take_left] at hlast
    have hrun : ops ++ op :: (rest ++ [next]) = (ops ++ op :: rest) ++ [next] := by simp
    rw [hrun, after_concat]
    exact step_pinned hmode hbefore (run_stranding hmode _).1 hlast

/-- With the first call in its place, a transaction is ready once no other is live and the fields
of that call are complete. -/
theorem ready_iff_of_pinned {c : Call} (hmode : device.settings.mode = .transaction)
    (hpinned : s.review.calls.Pinned root) (hroot : s.review.calls.root = some c) :
    s.isReady device = true ↔ s.review.calls.count = 1 ∧ c.isVerified = true := by
  obtain ⟨d, hd, hcall, -⟩ := hpinned.root
  obtain rfl : c = d := Option.some.inj (hroot.symm.trans hd)
  have hverified (hslot : s.review.calls.current = some 0) :
      s.review.calls.isVerified = c.isVerified := by
    unfold CallStack.isVerified currentCall
    rw [hslot, Option.bind_some, hcall, Option.any_some]
  unfold isReady
  rw [hmode]
  simp only [Bool.and_eq_true, beq_iff_eq]
  constructor
  · rintro ⟨⟨hcount, hfirst⟩, hdone⟩
    rw [hverified (hpinned.isRoot_iff.mp hfirst)] at hdone
    exact ⟨hcount, hdone⟩
  · rintro ⟨hcount, hdone⟩
    obtain ⟨slot, e, hslot, he⟩ := hpinned.exists_current
    obtain rfl : slot = 0 := eq_of_count_one hcount he hcall
    exact ⟨⟨hcount, hpinned.isRoot_iff.mpr hslot⟩, (hverified hslot).trans hdone⟩

end

/-- From when a transaction is opened until all is wiped, its call is the first of the live ones,
from the wallet, to the same target, with the same amount, chain and function, and a live call is
current. It is so at every moment until a payload has been handled, and still if any call besides
the first leaves then. So the session is ready just if that call is the only one, and complete. -/
theorem transaction_stays_first (device : Device)
    (hmode : device.settings.mode = .transaction) (ops rest : List Operation) (op : Operation)
    (t : Transaction) (hopens : Opens device (after device ops) op t)
    (hkeeps : ∀ i next, rest[i]? = some next →
      ¬ Wipes device (after device (ops ++ op :: rest.take i)) next) :
    let s := after device (ops ++ op :: rest)
    ∃ wallet, device.registry.wallet = .ok wallet ∧
      (∀ r, s.Passes device r → r.calls.Pinned (t.call wallet) ∧
        ∀ calls, r.calls.isRoot = false → r.calls.pop = .ok calls →
          calls.Pinned (t.call wallet)) ∧
      ∀ c, s.review.calls.root = some c →
        (s.isReady device = true ↔ s.review.calls.count = 1 ∧ c.isVerified = true) := by
  obtain ⟨wallet, hwallet, hopened⟩ := hopens.pinned hmode
  have hpinned := pinned_run hmode hopened hkeeps
  refine ⟨wallet, hwallet, ?_, ?_⟩
  · intro r hpasses
    have hpassed := hpasses.pinned hmode hpinned (run_stranding hmode _).1
    refine ⟨hpassed, ?_⟩
    intro calls hnested hpop
    rw [eq_popped_of_pop hpop]
    exact hpassed.popped hnested
  · intro c hroot
    exact ready_iff_of_pinned hmode hpinned hroot

/-- A call with a field that opens another one, which has got its descriptor. -/
def sampleDescent : List Operation :=
  [sampleInfo [], whole .field (sampleCall 8), whole .transactionInfo (sampleDescriptor 8 [] [98])]

/-- The call that a field opened is current; if it leaves, the one that was begun is. -/
theorem transaction_stays_first_nested :
    let device := sampleDevice .transaction
    let t : Transaction := ⟨some (Fixed.align 20 [7]), none, 1,
      some (Calldata.empty 0 (Fixed.align 4 [1, 2, 3, 4]))⟩
    let s := after device (sampleBegin :: sampleDescent)
    Opens device (after device []) sampleBegin t ∧
      (∀ i : Fin sampleDescent.length,
        ¬ Wipes device (after device (sampleBegin :: sampleDescent.take i)) sampleDescent[i]) ∧
      s.review.calls.isRoot = false ∧
      ∃ wallet calls, s.review.calls.pop = .ok calls ∧ calls.Pinned (t.call wallet) := by
  intro device t s
  have hopens : Opens device (after device []) sampleBegin t := .transaction (by decide +kernel)
  have hkeeps : ∀ i : Fin sampleDescent.length,
      ¬ Wipes device (after device (sampleBegin :: sampleDescent.take i)) sampleDescent[i] := by
    decide +kernel
  have hnested : s.review.calls.isRoot = false ∧ s.review.calls.pop.isOk = true := by
    decide +kernel
  obtain ⟨wallet, -, hpasses, -⟩ :=
    transaction_stays_first device rfl [] sampleDescent sampleBegin t hopens (by
      intro i next hnext
      obtain ⟨hi, rfl⟩ := List.getElem?_eq_some_iff.mp hnext
      exact hkeeps ⟨i, hi⟩)
  refine ⟨hopens, hkeeps, hnested.1, wallet, ?_⟩
  cases hcalls : s.review.calls.pop with
  | error e =>
    rw [hcalls] at hnested
    cases hnested.2
  | ok calls => exact ⟨calls, rfl, (hpasses _ .start).2 calls hnested.1 hcalls⟩

end ClearSign.Session
