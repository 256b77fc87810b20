import ClearSign.Proofs.Review.Flushing
import ClearSign.Proofs.Session.Attachment

/-!
Which currency a call without arguments is described in. Such a call never gets a descriptor, so
its amount is counted in the currency of the first other call, on whatever chain that one is, while
its recipient is named on its own chain.
-/

namespace ClearSign

open Refusal ClearSign.Action

namespace Decimal

theorem toList_amountText (places : Nat) (ticker : String) (bs : Bytes) :
    (amountText places ticker bs).toList =
      (scaledText places bs).toList ++ if ticker.toList = [] then [] else ' ' :: ticker.toList := by
  unfold amountText
  by_cases hempty : ticker = ""
  · subst hempty
    simp
  · rw [if_neg (by simpa using hempty), if_neg (by simpa using hempty)]
    simp

/-- An amount says in which currency it is. -/
theorem amountText_inj {places : Nat} {ticker ticker' : String} {bs : Bytes} :
    amountText places ticker bs = amountText places ticker' bs ↔ ticker = ticker' := by
  constructor
  · intro h
    have hlists := congrArg String.toList h
    rw [toList_amountText, toList_amountText, List.append_cancel_left_eq] at hlists
    apply String.toList_inj.mp
    split at hlists <;> split at hlists <;> simp_all
  · intro h
    rw [h]

end Decimal

namespace Review

/-- The texts for a call without arguments that sends an amount, in the currency of a chain. -/
def sendTexts (host : Host) (chain : ChainId) (leg : Call) (amount : Word) :
    List (String × String) :=
  let text := Decimal.amountText Decimal.nativePlaces (host.settings.tickerOf host.registry chain)
    amount.bytes
  [(intentKey, "Send"), ("Amount", text), ("To", destinationText host leg)]

theorem sendTexts_inj (host : Host) (leg : Call) (amount : Word) {chain chain' : ChainId} :
    sendTexts host chain leg amount = sendTexts host chain' leg amount ↔
      host.settings.tickerOf host.registry chain = host.settings.tickerOf host.registry chain' := by
  unfold sendTexts
  simp [Decimal.amountText_inj]

/-- A call without a descriptor sends its amount in the currency that the descriptor of the first
other call names. -/
theorem legTexts_sends {host : Host} {root : Option Call} {leg : Call} {amount : Word}
    {texts : List (String × String)} (hamount : leg.amount = some amount) (hinfo : leg.info = none)
    (h : legTexts host root leg = .ok texts) :
    ∃ first info, root = some first ∧ first.info = some info ∧
      texts = sendTexts host info.chain leg amount := by
  unfold legTexts amountChain at h
  simp only [hamount, hinfo, Option.none_or] at h
  cases root with
  | none => cases h
  | some first =>
    cases hfirst : first.info with
    | none =>
      simp only [Option.bind_some, hfirst] at h
      cases h
    | some info =>
      simp only [Option.bind_some, hfirst] at h
      exact ⟨first, info, rfl, hfirst, (Except.ok.inj h).symm⟩

end Review

namespace Session

open CallStack

variable {device : Device} {s : Session}

/-- What is to be flushed while a payload is handled: before the call that a descriptor selects, or
behind a complete call in a round of settling. -/
inductive Flushes (device : Device) (s : Session) : Review → List Nat → Prop
  | before {payload : Bytes} {info : TransactionInfo} {offered : Review} {selected : CallStack}
    (hparse : TransactionInfo.parse s.selectorCheck device.verifier payload = .ok info)
    (hoffers : s.Offers offered.calls)
    (hselect : offered.calls.select s.cache info.contract info.selector info.chain =
      .ok selected) : Flushes device s { offered with calls := selected } selected.emptyBefore
  | after {payload : Bytes} {field : Field} {absorbed : CallStack} {formatted r : Review}
    {rounds : Nat} (hparse : Field.parse payload = .ok field)
    (habsorb : s.review.calls.absorb payload = .ok absorbed)
    (hformat : (field.format device.toHost s.cache).exec { s.review with calls := absorbed } =
      (.ok (), formatted))
    (hsettle : (Review.settleFor device.toHost rounds).exec formatted = (.ok (), r))
    (hdone : r.calls.isDone device.settings.mode = true) : Flushes device s r r.calls.emptyAfter

/-- A call is described and leaves, after those that are flushed before it. -/
inductive Leaves (device : Device) (s : Session) (slot : Nat) : Review → Review → Prop
  | next {start r r' : Review} {done rest : List Nat}
    (hflush : Flushes device s start (done ++ slot :: rest))
    (hdone : (done.forM (Review.describe device.toHost)).exec start = (.ok (), r))
    (hnext : (Review.describe device.toHost slot).exec r = (.ok (), r')) :
    Leaves device s slot r r'

theorem carries_absorb {calls absorbed : CallStack} {payload : Bytes}
    (h : calls.absorb payload = .ok absorbed) : Carries calls absorbed ∧ absorbed.live ≠ [] := by
  obtain ⟨slot, c, -, hcall, rfl⟩ := modifyCurrent_eq_ok h
  refine ⟨carries_modifyAt fun c _ => ⟨rfl, .withField payload c⟩, ?_⟩
  have hgrown : (calls.modifyAt slot (·.withField payload)).call? slot =
      some (c.withField payload) := by
    rw [call?_modifyAt, if_pos rfl, hcall]
    rfl
  exact live_ne_nil hgrown

theorem carries_leaveAll (calls : CallStack) (gone : List Nat) :
    Carries calls (calls.leaveAll gone) := by
  intro slot c hc
  by_cases hmem : slot ∈ gone
  · rw [call?_leaveAll_of_mem hmem] at hc
    cases hc
  · rw [call?_leaveAll_of_notMem hmem] at hc
    exact .inr ⟨c, hc, rfl, .refl c⟩

theorem Flushes.carries {start : Review} {slots : List Nat} (h : Flushes device s start slots) :
    Carries s.review.calls start.calls := by
  cases h with
  | before _ hoffers hselect =>
    obtain ⟨hslots, -⟩ := select_eq_ok hselect
    have hselected := carries_of_call? (call?_congr hslots)
    rcases hoffers with ⟨-, heq⟩ | ⟨-, first, hfresh, -, hfirst, -⟩
    · rw [heq] at hselected
      exact hselected
    · exact (carries_fresh hfresh hfirst).trans hselected
  | after _ habsorb hformat hsettle _ =>
    obtain ⟨habsorbed, hlive⟩ := carries_absorb habsorb
    obtain ⟨new, opened, rows, -, hgrows, -⟩ := Field.format_answers (by exact hlive) hformat
    rw [Review.settleFor_calls hsettle]
    exact (habsorbed.trans (carries_grows hgrows)).trans (sheds_settledFor _ _ _).carries

/-- A call that is described while a payload is handled has no arguments, and no call holds a
descriptor by then that it did not hold before. -/
theorem Leaves.leg {slot : Nat} {r r' : Review} (h : Leaves device s slot r r') :
    Carries s.review.calls r.calls ∧
      ∀ leg, r.calls.call? slot = some leg → leg.calldata = none := by
  obtain @⟨start, r, r', done, rest, hflush, hdone, -⟩ := h
  have hcalls := Review.forM_describe_calls hdone
  refine ⟨?_, ?_⟩
  · rw [hcalls]
    exact hflush.carries.trans (carries_leaveAll _ _)
  · intro leg hleg
    rw [hcalls] at hleg
    by_cases hmem : slot ∈ done
    · rw [call?_leaveAll_of_mem hmem] at hleg
      cases hleg
    · rw [call?_leaveAll_of_notMem hmem] at hleg
      have hslot : slot ∈ done ++ slot :: rest := by simp
      generalize done ++ slot :: rest = slots at hflush hslot
      cases hflush with
      | before => exact calldata_of_mem_emptyRun hslot leg hleg
      | after => exact calldata_of_mem_emptyRun hslot leg hleg

/-- A call that holds a descriptor while a payload is handled after a run has arguments, and is on
the chain that the descriptor names. -/
theorem described_of_carries {ops : List Operation} {calls : CallStack}
    (h : Carries (after device ops).review.calls calls) {slot : Nat} {c : Call}
    {info : TransactionInfo} (hc : calls.call? slot = some c) (hinfo : c.info = some info) :
    c.calldata ≠ none ∧ info.chain = c.chain := by
  obtain ⟨d, hd, hdinfo, hbecomes⟩ := h.exists_call hc hinfo
  obtain ⟨_, _, _, _, -, -, hattaches, -⟩ := attached_run device ops hd hdinfo
  obtain ⟨data, hdata, -⟩ := Call.selector?_eq_some.mp hattaches.selector
  refine ⟨?_, ?_⟩
  · intro hnone
    have harguments := hbecomes.arguments
    rw [hnone, hdata] at harguments
    cases harguments
  · rw [hbecomes.chain, hattaches.chain]

/-- A call without arguments that sends an amount has no descriptor. It is described in the currency
of the first other live call, whose descriptor is for the chain of that call. -/
theorem Leaves.sends {ops : List Operation} {slot : Nat} {r r' : Review} {leg : Call}
    {amount : Word} (h : Leaves device (after device ops) slot r r')
    (hleg : r.calls.call? slot = some leg) (hamount : leg.amount = some amount) :
    ∃ first info rows, (r.calls.leave slot).root = some first ∧ first.info = some info ∧
      info.chain = first.chain ∧ r'.table = r.table ++ rows ∧
      rows.map Row.texts = Review.sendTexts device.toHost first.chain leg amount := by
  obtain ⟨hcarries, hnone⟩ := h.leg
  have hinfo : leg.info = none := by
    cases hinfo : leg.info with
    | none => rfl
    | some info => exact absurd (hnone leg hleg) (described_of_carries hcarries hleg hinfo).1
  obtain ⟨-, -, hdescribe⟩ := h
  obtain ⟨d, rows, hd, htexts, rfl⟩ := Review.describe_texts hdescribe
  obtain rfl : d = leg := Option.some.inj (hd.symm.trans hleg)
  obtain ⟨first, info, hroot, hfirst, hown⟩ := Review.legTexts_sends hamount hinfo htexts
  obtain ⟨i, hi⟩ : ∃ i, r.calls.call? i = some first := by
    obtain ⟨i, hi⟩ := mem_live.mp (List.mem_of_mem_head? hroot)
    rw [call?_leave] at hi
    split at hi
    · cases hi
    · exact ⟨i, hi⟩
  have hchain := (described_of_carries hcarries hi hfirst).2
  exact ⟨first, info, rows, hroot, hfirst, hchain, rfl, hchain ▸ hown⟩

/-- The rows for a call that sends an amount say it in the currency of the call's own chain. -/
def InOwnCurrency (device : Device) (leg : Call) (amount : Word) (r r' : Review) : Prop :=
  ∃ rows, r'.table = r.table ++ rows ∧
    rows.map Row.texts = Review.sendTexts device.toHost leg.chain leg amount

theorem inOwnCurrency_of_rows {leg : Call} {amount : Word} {chain : ChainId} {r r' : Review}
    {rows : List Row} (htable : r'.table = r.table ++ rows)
    (htexts : rows.map Row.texts = Review.sendTexts device.toHost chain leg amount) :
    InOwnCurrency device leg amount r r' ↔ device.settings.tickerOf device.registry chain =
      device.settings.tickerOf device.registry leg.chain := by
  rw [← Review.sendTexts_inj device.toHost leg amount, ← htexts]
  constructor
  · rintro ⟨rows', htable', hown⟩
    rw [List.append_cancel_left (htable.symm.trans htable'), hown]
  · intro hown
    exact ⟨rows, htable, hown⟩

/-- A call without arguments that sends an amount is described, at any moment of any run, in the
currency of the chain of the first other live call, which holds a descriptor for that chain. So it
is described in the currency of its own chain just if the two chains have the same ticker. -/
theorem inOwnCurrency_iff (device : Device) (ops : List Operation) (slot : Nat) (r r' : Review)
    (leg : Call) (amount : Word) (h : Leaves device (after device ops) slot r r')
    (hleg : r.calls.call? slot = some leg) (hamount : leg.amount = some amount) :
    leg.calldata = none ∧ ∃ first info rows, (r.calls.leave slot).root = some first ∧
      first.info = some info ∧ info.chain = first.chain ∧ r'.table = r.table ++ rows ∧
      rows.map Row.texts = Review.sendTexts device.toHost first.chain leg amount ∧
      (InOwnCurrency device leg amount r r' ↔
        device.settings.tickerOf device.registry first.chain =
          device.settings.tickerOf device.registry leg.chain) := by
  obtain ⟨first, info, rows, hroot, hinfo, hchain, htable, htexts⟩ := h.sends hleg hamount
  exact ⟨h.leg.2 leg hleg, first, info, rows, hroot, hinfo, hchain, htable, htexts,
    inOwnCurrency_of_rows htable htexts⟩

section

open Tlv

/-- A device that knows the currency of one chain besides its own, and a name for each address. -/
def sampleCurrencies : Device where
  registry := { Review.sampleHost.registry with
    nativeTicker? := fun chain => if chain = 137 then some "POL" else none }
  settings := Settings.default
  verifier := fun _ _ _ => true

/-- A call on chain 1, with a field that opens a call without arguments on chain 137, which sends
an amount, and a field that opens a call on chain 1. -/
def sampleElsewhere : List Operation :=
  [sampleBegin, sampleInfo [],
   whole .field <| write 0 [1] ++ write 1 [97] ++ write 2 [9] ++
     write 3 (write 0 [1] ++ write 1 (sampleValue 7 []) ++ write 2 (sampleValue 5 [8]) ++
       write 3 (sampleValue 1 [137]) ++ write 5 (sampleValue 1 [1])),
   whole .field <| write 0 [1] ++ write 1 [97] ++ write 2 [9] ++
     write 3 (write 0 [1] ++ write 1 (sampleValue 7 [1, 2, 3, 4]) ++
       write 2 (sampleValue 5 [9]) ++ write 3 (sampleValue 1 [1]))]

end

/-- Before the third call gets its descriptor, the second one is flushed. -/
theorem leaves_elsewhere : ∃ r r' leg amount first,
    Leaves sampleCurrencies (after sampleCurrencies sampleElsewhere) 1 r r' ∧
      r.calls.call? 1 = some leg ∧ leg.amount = some amount ∧ leg.chain = 137 ∧
      (r.calls.leave 1).root = some first ∧ first.chain = 1 := by
  let s := after sampleCurrencies sampleElsewhere
  have hrun : ((TransactionInfo.parse s.selectorCheck sampleCurrencies.verifier
      (sampleDescriptor 9 [] [98])).toOption.any fun info =>
      (s.review.calls.select s.cache info.contract info.selector info.chain).toOption.any
        fun selected => decide (selected.emptyBefore = [1]) && decide (s.review.calls.count ≠ 0) &&
          (selected.call? 1).any (fun leg => leg.amount.isSome && leg.chain == 137) &&
          (selected.leave 1).root.any (·.chain == 1) &&
          ((Review.describe sampleCurrencies.toHost 1).exec
            { s.review with calls := selected }).1.isOk) = true := by decide +kernel
  obtain ⟨info, hparse, hrun⟩ := (Option.any_eq_true _ _).mp hrun
  obtain ⟨selected, hselect, hrun⟩ := (Option.any_eq_true _ _).mp hrun
  simp only [Bool.and_eq_true, decide_eq_true_eq] at hrun
  obtain ⟨⟨⟨⟨hempty, hlive⟩, hleg⟩, hroot⟩, hdescribe⟩ := hrun
  obtain ⟨leg, hcall, hleg⟩ := (Option.any_eq_true _ _).mp hleg
  obtain ⟨hsome, hchain⟩ := Bool.and_eq_true_iff.mp hleg
  obtain ⟨amount, hamount⟩ := Option.isSome_iff_exists.mp hsome
  obtain ⟨first, hfirst, hfirstChain⟩ := (Option.any_eq_true _ _).mp hroot
  have hflush : Flushes sampleCurrencies s { s.review with calls := selected } ([] ++ [1]) :=
    hempty ▸ .before (toOption_eq_some.mp hparse) (.inl ⟨hlive, rfl⟩) (toOption_eq_some.mp hselect)
  rcases hexec : (Review.describe sampleCurrencies.toHost 1).exec
      { s.review with calls := selected } with ⟨e | ⟨⟩, r'⟩
  · rw [hexec] at hdescribe
    cases hdescribe
  · exact ⟨_, r', leg, amount, first, .next hflush rfl hexec, hcall, hamount,
      by simpa using hchain, hfirst, by simpa using hfirstChain⟩

/-- The call on chain 137 is described in another currency, that of the call on chain 1. -/
theorem inOwnCurrency_iff_elsewhere : ∃ r r' leg amount first,
    Leaves sampleCurrencies (after sampleCurrencies sampleElsewhere) 1 r r' ∧
      r.calls.call? 1 = some leg ∧ leg.amount = some amount ∧ leg.chain = 137 ∧
      (r.calls.leave 1).root = some first ∧ first.chain = 1 ∧
      ¬ InOwnCurrency sampleCurrencies leg amount r r' := by
  obtain ⟨r, r', leg, amount, first, hleaves, hleg, hamount, hchain, hroot, hfirst⟩ :=
    leaves_elsewhere
  obtain ⟨-, first', _, _, hroot', -, -, -, -, hiff⟩ :=
    inOwnCurrency_iff sampleCurrencies sampleElsewhere 1 r r' leg amount hleaves hleg hamount
  obtain rfl : first = first' := Option.some.inj (hroot.symm.trans hroot')
  refine ⟨r, r', leg, amount, first, hleaves, hleg, hamount, hchain, hroot, hfirst, ?_⟩
  rw [hiff, hfirst, hchain]
  decide

theorem not_inOwnCurrency : ¬ ∀ (device : Device) (ops : List Operation) (slot : Nat)
    (r r' : Review) (leg : Call) (amount : Word), Leaves device (after device ops) slot r r' →
    r.calls.call? slot = some leg → leg.amount = some amount →
    InOwnCurrency device leg amount r r' := by
  intro hall
  obtain ⟨r, r', leg, amount, first, hleaves, hleg, hamount, hchain, hroot, hfirst⟩ :=
    leaves_elsewhere
  obtain ⟨first', _, _, hroot', -, -, htable, htexts⟩ := hleaves.sends hleg hamount
  obtain rfl : first = first' := Option.some.inj (hroot.symm.trans hroot')
  have hsame := (inOwnCurrency_of_rows htable htexts).mp (hall _ _ _ _ _ _ _ hleaves hleg hamount)
  rw [hfirst, hchain] at hsame
  exact absurd hsame (by decide)

end Session
end ClearSign
