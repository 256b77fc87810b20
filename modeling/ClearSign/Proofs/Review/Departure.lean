import ClearSign.Proofs.Review.Rows
import ClearSign.Proofs.Review.Slots

/-!
What the steps of a review do to its calls when they answer. Rows come and go beside the calls;
each call that is described, and each complete one, leaves its slot; calls that a field opens take
the slots behind all others.
-/

namespace ClearSign

open Refusal

/-- The call that is opened, with the sender and the chain that it takes over. -/
def NewCall.opened (new : NewCall) : Address × ChainId → Call
  | (sender, chain) =>
    ⟨none, new.calldata, new.sender.getD sender, new.target, new.amount, new.chain.getD chain, []⟩

namespace CallStack

/-- The call in a slot leaves. -/
def leave (slot : Nat) (s : CallStack) : CallStack := { s with slots := s.slots.set slot none }

def leaveAll (slots : List Nat) (s : CallStack) : CallStack :=
  slots.foldl (fun s slot => s.leave slot) s

/-- The stack without the calls that have no arguments right before the current one. -/
def flushedBefore (s : CallStack) : CallStack := s.leaveAll s.emptyBefore

/-- The stack without the calls that have no arguments right after the current one. -/
def flushedAfter (s : CallStack) : CallStack := s.leaveAll s.emptyAfter

/-- The stack without its current call; the one before it is current. -/
def popped (s : CallStack) : CallStack :=
  match s.current with
  | none => s
  | some slot => { s.leave slot with current := (s.placesBefore slot).head? }

/-- The stack after at most so many rounds in which a complete call leaves. -/
def settledFor (mode : SigningMode) : (rounds : Nat) → CallStack → CallStack
  | 0, s => s
  | rounds + 1, s => if s.isDone mode then settledFor mode rounds s.flushedAfter.popped else s

def settled (mode : SigningMode) (s : CallStack) : CallStack := settledFor mode s.count s

/-- The stack with a descriptor for its current call, which leaves if nothing is announced. -/
def attached (mode : SigningMode) (info : TransactionInfo) (s : CallStack) :
    Except Error CallStack := do
  let s' ← s.modifyCurrent (Call.withInfo info)
  if s.isHashed mode ∧ info.fieldsHash = Call.fieldsDigest [] then s'.pop else .ok s'

theorem eq_popped_of_pop {s s' : CallStack} (h : s.pop = .ok s') : s' = s.popped := by
  unfold pop at h
  unfold popped
  cases hslot : s.current with
  | none =>
    rw [hslot] at h
    cases h
  | some slot =>
    rw [hslot] at h
    exact (Except.ok.inj h).symm

/-- A call as it is opened. -/
def IsFresh (c : Call) : Prop := c.info = none ∧ c.absorbed = []

/-- Whom a new call behind these calls comes from, and on which chain: it takes over from the last
of them, or from the device if there is none. -/
def origin (registry : Registry) (calls : List Call) : Option (Address × ChainId) :=
  match calls.getLast? with
  | some last => some (last.sender, last.chain)
  | none => registry.wallet.toOption.map fun wallet => (wallet, 0)

/-- A call behind no other comes from the device. -/
theorem origin_nil {registry : Registry} {from_ : Address × ChainId}
    (h : origin registry [] = some from_) :
    ∃ wallet, registry.wallet = .ok wallet ∧ (wallet, 0) = from_ := by
  unfold origin at h
  obtain ⟨wallet, hwallet, hfrom⟩ := Option.map_eq_some_iff.mp h
  exact ⟨wallet, toOption_eq_some.mp hwallet, hfrom⟩

/-- A new call goes behind all others; if there are none, the slots start over. -/
theorem push_eq {settings : Settings} {registry : Registry} {new : NewCall}
    {s s' : CallStack} {slot : Nat} (h : s.push settings registry new = .ok (slot, s')) :
    ∃ from_, origin registry s.live = some from_ ∧
      let start := if s.live.isEmpty then { s with slots := [], current := none } else s
      s' = { start with slots := start.slots ++ [some (new.opened from_)] } := by
  unfold push at h
  by_cases hfull : settings.maxCalls ≤ s.count
  · simp only [if_pos hfull, bind_eq_ok, throw_ne_ok, false_and, exists_false] at h
  · simp only [if_neg hfull] at h
    unfold origin
    cases hlast : s.live.getLast? with
    | some last =>
      rw [hlast] at h
      exact ⟨(last.sender, last.chain), rfl, (Prod.mk.inj (Except.ok.inj h)).2.symm⟩
    | none =>
      rw [hlast] at h
      obtain ⟨wallet, hwallet, h⟩ := bind_eq_ok.mp h
      refine ⟨(wallet, 0), ?_, (Prod.mk.inj (Except.ok.inj h)).2.symm⟩
      rw [hwallet]
      rfl

theorem push_eq_ok {settings : Settings} {registry : Registry} {new : NewCall}
    {s s' : CallStack} {slot : Nat} (h : s.push settings registry new = .ok (slot, s')) :
    ∃ from_, origin registry s.live = some from_ ∧
      s'.slots = (if s.live.isEmpty then [] else s.slots) ++ [some (new.opened from_)] ∧
      s'.current = if s.live.isEmpty then none else s.current := by
  obtain ⟨from_, horigin, rfl⟩ := push_eq h
  refine ⟨from_, horigin, ?_⟩
  by_cases hlive : s.live.isEmpty = true
  · simp only [if_pos hlive, and_self]
  · simp only [if_neg hlive, and_self]

/-- How many calls came in batches is counted by the field that opens them. -/
theorem push_batch {settings : Settings} {registry : Registry} {new : NewCall}
    {s s' : CallStack} {slot : Nat} (h : s.push settings registry new = .ok (slot, s')) :
    s'.batchTotal = s.batchTotal ∧ s'.batchSize = s.batchSize := by
  obtain ⟨from_, -, rfl⟩ := push_eq h
  by_cases hlive : s.live.isEmpty = true
  · simp only [if_pos hlive, and_self]
  · simp only [if_neg hlive, and_self]

/-- A call that is opened is fresh, and brings the arguments that it is given. -/
theorem push_answers {settings : Settings} {registry : Registry} {new : NewCall}
    {s s' : CallStack} {slot : Nat} (h : s.push settings registry new = .ok (slot, s')) :
    ∃ c : Call, IsFresh c ∧ c.calldata = new.calldata ∧
      s'.slots = (if s.live.isEmpty then [] else s.slots) ++ [some c] ∧
      s'.current = if s.live.isEmpty then none else s.current := by
  obtain ⟨from_, -, hslots, hcurrent⟩ := push_eq_ok h
  exact ⟨new.opened from_, ⟨rfl, rfl⟩, rfl, hslots, hcurrent⟩

end CallStack

namespace Review

open ClearSign.Action

variable {host : Host} {r r' : Review}

theorem onCalls_answers {f : CallStack → Except Error CallStack} {u : Unit} :
    (onCalls f).exec r = (.ok u, r') ↔ ∃ s, f r.calls = .ok s ∧ { r with calls := s } = r' := by
  unfold onCalls
  rw [update_answers, bind_eq_ok]
  simp only [pure_eq_ok]

theorem openCall_answers {new : NewCall} {slot : Nat}
    (h : (openCall host new).exec r = (.ok slot, r')) :
    ∃ s, r.calls.push host.settings host.registry new = .ok (slot, s) ∧
      { r with calls := s } = r' := by
  unfold openCall at h
  rw [exec_get_bind, bind_answers] at h
  obtain ⟨⟨slot', s⟩, mid, hpush, h⟩ := h
  obtain ⟨hopened, rfl⟩ := ofExcept_answers.mp hpush
  rw [exec_set_bind] at h
  cases h
  exact ⟨s, hopened, rfl⟩

theorem openCall_refused {new : NewCall} {e : Error}
    (h : (openCall host new).exec r = (.error e, r')) : r' = r := by
  unfold openCall at h
  rw [exec_get_bind, exec_bind, exec_ofExcept] at h
  cases hpush : r.calls.push host.settings host.registry new with
  | error e' =>
    rw [hpush] at h
    cases h
    rfl
  | ok opened =>
    rw [hpush] at h
    simp only [exec_set_bind] at h
    cases h

theorem describe_calls {slot : Nat} (h : (describe host slot).exec r = (.ok (), r')) :
    r'.calls = r.calls.leave slot := by
  obtain ⟨c, rows, -, -, rfl⟩ := describe_answers h
  rfl

theorem forM_describe_calls {slots : List Nat}
    (h : (slots.forM (describe host)).exec r = (.ok (), r')) :
    r'.calls = r.calls.leaveAll slots := by
  induction slots generalizing r with
  | nil =>
    cases h
    rfl
  | cons slot slots ih =>
    rw [forM_cons_answers] at h
    obtain ⟨mid, hdescribe, hrest⟩ := h
    rw [ih hrest, describe_calls hdescribe]
    rfl

theorem flushBefore_calls (h : (flushBefore host).exec r = (.ok (), r')) :
    r'.calls = r.calls.flushedBefore := by
  unfold flushBefore at h
  rw [exec_get_bind] at h
  exact forM_describe_calls h

theorem flushAfter_calls (h : (flushAfter host).exec r = (.ok (), r')) :
    r'.calls = r.calls.flushedAfter := by
  unfold flushAfter at h
  rw [exec_get_bind] at h
  exact forM_describe_calls h

theorem settleFor_calls {rounds : Nat} (h : (settleFor host rounds).exec r = (.ok (), r')) :
    r'.calls = r.calls.settledFor host.settings.mode rounds := by
  induction rounds generalizing r with
  | zero =>
    cases h
    rfl
  | succ rounds ih =>
    unfold settleFor at h
    rw [exec_get_bind] at h
    unfold CallStack.settledFor
    by_cases hdone : r.calls.isDone host.settings.mode = true
    · simp only [if_pos hdone, bind_answers, onCalls_answers] at h
      obtain ⟨⟨⟩, flushed, hflush, ⟨⟩, -, ⟨s, hpop, rfl⟩, hrest⟩ := h
      rw [if_pos hdone, ih hrest, CallStack.eq_popped_of_pop hpop, flushAfter_calls hflush]
    · rw [if_neg hdone] at h ⊢
      cases h
      rfl

theorem settle_calls (h : (settle host).exec r = (.ok (), r')) :
    r'.calls = r.calls.settled host.settings.mode := by
  unfold settle at h
  rw [exec_get_bind] at h
  exact settleFor_calls h

/-- A descriptor that is attached is announced by a row if its call is held to its digest. -/
theorem attach_answers {info : TransactionInfo} (h : (attach host info).exec r = (.ok (), r')) :
    r.calls.attached host.settings.mode info = .ok r'.calls ∧
      ∃ rows, r'.table = r.table ++ rows ∧ (r.calls.isHashed host.settings.mode = true →
        ∃ row : Row, rows = [row] ∧ row.Shows intentKey info.operation) := by
  unfold attach at h
  rw [exec_get_bind] at h
  simp only [bind_answers, onCalls_answers] at h
  obtain ⟨⟨⟩, -, ⟨s, hmodify, rfl⟩, h⟩ := h
  have hmodify' : r.calls.modifyCurrent (Call.withInfo info) = .ok s := hmodify
  unfold CallStack.attached
  rw [hmodify']
  by_cases hhashed : r.calls.isHashed host.settings.mode = true
  · simp only [if_pos hhashed, bind_answers] at h
    obtain ⟨⟨⟩, _, hintent, h⟩ := h
    obtain ⟨row, hrow, rfl⟩ := addIntent_answers hintent
    by_cases hnone : info.fieldsHash = Call.fieldsDigest []
    · simp only [if_pos hnone, onCalls_answers] at h
      obtain ⟨s', hpop, rfl⟩ := h
      refine ⟨?_, [row], rfl, fun _ => ⟨row, rfl, hrow⟩⟩
      simp only [bind, Except.bind, if_pos (And.intro hhashed hnone)]
      exact hpop
    · simp only [if_neg hnone] at h
      cases h
      have hstays : ¬ (r.calls.isHashed host.settings.mode = true ∧
          info.fieldsHash = Call.fieldsDigest []) := by
        rintro ⟨-, hfields⟩
        exact hnone hfields
      refine ⟨?_, [row], rfl, fun _ => ⟨row, rfl, hrow⟩⟩
      simp only [bind, Except.bind, if_neg hstays]
  · simp only [if_neg hhashed] at h
    cases h
    have hstays : ¬ (r.calls.isHashed host.settings.mode = true ∧
        info.fieldsHash = Call.fieldsDigest []) := by
      rintro ⟨hother, -⟩
      exact hhashed hother
    refine ⟨?_, [], (List.append_nil _).symm, fun hother => absurd hother hhashed⟩
    simp only [bind, Except.bind, if_neg hstays]

end Review

namespace Field

open ClearSign.Action

variable {host : Host} {r r' : Review}

/-- The calls that a field opens, seen from a call. -/
def opens (field : Field) (scope : Scope) : Except Error (List NewCall) :=
  match field.param with
  | .calldata p => do (Param.NestedCall.calls (← p.resolve scope)).mapM id
  | _ => .ok []

/-- Calls for `new`, as they are opened, behind the calls of `s`. -/
structure Grows (new : List NewCall) (s s' : CallStack) (calls : List Call) : Prop where
  slots : s'.slots = s.slots ++ calls.map some
  current : s'.current = s.current
  fresh : ∀ c ∈ calls, CallStack.IsFresh c
  calldata : calls.map Call.calldata = new.map NewCall.calldata

theorem Grows.opens_none {new : List NewCall} {s s' : CallStack} {calls : List Call}
    (h : Grows new s s' calls) : calls = [] ↔ new = [] := by
  have hlength := congrArg List.length h.calldata
  rw [List.length_map, List.length_map] at hlength
  rw [← List.length_eq_zero_iff, ← List.length_eq_zero_iff, hlength]

theorem Grows.legs_iff {new : List NewCall} {s s' : CallStack} {calls : List Call}
    (h : Grows new s s' calls) :
    (∀ c ∈ calls, c.calldata = none) ↔ ∀ c ∈ new, c.calldata = none := by
  have hmap := congrArg (fun ds : List (Option Calldata) => ∀ d ∈ ds, d = none) h.calldata
  have hiff := Iff.of_eq hmap
  simpa only [List.forall_mem_map] using hiff

/-- The slots of a stack to which calls were added. -/
theorem Grows.call? {new : List NewCall} {s s' : CallStack} {calls : List Call}
    (h : Grows new s s' calls) (slot : Nat) : s'.call? slot =
      if slot < s.slots.length then s.call? slot else calls[slot - s.slots.length]? := by
  unfold CallStack.call?
  rw [h.slots, List.getElem?_append]
  split
  · rfl
  · rw [List.getElem?_map]
    cases calls[slot - s.slots.length]? <;> rfl

theorem forM_openCall_answers {calls : List (Except Error NewCall)} (hlive : r.calls.live ≠ [])
    (h : (calls.forM fun call => do
      let _ ← Review.openCall host (← Action.ofExcept call)).exec r = (.ok (), r')) :
    ∃ new opened, calls.mapM id = .ok new ∧ Grows new r.calls r'.calls opened ∧
      r'.table = r.table := by
  induction calls generalizing r with
  | nil =>
    cases h
    exact ⟨[], [], rfl, ⟨by simp, rfl, by simp, rfl⟩, rfl⟩
  | cons call calls ih =>
    rw [forM_cons_answers] at h
    obtain ⟨mid, hcall, hrest⟩ := h
    simp only [bind_answers, ofExcept_answers] at hcall
    obtain ⟨first, _, ⟨hfirst, rfl⟩, slot, _, hopen, hmid⟩ := hcall
    cases hmid
    obtain ⟨s, hpush, rfl⟩ := Review.openCall_answers hopen
    obtain ⟨c, hfresh, hdata, hslots, hcurrent⟩ := CallStack.push_answers hpush
    have hsome : ¬ r.calls.live.isEmpty = true := by simpa using hlive
    rw [if_neg hsome] at hslots hcurrent
    have hstill : s.live ≠ [] := by
      intro hnone
      simp [CallStack.live, hslots] at hnone
    obtain ⟨new, opened, hnew, hgrows, htable⟩ := ih hstill hrest
    refine ⟨first :: new, c :: opened, ?_, ⟨?_, ?_, ?_, ?_⟩, htable⟩
    · subst hfirst
      simp [List.mapM_cons, hnew, bind, Except.bind, pure, Except.pure]
    · rw [hgrows.slots, hslots]
      simp
    · rw [hgrows.current, hcurrent]
    · intro d hd
      rcases List.mem_cons.mp hd with rfl | hd
      · exact hfresh
      · exact hgrows.fresh d hd
    · rw [List.map_cons, List.map_cons, hdata, hgrows.calldata]

/-- Formatting a field opens the calls that the field opens, and changes no other; rows come
behind those that are there. -/
theorem format_answers {cache : Cache} {field : Field} (hlive : r.calls.live ≠ [])
    (h : (field.format host cache).exec r = (.ok (), r')) :
    ∃ new opened rows, field.opens ⟨host, cache, r.calls.currentCall⟩ = .ok new ∧
      Grows new r.calls r'.calls opened ∧ r'.table = r.table ++ rows := by
  unfold format at h
  rw [exec_get_bind] at h
  unfold opens
  cases hparam : field.param with
  | calldata p =>
    rw [hparam] at h
    simp only [bind_answers, ofExcept_answers] at h
    obtain ⟨resolved, _, ⟨hresolve, rfl⟩, h⟩ := h
    unfold openCalls at h
    simp only [bind_answers, Review.onCalls_answers] at h
    obtain ⟨⟨⟩, _, ⟨s, hannounce, rfl⟩, h⟩ := h
    cases hannounce
    obtain ⟨new, opened, hnew, hgrows, htable⟩ := forM_openCall_answers (by exact hlive) h
    refine ⟨new, opened, [], ?_,
      ⟨hgrows.slots, hgrows.current, hgrows.fresh, hgrows.calldata⟩, by simp [htable]⟩
    simp only [hresolve]
    exact hnew
  | _ =>
    rw [hparam] at h
    simp only [bind_answers, ofExcept_answers] at h
    obtain ⟨cells, _, ⟨-, rfl⟩, h⟩ := h
    obtain ⟨rows, rfl⟩ := forM_addCell_answers h
    exact ⟨[], [], rows, rfl, ⟨by simp, rfl, by simp, rfl⟩, rfl⟩

end Field

end ClearSign
