import ClearSign.Proofs.Review.Neighbours
import Mathlib.Data.List.Chain

/-!
How the live calls of a transaction stand. A call that has a descriptor has arguments, and so does
the call right before it; the first call has arguments unless it is alone. Calls without arguments
are therefore never next before a described one, and none but the first call is left when all
calls with arguments have left by the digest of their fields.
-/

namespace ClearSign.CallStack

/-- The live calls of a transaction. -/
structure Ordered (live : List Call) : Prop where
  first : ∀ c others, live = c :: others → others ≠ [] → c.calldata.isSome = true
  described : ∀ c ∈ live, c.info.isSome = true → c.calldata.isSome = true
  chain : live.IsChain fun p c => c.info.isSome = true → p.calldata.isSome = true

namespace Ordered

variable {before behind : List Call} {p c c' : Call}

theorem nil : Ordered [] := ⟨by simp, by simp, .nil⟩

theorem alone (h : c.info.isSome = true → c.calldata.isSome = true) : Ordered [c] := by
  refine ⟨?_, ?_, .singleton c⟩
  · intro d others hall hothers
    cases hall
    exact absurd rfl hothers
  · intro d hd
    rwa [List.mem_singleton.mp hd]

/-- The call before a described one has arguments. -/
theorem last_before (h : Ordered (before ++ c :: behind)) (hc : c.info.isSome = true) :
    ∀ q, before.getLast? = some q → q.calldata.isSome = true := by
  have hchain := (List.isChain_split.mp h.chain).1
  rw [List.isChain_append] at hchain
  intro q hq
  exact hchain.2.2 q hq c (by simp) hc

/-- A call may give way to one that has no fewer arguments, and that has a descriptor only with
arguments of its own and before it. -/
theorem replace (h : Ordered (before ++ c :: behind))
    (hdata : c.calldata.isSome = true → c'.calldata.isSome = true)
    (hinfo : c'.info.isSome = true → c'.calldata.isSome = true)
    (hbefore : c'.info.isSome = true → ∀ q, before.getLast? = some q → q.calldata.isSome = true) :
    Ordered (before ++ c' :: behind) := by
  refine ⟨?_, ?_, ?_⟩
  · intro d others hall hothers
    cases before with
    | nil =>
      obtain ⟨rfl, rfl⟩ := List.cons.inj hall
      exact hdata (h.first c behind rfl hothers)
    | cons b before =>
      obtain ⟨rfl, -⟩ := List.cons.inj hall
      exact h.first b _ rfl (by simp)
  · intro d hd hdescribed
    rcases List.mem_append.mp hd with hd | hd
    · exact h.described d (List.mem_append_left _ hd) hdescribed
    · rcases List.mem_cons.mp hd with rfl | hd
      · exact hinfo hdescribed
      · exact h.described d (by simp [hd]) hdescribed
  · have hchain := h.chain
    rw [List.isChain_split] at hchain ⊢
    constructor
    · rw [List.isChain_append] at hchain ⊢
      refine ⟨hchain.1.1, .singleton c', ?_⟩
      intro q hq y hy hdescribed
      obtain rfl : c' = y := by simpa using hy
      exact hbefore hdescribed q hq
    · rw [List.isChain_cons] at hchain ⊢
      refine ⟨?_, hchain.2.2⟩
      intro y hy hdescribed
      exact hdata (hchain.2.1 y hy hdescribed)

/-- A call may change if it keeps its arguments and gets no descriptor that it had not. -/
theorem change (h : Ordered (before ++ c :: behind))
    (hdata : c.calldata.isSome = true → c'.calldata.isSome = true)
    (hinfo : c'.info.isSome = true → c.info.isSome = true) :
    Ordered (before ++ c' :: behind) := by
  apply h.replace hdata
  · intro hdescribed
    exact hdata (h.described c (by simp) (hinfo hdescribed))
  · intro hdescribed
    exact h.last_before (hinfo hdescribed)

/-- What stands behind a call with arguments may close up to it. -/
theorem close (mid : List Call) (h : Ordered (before ++ p :: (mid ++ behind)))
    (hp : p.calldata.isSome = true) : Ordered (before ++ p :: behind) := by
  refine ⟨?_, ?_, ?_⟩
  · intro d others hall hothers
    cases before with
    | nil =>
      obtain ⟨rfl, -⟩ := List.cons.inj hall
      exact hp
    | cons b before =>
      obtain ⟨rfl, -⟩ := List.cons.inj hall
      exact h.first b _ rfl (by simp)
  · intro d hd
    apply h.described d
    rcases List.mem_append.mp hd with hd | hd
    · exact List.mem_append_left _ hd
    · rcases List.mem_cons.mp hd with rfl | hd
      · simp
      · simp [hd]
  · have hchain := h.chain
    rw [List.isChain_split] at hchain ⊢
    refine ⟨hchain.1, ?_⟩
    rw [List.isChain_cons]
    constructor
    · intro _ _ _
      exact hp
    · exact hchain.2.tail.right_of_append

/-- Calls without descriptors stand in any order. -/
theorem chain_fresh {opened : List Call} (hfresh : ∀ d ∈ opened, IsFresh d) :
    opened.IsChain fun p c => c.info.isSome = true → p.calldata.isSome = true := by
  induction opened with
  | nil => exact .nil
  | cons d opened ih =>
    rw [List.isChain_cons]
    constructor
    · intro y hy hdescribed
      have hnone := (hfresh y (List.mem_cons_of_mem _ (List.mem_of_mem_head? hy))).1
      rw [hnone] at hdescribed
      cases hdescribed
    · apply ih
      intro e he
      exact hfresh e (List.mem_cons_of_mem _ he)

/-- Fresh calls may come behind a first call with arguments. -/
theorem grow {live opened : List Call} (h : Ordered live) (hlive : live ≠ [])
    (hfirst : ∀ d others, live = d :: others → d.calldata.isSome = true)
    (hfresh : ∀ d ∈ opened, IsFresh d) : Ordered (live ++ opened) := by
  refine ⟨?_, ?_, ?_⟩
  · intro d others hall hothers
    cases live with
    | nil => exact absurd rfl hlive
    | cons first rest =>
      obtain ⟨rfl, -⟩ := List.cons.inj hall
      exact hfirst first rest rfl
  · intro d hd hdescribed
    rcases List.mem_append.mp hd with hd | hd
    · exact h.described d hd hdescribed
    · rw [(hfresh d hd).1] at hdescribed
      cases hdescribed
  · apply h.chain.append (chain_fresh hfresh)
    intro x _ y hy hdescribed
    rw [(hfresh y (List.mem_of_mem_head? hy)).1] at hdescribed
    cases hdescribed

end Ordered

/-- Some call is left besides the first, and none of them has arguments. -/
def Stuck (live : List Call) : Prop :=
  live.tail ≠ [] ∧ ∀ c ∈ live.tail, c.calldata = none

theorem stuck_cons {c : Call} {others : List Call} :
    Stuck (c :: others) ↔ others ≠ [] ∧ ∀ d ∈ others, d.calldata = none := Iff.rfl

theorem not_stuck_of_mem {live : List Call} {c : Call} (hmem : c ∈ live.tail)
    (hdata : c.calldata.isSome = true) : ¬ Stuck live := by
  rintro ⟨-, hnone⟩
  rw [hnone c hmem] at hdata
  cases hdata

theorem mem_tail {before behind : List Call} {c : Call} (hbefore : before ≠ []) :
    c ∈ (before ++ c :: behind).tail := by
  cases before with
  | nil => exact absurd rfl hbefore
  | cons b before => simp

/-- Once calls without arguments are gone from the front, some call has arguments or none is
left. -/
theorem not_stuck_dropWhile (p : Call) (behind : List Call) :
    ¬ Stuck (p :: behind.dropWhile Call.isLeg) := by
  rintro ⟨hsome, hnone⟩
  cases hdrop : behind.dropWhile Call.isLeg with
  | nil => exact hsome hdrop
  | cons c rest =>
    have hleg : Call.isLeg c = false := by
      have := List.head?_dropWhile_not Call.isLeg behind
      rw [hdrop] at this
      simpa using this
    have hc := hnone c (by rw [List.tail_cons, hdrop]; exact List.mem_cons_self)
    simp [Call.isLeg, hc] at hleg

section

variable {s : CallStack} {before behind : List Call} {c : Call}

theorem Stands.isDone (h : s.Stands before c behind) :
    s.isDone .transaction = (!before.isEmpty && c.isVerified) := by
  unfold CallStack.isDone CallStack.isHashed CallStack.isVerified
  rw [h.isRoot, h.currentCall]
  rfl

theorem isSome_of_isVerified (h : c.isVerified = true) : c.info.isSome = true := by
  unfold Call.isVerified at h
  cases hinfo : c.info with
  | none => simp [hinfo] at h
  | some info => rfl

/-- The first call never leaves by settling. -/
theorem Stands.settledFor_root (h : s.Stands [] c behind) (rounds : Nat) :
    s.settledFor .transaction rounds = s := by
  cases rounds with
  | zero => rfl
  | succ rounds =>
    unfold settledFor
    rw [h.isDone]
    rfl

/-- Settling from a call with arguments behind the first one leaves no call that cannot be
described: each call that leaves takes those without arguments behind it along, and the one before
it has arguments. -/
theorem Stands.settledFor (rounds : Nat) (h : s.Stands before c behind)
    (hordered : Ordered (before ++ c :: behind)) (hbefore : before ≠ [])
    (hdata : c.calldata.isSome = true) :
    ∃ before' c' behind', (s.settledFor .transaction rounds).Stands before' c' behind' ∧
      Ordered (before' ++ c' :: behind') ∧ ¬ Stuck (before' ++ c' :: behind') := by
  induction rounds generalizing s before c behind with
  | zero =>
    exact ⟨before, c, behind, h, hordered, not_stuck_of_mem (mem_tail hbefore) hdata⟩
  | succ rounds ih =>
    unfold CallStack.settledFor
    by_cases hdone : s.isDone .transaction = true
    · rw [if_pos hdone]
      rw [h.isDone, Bool.and_eq_true_iff] at hdone
      obtain ⟨front, p, rfl⟩ : ∃ front p, before = front ++ [p] :=
        ⟨_, _, (List.dropLast_concat_getLast hbefore).symm⟩
      have hp : p.calldata.isSome = true :=
        hordered.last_before (isSome_of_isVerified hdone.2) p (by simp)
      have hnext := h.flushedAfter.popped
      have hclosed : Ordered (front ++ p :: behind.dropWhile Call.isLeg) := by
        refine Ordered.close (c :: behind.takeWhile Call.isLeg) ?_ hp
        rw [List.cons_append, List.takeWhile_append_dropWhile]
        rwa [List.append_assoc] at hordered
      by_cases hfront : front = []
      · subst hfront
        rw [hnext.settledFor_root]
        exact ⟨[], p, _, hnext, hclosed, not_stuck_dropWhile p behind⟩
      · exact ih hnext hclosed hfront hp
    · rw [if_neg hdone]
      exact ⟨before, c, behind, h, hordered, not_stuck_of_mem (mem_tail hbefore) hdata⟩

/-- Flushing before a call stops at the last call with arguments; the first one is such. -/
theorem flush_stops (hfirst : ∀ d others, before = d :: others → d.calldata.isSome = true)
    (hbefore : before ≠ []) :
    ∃ front p mid, before = front ++ p :: mid ∧ p.calldata.isSome = true ∧
      (∀ d ∈ mid, d.calldata = none) ∧
      (before.reverse.dropWhile Call.isLeg).reverse = front ++ [p] := by
  have hsplit := List.takeWhile_append_dropWhile (p := Call.isLeg) (l := before.reverse)
  cases hkept : before.reverse.dropWhile Call.isLeg with
  | nil =>
    rw [hkept, List.append_nil] at hsplit
    cases before with
    | nil => exact absurd rfl hbefore
    | cons d others =>
      have hmem : d ∈ (d :: others).reverse.takeWhile Call.isLeg := by
        rw [hsplit]
        simp
      have hleg : d.isLeg = true := List.all_eq_true.mp List.all_takeWhile d hmem
      have hd := hfirst d others rfl
      simp [Option.isNone_iff_eq_none.mp hleg] at hd
  | cons p front =>
    have hp : p.isLeg = false := by
      have := List.head?_dropWhile_not Call.isLeg before.reverse
      rw [hkept] at this
      simpa using this
    refine ⟨front.reverse, p, (before.reverse.takeWhile Call.isLeg).reverse, ?_, ?_, ?_, ?_⟩
    · rw [hkept] at hsplit
      have := congrArg List.reverse hsplit
      simpa using this.symm
    · simpa [Call.isLeg, Option.isNone_eq_false_iff] using hp
    · intro d hd
      have hleg := List.all_eq_true.mp List.all_takeWhile d (List.mem_reverse.mp hd)
      exact Option.isNone_iff_eq_none.mp hleg
    · simp

variable {t : CallStack} {info : TransactionInfo}

/-- What a descriptor does to the call that it selects: the first call keeps its place; any other
is left with the last call with arguments right before it, or leaves that one in its place. -/
theorem Stands.attached (h : s.Stands before c behind)
    (hordered : Ordered (before ++ c :: behind))
    (ht : s.flushedBefore.attached .transaction info = .ok t) :
    (before = [] ∧ t.Stands [] (c.withInfo info) behind) ∨
    ∃ front p mid, before = front ++ p :: mid ∧ p.calldata.isSome = true ∧
      (∀ d ∈ mid, d.calldata = none) ∧
      ((info.fieldsHash ≠ Call.fieldsDigest [] ∧
          t.Stands (front ++ [p]) (c.withInfo info) behind) ∨
        (info.fieldsHash = Call.fieldsDigest [] ∧ t.Stands front p behind)) := by
  have hflushed := h.flushedBefore
  unfold CallStack.attached at ht
  obtain ⟨s', hmodify, ht⟩ := Refusal.bind_eq_ok.mp ht
  obtain ⟨slot, d, hslot, -, rfl⟩ := modifyCurrent_eq_ok hmodify
  have hnext := hflushed.modifyAt hslot (Call.withInfo info)
  have hhashed : s.flushedBefore.isHashed .transaction =
      !(before.reverse.dropWhile Call.isLeg).reverse.isEmpty := by
    unfold CallStack.isHashed
    rw [hflushed.isRoot]
    rfl
  rw [hhashed] at ht
  by_cases hbefore : before = []
  · subst hbefore
    simp only [List.reverse_nil, List.dropWhile_nil, List.isEmpty_nil, Bool.not_true,
      Bool.false_eq_true, false_and, if_false, Except.ok.injEq] at ht
    subst ht
    exact .inl ⟨rfl, hnext⟩
  · have hfirst : ∀ d others, before = d :: others → d.calldata.isSome = true := by
      rintro d others rfl
      exact hordered.first d _ rfl (by simp)
    obtain ⟨front, p, mid, hsplit, hp, hmid, hkept⟩ := flush_stops hfirst hbefore
    rw [hkept] at ht hnext
    refine .inr ⟨front, p, mid, hsplit, hp, hmid, ?_⟩
    by_cases hnone : info.fieldsHash = Call.fieldsDigest []
    · rw [if_pos ⟨by simp, hnone⟩] at ht
      rw [eq_popped_of_pop ht]
      exact .inr ⟨hnone, hnext.popped⟩
    · rw [if_neg fun both => hnone both.2] at ht
      cases ht
      exact .inl ⟨hnone, hnext⟩

end

/-- One of the live calls is current, if any is live, and they stand in order. -/
structure Sound (s : CallStack) : Prop where
  current : s.live = [] ∨ ∃ before c behind, s.Stands before c behind
  ordered : Ordered s.live

theorem Stands.sound {s : CallStack} {before behind : List Call} {c : Call}
    (h : s.Stands before c behind) (hordered : Ordered (before ++ c :: behind)) : s.Sound :=
  ⟨.inr ⟨before, c, behind, h⟩, by rwa [h.live]⟩

/-- A descriptor leaves calls that nothing can describe if it finds such calls behind its own, none
with arguments besides its own and the first, and its own is the first or leaves. -/
theorem Stands.attached_stuck {s t : CallStack} {before behind : List Call} {c : Call}
    {info : TransactionInfo} (h : s.Stands before c behind)
    (hordered : Ordered (before ++ c :: behind)) (hdata : c.calldata.isSome = true)
    (ht : s.flushedBefore.attached .transaction info = .ok t) :
    t.Sound ∧ (Stuck t.live ↔ behind ≠ [] ∧ (∀ d ∈ before.tail ++ behind, d.calldata = none) ∧
      (before = [] ∨ info.fieldsHash = Call.fieldsDigest [])) := by
  rcases h.attached hordered ht with ⟨rfl, hfirst⟩ |
    ⟨front, p, mid, rfl, hp, hmid, ⟨hfields, hstays⟩ | ⟨hnone, hleaves⟩⟩
  · have hdescribed : Ordered ([] ++ c.withInfo info :: behind) :=
      hordered.replace id (fun _ => hdata) (by simp)
    refine ⟨hfirst.sound hdescribed, ?_⟩
    rw [hfirst.live, List.nil_append, stuck_cons]
    simp
  · have hclosed : Ordered (front ++ p :: (c :: behind)) := by
      refine Ordered.close mid ?_ hp
      rwa [List.append_assoc] at hordered
    have hdescribed : Ordered ((front ++ [p]) ++ c.withInfo info :: behind) := by
      refine Ordered.replace (c := c) ?_ id (fun _ => hdata) ?_
      · rwa [List.append_assoc]
      · intro _ q hq
        obtain rfl : p = q := by simpa using hq
        exact hp
    refine ⟨hstays.sound hdescribed, ?_⟩
    rw [hstays.live]
    constructor
    · intro hstuck
      have hmem : c.withInfo info ∈
          ((front ++ [p]) ++ c.withInfo info :: behind).tail := mem_tail (by simp)
      exact absurd hstuck (not_stuck_of_mem hmem hdata)
    · rintro ⟨-, -, hfront | hdigest⟩
      · simp at hfront
      · exact absurd hdigest hfields
  · have hclosed : Ordered (front ++ p :: behind) := by
      refine Ordered.close (mid ++ [c]) ?_ hp
      rw [List.append_assoc] at hordered
      rwa [List.append_assoc]
    refine ⟨hleaves.sound hclosed, ?_⟩
    rw [hleaves.live]
    cases front with
    | nil =>
      rw [List.nil_append, stuck_cons, List.nil_append, List.tail_cons, List.forall_mem_append]
      constructor
      · rintro ⟨hsome, hlegs⟩
        exact ⟨hsome, ⟨hmid, hlegs⟩, .inr hnone⟩
      · rintro ⟨hsome, ⟨-, hlegs⟩, -⟩
        exact ⟨hsome, hlegs⟩
    | cons b front =>
      constructor
      · intro hstuck
        exact absurd hstuck (not_stuck_of_mem (mem_tail (by simp)) hp)
      · rintro ⟨-, hlegs, -⟩
        rw [hlegs p (by simp)] at hp
        cases hp

/-- More arguments for the first call leave the order as it is, and all other calls. -/
theorem Sound.modify_root {s : CallStack} (hs : s.Sound) {slot : Nat}
    (hplace : s.places.head? = some slot) (data : Calldata) :
    let t := s.modifyAt slot fun c => { c with calldata := some data }
    t.Sound ∧ t.live.tail = s.live.tail := by
  intro t
  obtain ⟨c, behind, hstands⟩ := stands_first hplace
  have hlive : s.live = c :: behind := hstands.live
  have hlive' : t.live = { c with calldata := some data } :: behind :=
    (hstands.modifyAt rfl fun c => { c with calldata := some data }).live
  refine ⟨⟨?_, ?_⟩, by rw [hlive, hlive', List.tail_cons, List.tail_cons]⟩
  · rcases hs.current with hnone | ⟨before', c', behind', hstands'⟩
    · rw [hlive] at hnone
      cases hnone
    · obtain ⟨slot', hslot', hcall'⟩ := hstands'.call?
      obtain ⟨c'', hcall''⟩ : ∃ c'', t.call? slot' = some c'' := by
        rw [call?_modifyAt, hcall']
        split
        · exact ⟨_, rfl⟩
        · exact ⟨_, rfl⟩
      obtain ⟨b, a, hst⟩ := stands_of_call? (s := t) hslot' hcall''
      exact .inr ⟨b, _, a, hst⟩
  · have hordered : Ordered ([] ++ c :: behind) := by
      rw [List.nil_append, ← hlive]
      exact hs.ordered
    rw [hlive']
    exact hordered.change (fun _ => rfl) id

end ClearSign.CallStack
