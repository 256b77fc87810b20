import ClearSign.Proofs.Session.Run
import Mathlib.Data.List.Induction

/-!
What a refused command leaves behind. However far a command got before it was refused, the session
is then as it was built, but for the challenge; and what the host sees from there on is what it
sees of such a session.
-/

namespace ClearSign.Session

open ClearSign.Action

section

/-! Transactions, arguments, fields and descriptors of calls change nothing of a session but the
review and what is parked. -/

variable {device : Device} {τ : Type} {part : Session → τ}
  (hpart : ∀ s review parked, part { s with review := review, parked := parked } = part s)

include hpart

theorem keeps_onReview {α : Type} (a : Action Review α) : Keeps part (onReview a) :=
  fun s => hpart s _ s.parked

theorem keeps_unpark : Keeps part unpark :=
  .bind .get fun _ => .bind (.modify fun s => hpart s s.review none) fun _ => .pure _

theorem keeps_openRoot (t : Transaction) : Keeps part (openRoot device t) := by
  unfold openRoot
  refine .bind (keeps_onReview hpart _) fun _ => .bind (keeps_onReview hpart _) fun _ => ?_
  split
  · exact .modify fun s => hpart s _ s.parked
  · exact .pure _

theorem keeps_begin (t : Transaction) : Keeps part (begin device t) := by
  unfold begin
  refine .bind .get fun s => ?_
  split
  · split
    · exact .bind (.throw _) fun _ => keeps_openRoot hpart t
    · exact keeps_openRoot hpart t
  · split
    · exact .bind (.throw _) fun _ => .bind (keeps_unpark hpart) fun _ => keeps_openRoot hpart _
    · exact .bind (keeps_unpark hpart) fun _ => keeps_openRoot hpart _

theorem keeps_append (bs : Bytes) : Keeps part (append bs) := by
  intro s
  unfold append
  rw [exec_get_bind]
  by_cases hnone : s.review.calls.count = 0
  · rw [if_pos hnone]
    cases s.parked with
    | none => rfl
    | some data =>
      simp only [exec_bind, exec_ofExcept]
      cases data.append bs with
      | error e => rfl
      | ok data' => exact hpart s s.review (some data')
  · rw [if_neg hnone]
    exact keeps_onReview hpart _ s

theorem keeps_handleField (payload : Bytes) : Keeps part (handleField device payload) := by
  unfold handleField
  exact .bind (.ofExcept _) fun _ => .bind (keeps_onReview hpart _) fun _ => .bind .get fun _ =>
    .bind (keeps_onReview hpart _) fun _ => keeps_onReview hpart _

theorem keeps_handleInfo (payload : Bytes) : Keeps part (handleInfo device payload) := by
  unfold handleInfo
  refine .bind .get fun s => .bind (.ofExcept _) fun info => ?_
  split
  · exact .bind (keeps_unpark hpart) fun _ => .bind (keeps_openRoot hpart _) fun _ =>
      .bind .get fun _ => keeps_onReview hpart _
  · exact .bind .get fun _ => keeps_onReview hpart _

end

section

variable {device : Device}

theorem keeps_handleLabel {τ : Type} {part : Session → τ}
    (hlabel : ∀ s l, part { s with cache := s.cache.addLabel l } = part s) (payload : Bytes) :
    Keeps part (handleLabel device payload) := by
  unfold handleLabel
  exact .bind (.ofExcept _) fun l => .modify fun s => hlabel s l

theorem keeps_handleBinding {τ : Type} {part : Session → τ}
    (hroll : ∀ s, part (s.rollChallenge device) = part s)
    (hbinding : ∀ s b, part { s with cache := s.cache.addBinding b } = part s) (payload : Bytes) :
    Keeps part (handleBinding device payload) := by
  unfold handleBinding
  exact .bind .get fun _ => .bind (.modify hroll) fun _ => .bind (.ofExcept _) fun b =>
    .modify fun s => hbinding s b

/-- A binding uses up the challenge, good or bad; no other payload touches it. -/
theorem handle_challenge (command : Command) (payload : Bytes) (s : Session) :
    ((handle device command payload).exec s).2.challenge =
      if command = .proxyBinding then s.challenge.roll device.registry else s.challenge := by
  cases command with
  | field => exact keeps_handleField (fun _ _ _ => rfl) payload s
  | transactionInfo => exact keeps_handleInfo (fun _ _ _ => rfl) payload s
  | proxyBinding =>
    simp only [handle, handleBinding, if_true]
    rw [exec_get_bind, exec_modify_bind, exec_bind, exec_ofExcept]
    cases ProxyBinding.parse s.challenge.value device.verifier payload with
    | error e => rfl
    | ok binding => rfl
  | enumLabel => exact keeps_handleLabel (fun _ _ => rfl) payload s

/-- A command uses up the challenge just if it is a binding whose payload has come whole. -/
theorem run_challenge (command : Command) (mark : UInt8) (chunk : Bytes) (s : Session) :
    (s.run device command mark chunk).2.challenge =
      if command = .proxyBinding ∧ (s.completed device mark chunk).isSome then
        s.challenge.roll device.registry
      else s.challenge := by
  have htake : ((takeChunk device command mark chunk).exec s).2.challenge =
      if command = .proxyBinding ∧ (s.completed device mark chunk).isSome then
        s.challenge.roll device.registry
      else s.challenge := by
    unfold takeChunk Reassembly.feed completed
    rw [exec_bind, exec_onPart, exec_get_bind]
    cases s.reassembly.accept device.settings.maxPayload mark chunk with
    | error e =>
      rw [if_neg (by simp)]
      rfl
    | ok accepted =>
      obtain ⟨payload?, r⟩ := accepted
      cases payload? with
      | none =>
        rw [if_neg (by simp)]
        rfl
      | some payload =>
        simp only [exec_set_bind, exec_pure, Option.isSome_some, and_true]
        exact handle_challenge command payload { s with reassembly := r }
  unfold run
  by_cases hallowed : s.isAllowed command = true
  · rw [if_pos hallowed]
    rcases hexec : (takeChunk device command mark chunk).exec s with ⟨e | ⟨⟩, s'⟩
    · rwa [hexec] at htake
    · rwa [hexec] at htake
  · rw [if_neg hallowed]
    have hfield : command ≠ .proxyBinding := by
      rintro rfl
      exact hallowed rfl
    rw [if_neg fun both => hfield both.1]
    rfl

/-- Challenges are drawn one after the other, whatever else is done. -/
theorem step_challenge (s : Session) (op : Operation) :
    (s.step device op).challenge = s.challenge ∨
      (s.step device op).challenge = s.challenge.roll device.registry := by
  cases op with
  | begin t => exact .inl (keeps_begin (fun _ _ _ => rfl) t s)
  | park data => exact .inl rfl
  | append bs => exact .inl (keeps_append (fun _ _ _ => rfl) bs s)
  | command command mark chunk =>
    show (s.run device command mark chunk).2.challenge = _ ∨
      (s.run device command mark chunk).2.challenge = _
    rw [run_challenge]
    split
    · exact .inr rfl
    · exact .inl rfl
  | roll => exact .inr rfl
  | cleanup => exact .inl rfl

/-- Every run has the challenge of one that only draws challenges. -/
theorem exists_rolls (device : Device) (ops : List Operation) :
    ∃ rolls, idle (after device ops).challenge = after device (List.replicate rolls .roll) := by
  induction ops using List.reverseRecOn with
  | nil => exact ⟨0, rfl⟩
  | append_singleton ops op ih =>
    obtain ⟨rolls, hrolls⟩ := ih
    rw [after_concat]
    rcases step_challenge (after device ops) op with hkept | hrolled
    · exact ⟨rolls, by rw [hkept, hrolls]⟩
    · refine ⟨rolls + 1, ?_⟩
      rw [List.replicate_succ', after_concat, ← hrolls, hrolled]
      rfl

end

/-- What the host is answered: a status word to a command, else whether it was done. -/
inductive Reply
  | status (word : StatusWord)
  | result (r : Except Error Unit)
  | silent

def reply (device : Device) (s : Session) : Operation → Reply
  | .begin t => .result ((begin device t).exec s).1
  | .append bs => .result ((append bs).exec s).1
  | .command command mark chunk => .status (s.run device command mark chunk).1
  | .park _ | .roll | .cleanup => .silent

/-- What the host sees of one operation: the answer, then the rows and whether all is ready. -/
structure Report where
  reply : Reply
  rows : Table
  ready : Bool

def reports (device : Device) : Session → List Operation → List Report
  | _, [] => []
  | s, op :: ops =>
    let s' := s.step device op
    ⟨s.reply device op, s'.review.table, s'.isReady device⟩ :: reports device s' ops

section

variable {device : Device}

theorem length_reports (s : Session) (ops : List Operation) :
    (reports device s ops).length = ops.length := by
  induction ops generalizing s with
  | nil => rfl
  | cons op ops ih => rw [reports, List.length_cons, List.length_cons, ih]

theorem reports_append (s : Session) (ops later : List Operation) :
    reports device s (ops ++ later) =
      reports device s ops ++ reports device (ops.foldl (step device) s) later := by
  induction ops generalizing s with
  | nil => rfl
  | cons op ops ih => rw [List.cons_append, reports, reports, ih, List.foldl_cons, List.cons_append]

/-- The reports on what comes after the first operations of a run. -/
theorem drop_reports (device : Device) (ops later : List Operation) :
    (reports device (start device) (ops ++ later)).drop ops.length =
      reports device (after device ops) later := by
  rw [reports_append]
  exact List.drop_left' (length_reports _ ops)

end

/-- Nothing has come yet, or nothing of it is left. -/
structure IsBlank (s : Session) : Prop where
  slots : s.review.calls.slots = []
  current : s.review.calls.current = none
  batchTotal : s.review.calls.batchTotal = 0
  batchSize : s.review.calls.batchSize = 0
  table : s.review.table = []
  pending : s.reassembly.pending = none
  parked : s.parked = none
  bindings : s.cache.bindings = []
  labels : s.cache.labels = []

/-- A command that is refused after any run leaves the session blank, as it was built, with the
challenge that the run has come to: such a session as drawing challenges alone leads to. What the
host sees from there on is what it sees of that session. -/
theorem refused_resets (device : Device) (ops : List Operation) (command : Command) (mark : UInt8)
    (chunk : Bytes) (hrefused : ((after device ops).run device command mark chunk).1 ≠ .ok) :
    let refused := ((after device ops).run device command mark chunk).2
    let fresh := { start device with challenge := refused.challenge }
    refused = fresh ∧ refused.IsBlank ∧
      refused.challenge =
        (if command = .proxyBinding ∧ ((after device ops).completed device mark chunk).isSome then
          (after device ops).challenge.roll device.registry
        else (after device ops).challenge) ∧
      (∃ rolls, refused = after device (List.replicate rolls .roll)) ∧
      ∀ later, (reports device (start device)
          (ops ++ [.command command mark chunk] ++ later)).drop (ops.length + 1) =
        reports device fresh later := by
  intro refused fresh
  have hafter : after device (ops ++ [.command command mark chunk]) = refused :=
    after_concat device ops _
  have hidle : refused = idle refused.challenge := by
    rcases run_cases device command mark chunk (after device ops) with ⟨-, challenge, hwiped⟩ |
      ⟨hok, -⟩ | ⟨hok, -⟩
    · show _ = idle ((after device ops).run device command mark chunk).2.challenge
      rw [hwiped]
      exact hwiped
    · exact absurd hok hrefused
    · exact absurd hok hrefused
  have hfresh : refused = fresh := hidle
  refine ⟨hfresh, ?_, run_challenge command mark chunk _, ?_, ?_⟩
  · rw [hidle]
    exact ⟨rfl, rfl, rfl, rfl, rfl, rfl, rfl, rfl, rfl⟩
  · obtain ⟨rolls, hrolls⟩ := exists_rolls device (ops ++ [.command command mark chunk])
    rw [hafter, ← hidle] at hrolls
    exact ⟨rolls, hrolls⟩
  · intro later
    have hdrop := drop_reports device (ops ++ [.command command mark chunk]) later
    rw [hafter, List.length_append] at hdrop
    rw [← hfresh]
    exact hdrop

open Tlv in
/-- A field that shows a number of a type that is not shown. -/
def sampleUnshown : Bytes :=
  write 0 [1] ++ write 1 [97] ++ write 2 [0] ++ write 3 (write 0 [1] ++ write 1 (sampleValue 3 [1]))

/-- With a call and a row at hand, a field is refused once it has been counted in: both are gone. -/
theorem refused_resets_unshown :
    let device := sampleDevice .transaction
    let ops := [sampleArguments, sampleInfo [], whole .field sampleField]
    let chunk := Bytes.ofNat 2 sampleUnshown.length ++ sampleUnshown
    let refused := (after device ops).run device .field Reassembly.firstMark chunk
    (after device ops).review.calls.count = 1 ∧ (after device ops).review.table ≠ [] ∧
      refused.1 ≠ .ok ∧ refused.2.IsBlank ∧
      refused.2.challenge = (after device ops).challenge := by
  intro device ops chunk refused
  have hrun : (after device ops).review.calls.count = 1 ∧ (after device ops).review.table ≠ [] ∧
      refused.1 ≠ StatusWord.ok := by decide +kernel
  obtain ⟨hcount, hrows, hrefused⟩ := hrun
  obtain ⟨-, hblank, hchallenge, -⟩ :=
    refused_resets device ops .field Reassembly.firstMark chunk hrefused
  refine ⟨hcount, hrows, hrefused, hblank, ?_⟩
  rw [hchallenge, if_neg (by simp)]

end ClearSign.Session
