import ClearSign.Proofs.Path.Capacity
import ClearSign.Proofs.Review.Ceilings
import ClearSign.Proofs.Session.Reset

/-!
The ceilings of a session. Whatever the host asks for, and however it ends, a session holds no
more than its settings and its caches allow.
-/

namespace ClearSign

open Refusal ClearSign.Action

namespace Cache

theorem length_enqueue_le {α : Type} {capacity : Nat} {entries : List α} (entry : α)
    (hpos : 0 < capacity) (h : entries.length ≤ capacity) :
    (enqueue capacity entries entry).length ≤ capacity := by
  unfold enqueue
  split
  · rw [List.length_append, List.length_drop, List.length_singleton]
    omega
  · rw [List.length_append, List.length_singleton]
    omega

theorem length_replaceFirst {α : Type} (p : α → Bool) (entry : α) (entries : List α) :
    (replaceFirst p entry entries).length = entries.length := by
  induction entries with
  | nil => rfl
  | cons e rest ih =>
    unfold replaceFirst
    split
    · rfl
    · rw [List.length_cons, List.length_cons, ih]

/-- No more descriptors are kept than there is room for. -/
structure Within (cache : Cache) : Prop where
  bindings : cache.bindings.length ≤ maxBindings
  labels : cache.labels.length ≤ maxLabels

theorem Within.addBinding {cache : Cache} (h : cache.Within) (b : ProxyBinding) :
    (cache.addBinding b).Within := by
  refine ⟨?_, h.labels⟩
  unfold Cache.addBinding
  split
  · exact Nat.le_trans (Nat.le_of_eq (length_replaceFirst _ _ _)) h.bindings
  · exact length_enqueue_le b (by decide) h.bindings

theorem Within.addLabel {cache : Cache} (h : cache.Within) (l : EnumLabel) :
    (cache.addLabel l).Within :=
  ⟨h.bindings, length_enqueue_le l (by decide) h.labels⟩

end Cache

namespace Reassembly

/-- What has come of a payload is no more than was announced, and no more is announced than is
taken in at all. -/
def Within (limit : Nat) (r : Reassembly) : Prop :=
  ∀ p, r.pending = some p → p.bytes.length ≤ p.announced ∧ p.announced ≤ limit

variable {limit : Nat} {r : Reassembly}

theorem within_idle (limit : Nat) : Within limit idle := by
  intro p hp
  cases hp

theorem announced_begin {chunk data : Bytes} {p : Pending}
    (h : begin limit chunk = .ok (p, data)) : p.announced ≤ limit := by
  unfold begin at h
  split at h
  · dsimp only at h
    split at h
    · rename_i hfits
      cases h
      exact hfits
    · cases h
  · cases h

/-- The payload that a chunk belongs to is no longer than is taken in. -/
theorem announced_place {mark : UInt8} {chunk data : Bytes} {p : Pending} (hr : Within limit r)
    (h : place limit r mark chunk = .ok (p, data)) : p.announced ≤ limit := by
  unfold place at h
  split at h
  · split at h
    · cases h
    · exact announced_begin h
  · split at h
    · split at h
      · rename_i hpending
        cases h
        exact (hr _ hpending).2
      · cases h
    · cases h

theorem within_accept {mark : UInt8} {chunk : Bytes} {payload : Option Bytes} {r' : Reassembly}
    (hr : Within limit r) (h : accept limit r mark chunk = .ok (payload, r')) :
    Within limit r' := by
  obtain ⟨⟨p, data⟩, hplace, h⟩ := bind_eq_ok.mp h
  have hannounced := announced_place hr hplace
  dsimp only at h
  by_cases hlong : p.announced < (p.bytes ++ data).length
  · simp only [if_pos hlong, bind_eq_ok, throw_ne_ok, false_and, exists_false] at h
  · simp only [if_neg hlong] at h
    split at h
    · rename_i hshort
      cases h
      rintro q ⟨⟩
      exact ⟨Nat.le_of_lt hshort, hannounced⟩
    · cases h
      exact within_idle limit

theorem within_feed (mark : UInt8) (chunk : Bytes) :
    Preserves (Within limit) (feed limit mark chunk) := by
  refine .get_bind fun r hr => ?_
  split
  · rename_i haccept
    exact .bind (.set (within_accept hr haccept)) fun _ => .pure _
  · exact .bind (.set (within_idle limit)) fun _ => .throw _

end Reassembly

namespace Session

/-- A session holds no more than its settings and its caches allow. -/
structure Within (settings : Settings) (s : Session) : Prop where
  review : s.review.Within settings
  cache : s.cache.Within
  reassembly : s.reassembly.Within settings.maxPayload

variable {device : Device}

theorem within_idle (settings : Settings) (challenge : Challenge) :
    Within settings (idle challenge) :=
  ⟨⟨Nat.zero_le _, Nat.zero_le _⟩, ⟨Nat.zero_le _, Nat.zero_le _⟩, Reassembly.within_idle _⟩

theorem within_onReview {α : Type} {a : Action Review α}
    (ha : Preserves (Review.Within device.settings) a) :
    Preserves (Within device.settings) (onReview a) :=
  .onPart (fun _ hs => hs.review) (fun _ _ hs hr => ⟨hr, hs.cache, hs.reassembly⟩) ha

theorem within_unpark : Preserves (Within device.settings) unpark :=
  .get_bind fun _ _ => .bind (.modify fun _ hs => ⟨hs.review, hs.cache, hs.reassembly⟩) fun _ =>
    .pure _

theorem within_openRoot (t : Transaction) :
    Preserves (Within device.settings) (openRoot device t) := by
  refine .bind (within_onReview (Review.within_openCall _)) fun _ =>
    .bind (within_onReview (Review.within_onCalls fun _ _ h => ?_)) fun _ => ?_
  · exact Nat.le_of_eq (CallStack.count_selectRoot h)
  · split
    · exact .modify fun s hs => ⟨⟨hs.review.calls, Nat.zero_le _⟩, hs.cache, hs.reassembly⟩
    · exact .pure _

theorem within_begin (t : Transaction) : Preserves (Within device.settings) (begin device t) := by
  refine .get_bind fun s _ => ?_
  split
  · split
    · exact .bind (.throw _) fun _ => within_openRoot t
    · exact within_openRoot t
  · split
    · exact .bind (.throw _) fun _ => .bind within_unpark fun _ => within_openRoot _
    · exact .bind within_unpark fun _ => within_openRoot _

theorem within_append (bs : Bytes) : Preserves (Within device.settings) (append bs) := by
  refine .get_bind fun s hs => ?_
  split
  · split
    · exact .bind (.ofExcept _) fun _ => .set ⟨hs.review, hs.cache, hs.reassembly⟩
    · exact .throw _
  · refine within_onReview (Review.within_onCalls fun _ _ h => ?_)
    exact Nat.le_of_eq (CallStack.count_appendRoot h)

theorem within_handleField (payload : Bytes) :
    Preserves (Within device.settings) (handleField device payload) := by
  refine .bind (.ofExcept _) fun field => .bind (within_onReview ?_) fun _ =>
    .get_bind fun s _ => .bind (within_onReview (Field.within_format _ _)) fun _ =>
      within_onReview Review.within_settle
  exact Review.within_onCalls fun _ _ h => Nat.le_of_eq (CallStack.count_modifyCurrent h)

theorem within_handleInfo (payload : Bytes) :
    Preserves (Within device.settings) (handleInfo device payload) := by
  have hattach (info : TransactionInfo) : Preserves (Within device.settings) (do
      let cache := (← get).cache
      onReview do
        Review.onCalls (CallStack.select cache info.contract info.selector info.chain)
        Review.flushBefore device.toHost
        Review.attach device.toHost info) := by
    refine .get_bind fun s _ => within_onReview (.bind (Review.within_onCalls fun _ _ h => ?_)
      fun _ => .bind Review.within_flushBefore fun _ => Review.within_attach info)
    exact Nat.le_of_eq (CallStack.count_congr (CallStack.select_eq_ok h).1)
  refine .get_bind fun s _ => .bind (.ofExcept _) fun info => ?_
  split
  · exact .bind within_unpark fun _ => .bind (within_openRoot _) fun _ => hattach info
  · exact hattach info

theorem within_handle (command : Command) (payload : Bytes) :
    Preserves (Within device.settings) (handle device command payload) := by
  cases command with
  | field => exact within_handleField payload
  | transactionInfo => exact within_handleInfo payload
  | proxyBinding =>
    refine .get_bind fun s _ => .bind (.modify fun _ hs => ⟨hs.review, hs.cache, hs.reassembly⟩)
      fun _ => .bind (.ofExcept _) fun b => .modify fun s hs => ?_
    exact ⟨hs.review, hs.cache.addBinding b, hs.reassembly⟩
  | enumLabel =>
    refine .bind (.ofExcept _) fun l => .modify fun s hs => ?_
    exact ⟨hs.review, hs.cache.addLabel l, hs.reassembly⟩

theorem within_takeChunk (command : Command) (mark : UInt8) (chunk : Bytes) :
    Preserves (Within device.settings) (takeChunk device command mark chunk) := by
  refine .bind (.onPart (fun _ hs => hs.reassembly)
    (fun _ _ hs hr => ⟨hs.review, hs.cache, hr⟩) (Reassembly.within_feed mark chunk))
    fun payload? => ?_
  cases payload? with
  | some payload => exact within_handle command payload
  | none => exact .pure _

theorem within_step (op : Operation) {s : Session} (hs : Within device.settings s) :
    Within device.settings (s.step device op) := by
  cases op with
  | begin t => exact within_begin t s hs
  | park data => exact ⟨hs.review, hs.cache, hs.reassembly⟩
  | append bs => exact within_append bs s hs
  | command command mark chunk =>
    have htake := within_takeChunk command mark chunk s hs
    show Within device.settings (s.run device command mark chunk).2
    unfold run
    split
    · split
      · rename_i hexec
        rwa [hexec] at htake
      · rename_i s' _
        rw [s'.wipe_eq_idle]
        exact within_idle _ _
    · rw [s.wipe_eq_idle]
      exact within_idle _ _
  | roll => exact ⟨hs.review, hs.cache, hs.reassembly⟩
  | cleanup =>
    show Within device.settings s.wipe
    rw [s.wipe_eq_idle]
    exact within_idle _ _

/-- What may be asked of a session: an operation of the host, or that a payload be handled as it
is, past the chunks and the wipe of a command. -/
inductive Request
  | operation (op : Operation)
  | handle (command : Command) (payload : Bytes)

def serve (device : Device) (s : Session) : Request → Session
  | .operation op => s.step device op
  | .handle command payload => ((handle device command payload).exec s).2

theorem within_serve (request : Request) {s : Session} (hs : Within device.settings s) :
    Within device.settings (s.serve device request) := by
  cases request with
  | operation op => exact within_step op hs
  | handle command payload => exact within_handle command payload s hs

theorem within_serves (device : Device) (requests : List Request) :
    Within device.settings (requests.foldl (serve device) (start device)) := by
  have hrun : ∀ (requests : List Request) (s : Session), Within device.settings s →
      Within device.settings (requests.foldl (serve device) s) := by
    intro requests
    induction requests with
    | nil =>
      intro s hs
      exact hs
    | cons request requests ih =>
      intro s hs
      exact ih _ (within_serve request hs)
  exact hrun requests _ (within_idle _ _)

/-- Whatever was asked of a session, in whatever order and however it ended: no more calls are
live and no more rows are shown than the settings allow, what has come of a payload is no more
than was announced nor than the settings allow, four bindings and thirty-two labels are kept at
most, and no value stands for more than sixteen byte strings. -/
theorem ceilings_hold (device : Device) (requests : List Request) :
    let s := requests.foldl (serve device) (start device)
    s.review.calls.count ≤ device.settings.maxCalls ∧
    s.review.table.length ≤ device.settings.maxRows ∧
    (∀ p, s.reassembly.pending = some p →
      p.bytes.length ≤ p.announced ∧ p.bytes.length ≤ device.settings.maxPayload) ∧
    s.cache.bindings.length ≤ 4 ∧ s.cache.labels.length ≤ 32 ∧
    ∀ (v : Value) (call : Option Call) captures, v.resolve call = .ok captures →
      captures.length ≤ 16 := by
  intro s
  have hs : Within device.settings s := within_serves device requests
  refine ⟨hs.review.calls, hs.review.rows, ?_, hs.cache.bindings, hs.cache.labels, ?_⟩
  · intro p hp
    obtain ⟨hbytes, hannounced⟩ := hs.reassembly p hp
    exact ⟨hbytes, Nat.le_trans hbytes hannounced⟩
  · intro v call captures h
    exact Value.length_resolve_le h

end Session

end ClearSign
