import ClearSign.Proofs.Bytes
import ClearSign.Proofs.Session.Run

/-!
Payloads in chunks. However a payload is cut, the chunk that completes it is answered as the whole
payload is in one chunk, and leaves the session as that would.
-/

namespace ClearSign

namespace Reassembly

/-- The payload so far, which is handed on once it has the announced size. -/
def collect (announced : Nat) (bytes : Bytes) : Option Bytes × Reassembly :=
  if bytes.length < announced then (none, ⟨some ⟨announced, bytes⟩⟩) else (some bytes, idle)

section

variable {limit announced : Nat} {r : Reassembly}

theorem accept_of_place {mark : UInt8} {chunk data : Bytes} {p : Pending}
    (h : r.place limit mark chunk = .ok (p, data))
    (hroom : (p.bytes ++ data).length ≤ p.announced) :
    r.accept limit mark chunk = .ok (collect p.announced (p.bytes ++ data)) := by
  unfold accept collect
  simp only [h, bind, Except.bind, if_neg (Nat.not_lt.mpr hroom)]
  split
  · rfl
  · rfl

/-- A first chunk opens with the size, and may bring as many bytes. -/
theorem accept_first {data : Bytes} (hidle : r.pending = none) (htwo : announced ≤ 0xffff)
    (hlimit : announced ≤ limit) (hdata : data.length ≤ announced) :
    r.accept limit firstMark (Bytes.ofNat 2 announced ++ data) = .ok (collect announced data) := by
  have hsize : Bytes.toNat (Bytes.ofNat 2 announced) = announced := by
    rw [Bytes.toNat_ofNat]
    exact Nat.mod_eq_of_lt (by omega)
  obtain ⟨high, low, hbytes⟩ : ∃ high low, Bytes.ofNat 2 announced = [high, low] :=
    ⟨_, _, rfl⟩
  have hplace : r.place limit firstMark (Bytes.ofNat 2 announced ++ data) =
      .ok (⟨announced, []⟩, data) := by
    rw [hbytes] at hsize ⊢
    unfold place begin
    simp [hidle, hsize, hlimit]
  exact accept_of_place hplace hdata

/-- A chunk that follows may bring as many bytes as are missing. -/
theorem accept_next {bytes chunk : Bytes} (hroom : (bytes ++ chunk).length ≤ announced) :
    accept limit ⟨some ⟨announced, bytes⟩⟩ nextMark chunk =
      .ok (collect announced (bytes ++ chunk)) :=
  accept_of_place (p := ⟨announced, bytes⟩) rfl hroom

end

end Reassembly

namespace Session

open ClearSign.Action

/-- A payload as it is sent: its size in two bytes, and its bytes behind. -/
def framed (payload : Bytes) : Bytes := Bytes.ofNat 2 payload.length ++ payload

/-- Chunks that a byte string is cut into: the first holds the size, and before the last one some
bytes are missing. -/
structure Cut (bs first : Bytes) (more : List Bytes) : Prop where
  joined : first ++ more.flatten = bs
  size : 2 ≤ first.length
  missing : ∀ n < more.length, first ++ (more.take n).flatten ≠ bs

/-- Sends one more chunk to the session that an answer left. -/
def sendNext (device : Device) (command : Command) (answer : StatusWord × Session)
    (chunk : Bytes) : StatusWord × Session :=
  answer.2.run device command Reassembly.nextMark chunk

/-- Sends chunks one after the other. The answer is the one to the last of them. -/
def send (device : Device) (command : Command) (first : Bytes) (more : List Bytes) (s : Session) :
    StatusWord × Session :=
  more.foldl (sendNext device command) (s.run device command Reassembly.firstMark first)

/-- The session while some bytes of a payload have come. -/
def waiting (announced : Nat) (bytes : Bytes) (s : Session) : Session :=
  { s with reassembly := ⟨some ⟨announced, bytes⟩⟩ }

/-- The answer to a whole payload, and the session after it. -/
def finish (device : Device) (command : Command) (payload : Bytes) (s : Session) :
    StatusWord × Session :=
  match (handle device command payload).exec { s with reassembly := Reassembly.idle } with
  | (.ok (), s) => (StatusWord.ok, s)
  | (.error e, s) => (StatusWord.ofError e, s.wipe)

section

variable {device : Device} {command : Command} {mark : UInt8} {chunk : Bytes} {s : Session}

/-- A chunk that leaves bytes missing is answered with success; one that completes the payload is
answered as the payload is. -/
theorem run_collect {announced : Nat} {bytes : Bytes} (hallowed : s.isAllowed command = true)
    (h : s.reassembly.accept device.settings.maxPayload mark chunk =
      .ok (Reassembly.collect announced bytes)) :
    s.run device command mark chunk =
      if bytes.length < announced then (StatusWord.ok, s.waiting announced bytes)
      else s.finish device command bytes := by
  unfold run takeChunk Reassembly.feed
  rw [if_pos hallowed, exec_bind, exec_onPart, exec_get_bind, h]
  unfold Reassembly.collect
  by_cases hmissing : bytes.length < announced
  · simp only [if_pos hmissing, exec_set_bind]
    rfl
  · simp only [if_neg hmissing, exec_set_bind]
    rfl

/-- Of bytes that are a part of a payload, some are missing unless they are all of it. -/
theorem length_lt_of_missing {bytes rest payload : Bytes} (hjoined : bytes ++ rest = payload)
    (hmissing : bytes ≠ payload) : bytes.length < payload.length := by
  rw [← hjoined, List.length_append]
  apply Nat.lt_add_of_pos_right
  rw [List.length_pos_iff]
  rintro rfl
  exact hmissing (by rw [← hjoined, List.append_nil])

/-- Behind one more chunk the rest of a payload is cut as it was before. -/
theorem cut_next {bytes chunk payload : Bytes} {more : List Bytes}
    (hjoined : bytes ++ (chunk :: more).flatten = payload)
    (hmissing : ∀ n < (chunk :: more).length,
      bytes ++ ((chunk :: more).take n).flatten ≠ payload) :
    (bytes ++ chunk) ++ more.flatten = payload ∧ (bytes ++ chunk).length ≤ payload.length ∧
      ∀ n < more.length, (bytes ++ chunk) ++ (more.take n).flatten ≠ payload := by
  have hjoined' : (bytes ++ chunk) ++ more.flatten = payload := by
    rw [List.append_assoc, ← hjoined, List.flatten_cons]
  refine ⟨hjoined', ?_, ?_⟩
  · have hlength := congrArg List.length hjoined'
    rw [List.length_append] at hlength
    exact Nat.le.intro hlength
  · intro n hn
    have hlater := hmissing (n + 1) (by simpa using hn)
    rwa [List.take_succ_cons, List.flatten_cons, ← List.append_assoc] at hlater

/-- The chunks that follow complete the payload, and the last of them is answered as it is. -/
theorem foldl_sendNext {bytes payload : Bytes} {more : List Bytes} (answer : StatusWord)
    (hallowed : s.isAllowed command = true) (hmore : more ≠ [])
    (hjoined : bytes ++ more.flatten = payload)
    (hmissing : ∀ n < more.length, bytes ++ (more.take n).flatten ≠ payload) :
    more.foldl (sendNext device command) (answer, s.waiting payload.length bytes) =
      s.finish device command payload := by
  induction more generalizing bytes answer with
  | nil => exact absurd rfl hmore
  | cons chunk more ih =>
    obtain ⟨hjoined', hroom, hmissing'⟩ := cut_next hjoined hmissing
    rw [List.foldl_cons, sendNext, run_collect (s := s.waiting payload.length bytes) hallowed
      (Reassembly.accept_next hroom)]
    cases more with
    | nil =>
      obtain rfl : bytes ++ chunk = payload := by simpa using hjoined'
      rw [if_neg (Nat.lt_irrefl _)]
      rfl
    | cons next more =>
      have hsome : bytes ++ chunk ≠ payload := by
        simpa using hmissing 1 (by simp)
      rw [if_pos (length_lt_of_missing hjoined' hsome)]
      exact ih _ (by simp) hjoined' hmissing'

/-- The first chunk is the size and the first bytes of the payload. -/
theorem Cut.first {payload first : Bytes} {more : List Bytes} (h : Cut (framed payload) first more) :
    ∃ data, first = Bytes.ofNat 2 payload.length ++ data ∧ data ++ more.flatten = payload ∧
      ∀ n < more.length, data ++ (more.take n).flatten ≠ payload := by
  have hsize := Bytes.length_ofNat 2 payload.length
  have hjoined := h.joined
  have hfirst : first.take 2 = Bytes.ofNat 2 payload.length := by
    have htake := congrArg (List.take 2) hjoined
    rwa [List.take_append_of_le_length h.size, framed, List.take_left' hsize] at htake
  have hcut : first = Bytes.ofNat 2 payload.length ++ first.drop 2 := by
    rw [← hfirst, List.take_append_drop]
  refine ⟨first.drop 2, hcut, ?_, ?_⟩
  · have hdrop := congrArg (List.drop 2) hjoined
    rwa [List.drop_append_of_le_length h.size, framed, List.drop_left' hsize] at hdrop
  · intro n hn heq
    apply h.missing n hn
    rw [hcut, List.append_assoc, heq]
    rfl

/-- A command that is not allowed stays so, whatever follows. -/
theorem send_refused {first : Bytes} {more : List Bytes} (h : s.isAllowed command = false) :
    send device command first more s = (StatusWord.ofError .commandNotAllowed, s.wipe) := by
  have hrefused (s : Session) (mark : UInt8) (chunk : Bytes) (h : s.isAllowed command = false) :
      s.run device command mark chunk = (StatusWord.ofError .commandNotAllowed, s.wipe) := by
    unfold run
    rw [h]
    rfl
  have hwiped : s.wipe.isAllowed command = false := by
    unfold isAllowed at h ⊢
    simp only [wipe_eq_idle, Bool.or_eq_false_iff] at h ⊢
    exact ⟨h.1, rfl⟩
  unfold send
  rw [hrefused s _ first h]
  induction more with
  | nil => rfl
  | cons chunk more ih =>
    rw [List.foldl_cons, sendNext, hrefused s.wipe _ chunk hwiped]
    exact ih

end

/-- A payload may be cut into chunks in any way that keeps its size in the first of them and
completes it with the last: the answer to the last chunk and the session after it are those of the
whole payload in one chunk. -/
theorem send_eq_run (device : Device) (command : Command) (s : Session) (payload first : Bytes)
    (more : List Bytes) (hidle : s.reassembly.pending = none)
    (hsize : payload.length ≤ min 0xffff device.settings.maxPayload)
    (hcut : Cut (framed payload) first more) :
    send device command first more s =
      s.run device command Reassembly.firstMark (framed payload) := by
  by_cases hallowed : s.isAllowed command = true
  · obtain ⟨htwo, hlimit⟩ := Nat.le_min.mp hsize
    obtain ⟨data, rfl, hjoined, hmissing⟩ := hcut.first
    have hdata : data.length ≤ payload.length := by
      rw [← hjoined, List.length_append]
      exact Nat.le_add_right _ _
    have hwhole : s.run device command Reassembly.firstMark (framed payload) =
        s.finish device command payload := by
      rw [framed, run_collect hallowed
        (Reassembly.accept_first hidle htwo hlimit (Nat.le_refl _)), if_neg (Nat.lt_irrefl _)]
    unfold send
    rw [hwhole, run_collect hallowed (Reassembly.accept_first hidle htwo hlimit hdata)]
    cases more with
    | nil =>
      obtain rfl : data = payload := by simpa using hjoined
      rw [if_neg (Nat.lt_irrefl _)]
      rfl
    | cons chunk more =>
      have hsome : data ≠ payload := by simpa using hmissing 0 (by simp)
      rw [if_pos (length_lt_of_missing hjoined hsome)]
      exact foldl_sendNext _ hallowed (by simp) hjoined hmissing
  · have hrefused : s.isAllowed command = false := by simpa using hallowed
    rw [send_refused hrefused]
    exact (send_refused hrefused : send device command (framed payload) [] s = _).symm

/-- A field whose size comes first, then nothing, then its bytes in two pieces. -/
theorem send_eq_run_pieces :
    let device := sampleDevice .transaction
    let s := after device [sampleArguments, sampleInfo []]
    let first := Bytes.ofNat 2 sampleField.length
    let more := [[], sampleField.take 5, sampleField.drop 5]
    s.reassembly.pending = none ∧ sampleField.length ≤ min 0xffff device.settings.maxPayload ∧
      Cut (framed sampleField) first more ∧
      send device .field first more s =
        s.run device .field Reassembly.firstMark (framed sampleField) ∧
      (send device .field first more s).1 = .ok := by
  intro device s first more
  have hrun : s.reassembly.pending = none ∧
      (s.run device .field Reassembly.firstMark (framed sampleField)).1 = .ok := by
    decide +kernel
  obtain ⟨hidle, hok⟩ := hrun
  have hsize : sampleField.length ≤ min 0xffff device.settings.maxPayload := by decide
  have hcut : Cut (framed sampleField) first more := ⟨by decide, by decide, by decide⟩
  have hsend := send_eq_run device .field s sampleField first more hidle hsize hcut
  refine ⟨hidle, hsize, hcut, hsend, ?_⟩
  rw [hsend, hok]

end Session

end ClearSign
