import ClearSign.Proofs.Session.Chunking

/-!
Chunks one after the other, whatever their marks and whatever they bring. A payload that is handed
on is what the chunks since the last first one have brought, and it has the size that was announced.
-/

namespace ClearSign.Reassembly

open ClearSign.Action

/-- A chunk with the mark of where it stands. -/
structure Chunk where
  mark : UInt8
  bytes : Bytes

/-- The answer to a chunk, and what is on its way after it. -/
def step (limit : Nat) (r : Reassembly) (c : Chunk) : Except Error (Option Bytes) × Reassembly :=
  (feed limit c.mark c.bytes).exec r

def after (limit : Nat) (r : Reassembly) (cs : List Chunk) : Reassembly :=
  cs.foldl (fun r c => (step limit r c).2) r

def answers (limit : Nat) (r : Reassembly) : List Chunk → List (Except Error (Option Bytes))
  | [] => []
  | c :: cs => (step limit r c).1 :: answers limit (step limit r c).2 cs

/-- The chunks that meet no objection. -/
def accepted (limit : Nat) (r : Reassembly) : List Chunk → List Chunk
  | [] => []
  | c :: cs =>
    if (step limit r c).1.isOk then c :: accepted limit (step limit r c).2 cs
    else accepted limit (step limit r c).2 cs

/-- What the last first chunk and those that follow it bring, and the size that it announces. -/
def Gathered (cs : List Chunk) (announced : Nat) (bytes : Bytes) : Prop :=
  ∃ before size data more, cs = before ++ ⟨firstMark, size ++ data⟩ :: more ∧
    size.length = 2 ∧ size.toNat = announced ∧ (∀ c ∈ more, c.mark = nextMark) ∧
    bytes = data ++ (more.map Chunk.bytes).flatten

/-- Chunks of a payload, of which the first is marked as such. -/
def marked (first : Bytes) (more : List Bytes) : List Chunk :=
  ⟨firstMark, first⟩ :: more.map (⟨nextMark, ·⟩)

section

variable {limit : Nat} {r : Reassembly} {c : Chunk} {cs : List Chunk}

theorem step_of_accept {answer : Option Bytes} {s : Reassembly}
    (h : r.accept limit c.mark c.bytes = .ok (answer, s)) : step limit r c = (.ok answer, s) := by
  unfold step feed
  rw [exec_get_bind, h]
  rfl

theorem step_of_refused {e : Error} (h : r.accept limit c.mark c.bytes = .error e) :
    step limit r c = (.error e, idle) := by
  unfold step feed
  rw [exec_get_bind, h]
  rfl

theorem step_error {e : Error} (h : (step limit r c).1 = .error e) :
    (step limit r c).2 = idle := by
  cases hnext : r.accept limit c.mark c.bytes with
  | ok next =>
    rw [step_of_accept hnext] at h
    cases h
  | error e' => rw [step_of_refused hnext]

theorem begin_eq_ok {chunk data : Bytes} {p : Pending} (h : begin limit chunk = .ok (p, data)) :
    ∃ size, chunk = size ++ data ∧ size.length = 2 ∧ p = ⟨size.toNat, []⟩ ∧
      p.announced ≤ limit := by
  unfold begin at h
  split at h
  · rename_i high low rest
    dsimp only at h
    split at h
    · rename_i hlimit
      cases h
      exact ⟨[high, low], rfl, rfl, rfl, hlimit⟩
    · cases h
  · cases h

/-- A chunk has a place behind what is on its way, or opens a payload where nothing is. -/
theorem place_eq_ok {mark : UInt8} {chunk data : Bytes} {p : Pending}
    (h : r.place limit mark chunk = .ok (p, data)) :
    (mark = nextMark ∧ r = ⟨some p⟩ ∧ data = chunk) ∨
      mark = firstMark ∧ r = idle ∧ begin limit chunk = .ok (p, data) := by
  obtain ⟨pending⟩ := r
  unfold place at h
  split at h
  · rename_i hfirst
    cases pending with
    | none => exact .inr ⟨hfirst, rfl, by simpa using h⟩
    | some p => cases h
  · split at h
    · rename_i hnext
      cases pending with
      | none => cases h
      | some p =>
        cases h
        exact .inl ⟨hnext, rfl, rfl⟩
    · cases h

theorem accept_eq_ok {mark : UInt8} {chunk : Bytes} {next : Option Bytes × Reassembly}
    (h : r.accept limit mark chunk = .ok next) :
    ∃ p data, r.place limit mark chunk = .ok (p, data) ∧
      (p.bytes ++ data).length ≤ p.announced ∧
      next = collect p.announced (p.bytes ++ data) := by
  cases hplace : r.place limit mark chunk with
  | error e =>
    unfold accept at h
    rw [hplace] at h
    cases h
  | ok placed =>
    obtain ⟨p, data⟩ := placed
    by_cases hroom : (p.bytes ++ data).length ≤ p.announced
    · rw [accept_of_place hplace hroom, Except.ok.injEq] at h
      exact ⟨p, data, rfl, hroom, h.symm⟩
    · unfold accept at h
      simp only [hplace, bind, Except.bind, if_pos (Nat.not_le.mp hroom)] at h
      cases h

theorem step_ok {answer : Option Bytes} (h : (step limit r c).1 = .ok answer) :
    ∃ p data, r.place limit c.mark c.bytes = .ok (p, data) ∧
      (p.bytes ++ data).length ≤ p.announced ∧
      (answer, (step limit r c).2) = collect p.announced (p.bytes ++ data) := by
  cases hnext : r.accept limit c.mark c.bytes with
  | error e =>
    rw [step_of_refused hnext] at h
    cases h
  | ok next =>
    obtain ⟨payload, s⟩ := next
    rw [step_of_accept hnext] at h ⊢
    cases h
    exact accept_eq_ok hnext

theorem step_marks {answer : Option Bytes} (h : (step limit r c).1 = .ok answer) :
    (c.mark = nextMark ∧ r ≠ idle) ∨ c.mark = firstMark ∧ r = idle := by
  obtain ⟨p, data, hplace, -, -⟩ := step_ok h
  rcases place_eq_ok hplace with ⟨hnext, rfl, -⟩ | ⟨hfirst, hidle, -⟩
  · exact .inl ⟨hnext, by simp [idle]⟩
  · exact .inr ⟨hfirst, hidle⟩

theorem after_append (r : Reassembly) (cs cs' : List Chunk) :
    after limit r (cs ++ cs') = after limit (after limit r cs) cs' := List.foldl_append

theorem after_concat (r : Reassembly) (cs : List Chunk) (c : Chunk) :
    after limit r (cs ++ [c]) = (step limit (after limit r cs) c).2 := after_append r cs [c]

theorem accepted_concat (r : Reassembly) (cs : List Chunk) (c : Chunk) :
    accepted limit r (cs ++ [c]) =
      accepted limit r cs ++ if (step limit (after limit r cs) c).1.isOk then [c] else [] := by
  induction cs generalizing r with
  | nil => rfl
  | cons d cs ih =>
    rw [List.cons_append, accepted, accepted, ih]
    split
    · rfl
    · rfl

theorem accepted_ok {answer : Option Bytes}
    (h : (step limit (after limit r cs) c).1 = .ok answer) :
    accepted limit r (cs ++ [c]) = accepted limit r cs ++ [c] := by
  rw [accepted_concat, h]
  rfl

theorem gathered_first (before : List Chunk) {size : Bytes} (hsize : size.length = 2)
    (data : Bytes) : Gathered (before ++ [⟨firstMark, size ++ data⟩]) size.toNat data :=
  ⟨before, size, data, [], rfl, hsize, rfl, by simp, by simp⟩

theorem Gathered.next {announced : Nat} {bytes : Bytes} (h : Gathered cs announced bytes)
    (hnext : c.mark = nextMark) : Gathered (cs ++ [c]) announced (bytes ++ c.bytes) := by
  obtain ⟨before, size, data, more, rfl, hsize, hannounced, hmore, rfl⟩ := h
  refine ⟨before, size, data, more ++ [c], by simp, hsize, hannounced, ?_, by simp⟩
  intro d hd
  rcases List.mem_append.mp hd with hd | hd
  · exact hmore d hd
  · rw [List.mem_singleton.mp hd, hnext]

/-- What is on its way has been brought by the chunks since the last first one, may be as large as
announced, and lacks some bytes. -/
def Tracks (limit : Nat) (cs : List Chunk) (r : Reassembly) : Prop :=
  ∀ p, r.pending = some p → Gathered (accepted limit idle cs) p.announced p.bytes ∧
    p.bytes.length < p.announced ∧ p.announced ≤ limit

/-- A chunk that is accepted adds its bytes to what is on its way, or opens a payload. -/
theorem Tracks.gathered {answer : Option Bytes} (h : Tracks limit cs (after limit idle cs))
    (hok : (step limit (after limit idle cs) c).1 = .ok answer) :
    ∃ announced bytes, Gathered (accepted limit idle (cs ++ [c])) announced bytes ∧
      bytes.length ≤ announced ∧ announced ≤ limit ∧
      (answer, after limit idle (cs ++ [c])) = collect announced bytes := by
  obtain ⟨p, data, hplace, hroom, hcollect⟩ := step_ok hok
  rw [accepted_ok hok, after_concat]
  refine ⟨p.announced, p.bytes ++ data, ?_, hroom, ?_, hcollect⟩ <;>
    rcases place_eq_ok hplace with ⟨hnext, hpending, rfl⟩ | ⟨hfirst, -, hbegin⟩
  · exact (h p (by rw [hpending])).1.next hnext
  · obtain ⟨mark, chunk⟩ := c
    cases hfirst
    obtain ⟨size, hchunk, hsize, rfl, -⟩ := begin_eq_ok hbegin
    cases hchunk
    exact gathered_first _ hsize data
  · exact (h p (by rw [hpending])).2.2
  · obtain ⟨-, -, -, -, hlimit⟩ := begin_eq_ok hbegin
    exact hlimit

/-- Every chunk, accepted or refused, leaves nothing on its way but what was brought. -/
theorem Tracks.step (h : Tracks limit cs (after limit idle cs)) :
    Tracks limit (cs ++ [c]) (after limit idle (cs ++ [c])) := by
  intro p hp
  cases hanswer : (Reassembly.step limit (after limit idle cs) c).1 with
  | error e =>
    rw [after_concat, step_error hanswer] at hp
    cases hp
  | ok answer =>
    obtain ⟨announced, bytes, hgathered, -, hlimit, hcollect⟩ := h.gathered hanswer
    unfold collect at hcollect
    split at hcollect
    · rename_i hmissing
      rw [(Prod.mk.inj hcollect).2] at hp
      cases hp
      exact ⟨hgathered, hmissing, hlimit⟩
    · rw [(Prod.mk.inj hcollect).2] at hp
      cases hp

theorem tracks_after (limit : Nat) (cs : List Chunk) : Tracks limit cs (after limit idle cs) := by
  induction cs using List.reverseRecOn with
  | nil =>
    intro p hp
    cases hp
  | append_singleton cs c ih => exact ih.step

theorem handed_on {payload : Bytes}
    (h : (step limit (after limit idle cs) c).1 = .ok (some payload)) :
    Gathered (accepted limit idle (cs ++ [c])) payload.length payload ∧
      payload.length ≤ limit ∧ after limit idle (cs ++ [c]) = idle := by
  obtain ⟨announced, bytes, hgathered, hroom, hlimit, hcollect⟩ :=
    (tracks_after limit cs).gathered h
  unfold collect at hcollect
  split at hcollect
  · cases hcollect
  · rename_i hwhole
    obtain ⟨hpayload, hafter⟩ := Prod.mk.inj hcollect
    cases hpayload
    obtain rfl : payload.length = announced := Nat.le_antisymm hroom (Nat.not_lt.mp hwhole)
    exact ⟨hgathered, hlimit, hafter⟩

theorem awaited (h : (step limit (after limit idle cs) c).1 = .ok none) :
    ∃ announced bytes, after limit idle (cs ++ [c]) = ⟨some ⟨announced, bytes⟩⟩ ∧
      Gathered (accepted limit idle (cs ++ [c])) announced bytes ∧ bytes.length < announced := by
  obtain ⟨announced, bytes, hgathered, -, -, hcollect⟩ := (tracks_after limit cs).gathered h
  unfold collect at hcollect
  split at hcollect
  · rename_i hmissing
    exact ⟨announced, bytes, (Prod.mk.inj hcollect).2, hgathered, hmissing⟩
  · cases hcollect

/-- As long as bytes are missing the answer is that more are awaited. -/
theorem answers_collect {mark : UInt8} {chunk bytes payload : Bytes} {more : List Bytes}
    (h : r.accept limit mark chunk = .ok (collect payload.length bytes))
    (hjoined : bytes ++ more.flatten = payload)
    (hmissing : ∀ n < more.length, bytes ++ (more.take n).flatten ≠ payload) :
    answers limit r (⟨mark, chunk⟩ :: more.map (⟨nextMark, ·⟩)) =
        List.replicate more.length (.ok none) ++ [.ok (some payload)] ∧
      after limit r (⟨mark, chunk⟩ :: more.map (⟨nextMark, ·⟩)) = idle := by
  induction more generalizing r mark chunk bytes with
  | nil =>
    obtain rfl : bytes = payload := by simpa using hjoined
    rw [collect, if_neg (Nat.lt_irrefl _)] at h
    simp [answers, after, step_of_accept (c := ⟨mark, chunk⟩) h]
  | cons next more ih =>
    have hsome : bytes ≠ payload := by simpa using hmissing 0 (by simp)
    rw [collect, if_pos (Session.length_lt_of_missing hjoined hsome)] at h
    obtain ⟨hjoined', hroom, hmissing'⟩ := Session.cut_next hjoined hmissing
    obtain ⟨hanswers, hafter⟩ := ih (accept_next hroom) hjoined' hmissing'
    have hstep := step_of_accept (c := ⟨mark, chunk⟩) h
    rw [answers, List.map_cons, hstep, hanswers]
    refine ⟨rfl, ?_⟩
    rw [after, List.foldl_cons, hstep]
    exact hafter

end

/-- A payload is handed on just as it was announced and as the accepted chunks since the last first
one have brought it; until then bytes are missing, and after it, as after any objection, nothing is
on its way. A chunk is accepted only where it stands. And any payload that is not too large is
handed on with the last of the chunks that it is cut into, and not before. -/
theorem payloads_exact (limit : Nat) :
    (∀ cs c payload, (step limit (after limit idle cs) c).1 = .ok (some payload) →
      Gathered (accepted limit idle (cs ++ [c])) payload.length payload ∧
        payload.length ≤ limit ∧ after limit idle (cs ++ [c]) = idle) ∧
    (∀ cs c, (step limit (after limit idle cs) c).1 = .ok none → ∃ announced bytes,
      after limit idle (cs ++ [c]) = ⟨some ⟨announced, bytes⟩⟩ ∧
        Gathered (accepted limit idle (cs ++ [c])) announced bytes ∧ bytes.length < announced) ∧
    (∀ r c e, (step limit r c).1 = .error e → (step limit r c).2 = idle) ∧
    (∀ r c answer, (step limit r c).1 = .ok answer →
      (c.mark = nextMark ∧ r ≠ idle) ∨ c.mark = firstMark ∧ r = idle) ∧
    ∀ size payload first more, size.length = 2 → size.toNat = payload.length →
      payload.length ≤ limit → Session.Cut (size ++ payload) first more →
        answers limit idle (marked first more) =
            List.replicate more.length (.ok none) ++ [.ok (some payload)] ∧
          after limit idle (marked first more) = idle := by
  refine ⟨fun _ _ _ => handed_on, fun _ _ => awaited, fun _ _ _ => step_error,
    fun _ _ _ => step_marks, ?_⟩
  intro size payload first more hsize hannounced hlimit hcut
  have htwo : payload.length < 256 ^ 2 := by
    rw [← hannounced, ← hsize]
    exact Bytes.toNat_lt size
  obtain rfl : size = Bytes.ofNat 2 payload.length := by
    apply Bytes.eq_of_toNat_eq
    · rw [hsize, Bytes.length_ofNat]
    · rw [hannounced, Bytes.toNat_ofNat, Nat.mod_eq_of_lt htwo]
  obtain ⟨data, rfl, hjoined, hmissing⟩ := Session.Cut.first hcut
  have hdata : data.length ≤ payload.length := by
    rw [← hjoined, List.length_append]
    exact Nat.le_add_right _ _
  exact answers_collect (accept_first rfl (Nat.le_of_lt_succ htwo) hlimit hdata) hjoined hmissing

/-- Three bytes in pieces, after a payload whose second chunk brings a byte too much. -/
theorem payloads_exact_pieces :
    let spoilt : List Chunk := [⟨firstMark, [0, 2, 1]⟩, ⟨nextMark, [2, 3]⟩]
    let begun : List Chunk := spoilt ++ [⟨firstMark, [0, 3, 1]⟩]
    (step 4 (after 4 idle begun) ⟨nextMark, [2, 3]⟩).1 = .ok (some [1, 2, 3]) ∧
      Gathered (accepted 4 idle (begun ++ [⟨nextMark, [2, 3]⟩])) 3 [1, 2, 3] ∧
      (∃ announced bytes, Gathered (accepted 4 idle (begun ++ [⟨nextMark, [2]⟩])) announced bytes ∧
        bytes.length < announced) ∧
      after 4 idle spoilt = idle ∧ after 4 idle begun ≠ idle ∧
      Session.Cut ([0, 3] ++ [1, 2, 3]) [0, 3, 1] [[], [2, 3]] ∧
      answers 4 idle (marked [0, 3, 1] [[], [2, 3]]) =
        [.ok none, .ok none, .ok (some [1, 2, 3])] := by
  intro spoilt begun
  obtain ⟨hwhole, hpart, herror, hmarks, hcut⟩ := payloads_exact 4
  have hlast : (step 4 (after 4 idle begun) ⟨nextMark, [2, 3]⟩).1 = .ok (some [1, 2, 3]) := rfl
  have hpieces : Session.Cut ([0, 3] ++ [1, 2, 3]) [0, 3, 1] [[], [2, 3]] :=
    ⟨rfl, by decide, by decide⟩
  refine ⟨hlast, (hwhole begun _ _ hlast).1, ?_, ?_, ?_, hpieces, ?_⟩
  · obtain ⟨announced, bytes, -, hgathered, hmissing⟩ := hpart begun ⟨nextMark, [2]⟩ rfl
    exact ⟨announced, bytes, hgathered, hmissing⟩
  · exact herror (after 4 idle [⟨firstMark, [0, 2, 1]⟩]) ⟨nextMark, [2, 3]⟩ .invalidValue rfl
  · rcases hmarks _ _ _ hlast with ⟨-, hpending⟩ | ⟨hfirst, -⟩
    · exact hpending
    · exact absurd hfirst (by decide)
  · exact (hcut [0, 3] [1, 2, 3] [0, 3, 1] _ rfl rfl (by decide) hpieces).1

end ClearSign.Reassembly
