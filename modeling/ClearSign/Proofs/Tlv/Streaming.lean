import ClearSign.Proofs.Tlv.Grammar
import ClearSign.Proofs.Tlv.Guard
import Mathlib.Data.Nat.Bitwise

/-!
A structure that is parsed while its bytes stream in. A record is looked at when it is met: the
tags that were met are bits of four words, and the handlers are called one after the other, with a
note of each call. Main statement: parsing is a guarded fold over the records, it stops at the
first point that offends, and nothing from there on is handled.
-/

namespace ClearSign.Tlv

open Refusal Spelling ClearSign.Action

/-- A set of tags in four words, with a bit for each tag. -/
structure TagBits where
  words : Vector UInt64 4
  deriving DecidableEq

namespace TagBits

def none : TagBits := ⟨Vector.replicate 4 0⟩

/-- The word that the bit of a tag is in. -/
def word (tag : UInt8) : Fin 4 :=
  ⟨(tag >>> 6).toNat, by
    have htag := tag.toNat_lt
    rw [UInt8.toNat_shiftRight, Nat.shiftRight_eq_div_pow]
    exact Nat.div_lt_of_lt_mul htag⟩

def bit (tag : UInt8) : UInt64 := 1 <<< (tag &&& 0x3f).toUInt64

def insert (s : TagBits) (tag : UInt8) : TagBits :=
  ⟨s.words.set (word tag) (s.words[word tag] ||| bit tag)⟩

def contains (s : TagBits) (tag : UInt8) : Bool := s.words[word tag] &&& bit tag != 0

theorem val_word (tag : UInt8) : (word tag).val = tag.toNat / 64 := by
  show (tag >>> 6).toNat = _
  rw [UInt8.toNat_shiftRight, Nat.shiftRight_eq_div_pow]
  rfl

theorem toNat_bit (tag : UInt8) : (bit tag).toNat = 2 ^ (tag.toNat % 64) := by
  have hplace : (tag &&& 0x3f).toUInt64.toNat = tag.toNat % 64 := by
    rw [UInt8.toNat_toUInt64, UInt8.toNat_and]
    exact Nat.and_two_pow_sub_one_eq_mod tag.toNat 6
  have hlt : tag.toNat % 64 < 64 := Nat.mod_lt _ (by decide)
  unfold bit
  rw [UInt64.toNat_shiftLeft, hplace, Nat.mod_eq_of_lt hlt, Nat.shiftLeft_eq]
  show 1 * _ % _ = _
  rw [Nat.one_mul, Nat.mod_eq_of_lt (Nat.pow_lt_pow_right (by decide) hlt)]

theorem contains_eq (s : TagBits) (tag : UInt8) :
    s.contains tag = s.words[word tag].toNat.testBit (tag.toNat % 64) := by
  unfold contains
  rw [Bool.eq_iff_iff, bne_iff_ne, ne_eq, ← UInt64.toNat_inj, UInt64.toNat_and, toNat_bit,
    Nat.and_comm, Nat.two_pow_and]
  cases s.words[word tag].toNat.testBit (tag.toNat % 64) <;> simp

theorem contains_none (tag : UInt8) : none.contains tag = false := by
  rw [contains_eq]
  simp [none]

/-- No tag shares its bit with another. -/
theorem contains_insert (s : TagBits) (a b : UInt8) :
    (s.insert a).contains b = (a == b || s.contains b) := by
  rw [contains_eq, contains_eq]
  by_cases hword : word a = word b
  · have hget : (s.insert a).words[word b] = s.words[word b] ||| bit a := by
      simp [insert, hword]
    -- within one word the tags differ in the place of their bits
    rw [hget, UInt64.toNat_or, toNat_bit, Nat.testBit_or, Nat.testBit_two_pow, Bool.or_comm]
    congr 1
    rw [Bool.eq_iff_iff, beq_iff_eq, decide_eq_true_iff, ← UInt8.toNat_inj]
    have hsame := congrArg Fin.val hword
    rw [val_word, val_word] at hsame
    omega
  · have hget : (s.insert a).words[word b] = s.words[word b] := by
      have hval : (word a).val ≠ (word b).val := fun h => hword (Fin.ext h)
      simp [insert, hval]
    have hne : a ≠ b := fun h => hword (congrArg word h)
    rw [hget, beq_eq_false_iff_ne.mpr hne, Bool.false_or]

/-- The tags of records. -/
def ofRecords (rs : List Record) : TagBits := rs.foldl (fun s r => s.insert r.tag) none

theorem ofRecords_concat (rs : List Record) (r : Record) :
    ofRecords (rs ++ [r]) = (ofRecords rs).insert r.tag := by
  unfold ofRecords
  rw [List.foldl_append]
  rfl

theorem contains_ofRecords {rs : List Record} {tag : UInt8} :
    (ofRecords rs).contains tag = true ↔ ∃ r ∈ rs, r.tag = tag := by
  induction rs using List.reverseRecOn with
  | nil => simp [ofRecords, contains_none]
  | append_singleton rs r ih =>
    rw [ofRecords_concat, contains_insert, Bool.or_eq_true, ih, beq_iff_eq]
    simp only [List.mem_append, List.mem_singleton]
    constructor
    · rintro (htag | ⟨q, hq, htag⟩)
      · exact ⟨r, .inr rfl, htag⟩
      · exact ⟨q, .inl hq, htag⟩
    · rintro ⟨q, hq | rfl, htag⟩
      · exact .inr ⟨q, hq, htag⟩
      · exact .inl htag

end TagBits

theorem Tags.contains_ofRecords {rs : List Record} {tag : UInt8} :
    (ofRecords rs).contains tag = true ↔ ∃ r ∈ rs, r.tag = tag := by
  simp [contains, ofRecords]

section

variable {σ : Type}

/-- Hands a record over as soon as it is read, and reads on behind it. -/
def stream (handler : Record → Action σ Unit) (bs : Bytes) : Action σ Unit :=
  match _h : Record.read? bs with
  | some (r, rest) => do
    handler r
    stream handler rest
  | none => if bs.isEmpty then pure () else throw .malformedTlv
termination_by bs.length
decreasing_by exact Record.length_rest (by assumption)

theorem exec_forM_concat (f : Record → Action σ Unit) (rs : List Record) (r : Record) (s : σ) :
    ((rs ++ [r]).forM f).exec s = (rs.forM f >>= fun _ => f r).exec s := by
  induction rs generalizing s with
  | nil =>
    show (f r >>= fun _ => pure ()).exec s = (pure () >>= fun _ => f r).exec s
    rw [exec_bind, exec_bind]
    rcases hr : (f r).exec s with ⟨e | ⟨⟩, s'⟩ <;> simp [hr]
  | cons q rs ih =>
    show (f q >>= fun _ => (rs ++ [r]).forM f).exec s =
      ((f q >>= fun _ => rs.forM f) >>= fun _ => f r).exec s
    rw [exec_bind, exec_bind, exec_bind]
    rcases (f q).exec s with ⟨e | ⟨⟩, s'⟩
    · rfl
    · exact (ih s').trans (exec_bind ..)

/-- Records that stream in are those that are handed over. -/
theorem exec_stream (handler : Record → Action σ Unit) (bs : Bytes) (s : σ) :
    (stream handler bs).exec s = (handOver handler bs).exec s := by
  fun_induction records bs generalizing s with
  | case1 bs r rest hread rs left hrest ih =>
    have hhanded : (handOver handler bs).exec s =
        (handler r >>= fun _ => handOver handler rest).exec s := by
      unfold handOver
      rw [records_of_read? hread]
      show ((handler r >>= fun _ => (records rest).1.forM handler) >>= _).exec s = _
      rw [exec_bind, exec_bind, exec_bind]
      rcases (handler r).exec s with ⟨e | ⟨⟩, s'⟩
      · rfl
      · exact (exec_bind ..).symm
    rw [hhanded, stream]
    split
    · rename_i r' rest' hread'
      rw [hread, Option.some.injEq, Prod.mk.injEq] at hread'
      obtain ⟨rfl, rfl⟩ := hread'
      rw [exec_bind, exec_bind]
      rcases (handler r).exec s with ⟨e | ⟨⟩, s'⟩
      · rfl
      · exact ih s'
    · rename_i hread'
      rw [hread] at hread'
      cases hread'
  | case2 bs hread =>
    rw [stream]
    unfold handOver
    rw [records_of_read?_eq_none hread]
    split
    · rename_i hread'
      rw [hread] at hread'
      cases hread'
    · rfl

/-- A structure while it streams in: what was made of it so far, the tags met, and the calls of
handlers. -/
structure Intake (σ : Type) where
  target : σ
  met : TagBits
  calls : List Handling

namespace Intake

def start (initial : σ) : Intake σ := ⟨initial, TagBits.none, []⟩

/-- Calls a handler. The call is noted down before the handler may object. -/
def call (h : Handling) (handler : σ → Except Error σ) : Action (Intake σ) Unit := do
  modify fun i => { i with calls := i.calls ++ [h] }
  .update fun i => do return { i with target := ← handler i.target }

theorem exec_call (h : Handling) (handler : σ → Except Error σ) (i : Intake σ) :
    (call h handler).exec i =
      match handler i.target with
      | .ok made => (.ok (), { i with target := made, calls := i.calls ++ [h] })
      | .error e => (.error e, { i with calls := i.calls ++ [h] }) := by
  unfold call
  rw [exec_modify_bind, exec_update]
  cases handler i.target <;> simp [bind, Except.bind, pure, Except.pure]

end Intake

namespace Schema

open Intake

/-- Takes one record in as it is met. -/
def visit (S : Schema σ) (r : Record) : Action (Intake σ) Unit := do
  match S.rule? r.tag with
  | none => throw .unknownTag
  | some rule =>
    if !rule.repeats && (← get).met.contains r.tag then throw .duplicateTag
    call (.common r) (S.common r)
    call (.rule r) (rule.apply r)
    modify fun i => { i with met := i.met.insert r.tag }

variable {S : Schema σ} {done : List Record} {target : σ} {r : Record} {calls : List Handling}

/-- No record that is let through finds its bit set, if it must not. -/
theorem Admits.unmet (h : S.Admits done r) {rule : Rule σ} (hrule : S.rule? r.tag = some rule) :
    ¬ (rule.repeats = false ∧ (TagBits.ofRecords done).contains r.tag = true) := by
  have hsame : (TagBits.ofRecords done).contains r.tag = (Tags.ofRecords done).contains r.tag := by
    rw [Bool.eq_iff_iff, TagBits.contains_ofRecords, Tags.contains_ofRecords]
  have hfresh := h.fresh hrule
  rw [← hsame] at hfresh
  rintro ⟨hrepeats, hmet⟩
  simp [hrepeats, hmet] at hfresh

theorem exec_visit_admitted {made : σ} (hadmits : S.Admits done r)
    (hmade : S.handle target r = .ok made) :
    (S.visit r).exec ⟨target, .ofRecords done, calls⟩ =
      (.ok (), ⟨made, .ofRecords (done ++ [r]), calls ++ Handling.both r⟩) := by
  obtain ⟨rule, hrule, -⟩ := id hadmits
  have hunmet := hadmits.unmet hrule
  unfold handle at hmade
  obtain ⟨mid, hcommon, happly⟩ := bind_eq_ok.mp hmade
  simp only [hrule] at happly
  simp [visit, hrule, exec_bind, exec_call, hunmet, hcommon, happly,
    TagBits.ofRecords_concat, Handling.both]

theorem exec_visit_objects {seen : List Handling} {e : Error}
    (h : S.Objects done target r seen e) : ∃ left,
    (S.visit r).exec ⟨target, .ofRecords done, calls⟩ =
      (.error e, ⟨left, .ofRecords done, calls ++ seen⟩) := by
  cases h with
  | unknown hrule => exact ⟨target, by simp [visit, hrule]⟩
  | @duplicate rule hrule hrepeats hmem =>
    obtain ⟨q, hq, htag⟩ := List.mem_map.mp hmem
    have hold : (TagBits.ofRecords done).contains r.tag = true :=
      TagBits.contains_ofRecords.mpr ⟨q, hq, htag⟩
    exact ⟨target, by simp [visit, hrule, hrepeats, exec_bind, hold]⟩
  | common hadmits hcommon =>
    obtain ⟨rule, hrule, -⟩ := id hadmits
    have hunmet := hadmits.unmet hrule
    exact ⟨target, by simp [visit, hrule, exec_bind, exec_call, hunmet, hcommon]⟩
  | @rule rule mid e hadmits hcommon hrule happly =>
    have hunmet := hadmits.unmet hrule
    exact ⟨mid, by simp [visit, hrule, exec_bind, exec_call, hunmet, hcommon,
      happly, Handling.both]⟩

/-- Records that are let through are all handled as they are met. -/
theorem exec_forM_visit {initial : σ} {rs : List Record} (hguarded : S.Guarded rs)
    (hfold : rs.foldlM S.handle initial = .ok target) :
    (rs.forM S.visit).exec (start initial) =
      (.ok (), ⟨target, .ofRecords rs, rs.flatMap Handling.both⟩) := by
  induction rs using List.reverseRecOn generalizing target with
  | nil =>
    cases hfold
    rfl
  | append_singleton rs r ih =>
    obtain ⟨hbefore, hadmits⟩ := guarded_concat.mp hguarded
    rw [List.foldlM_append] at hfold
    obtain ⟨mid, hmid, hlast⟩ := bind_eq_ok.mp hfold
    obtain ⟨made, hmade, hpure⟩ := bind_eq_ok.mp hlast
    cases hpure
    rw [exec_forM_concat, exec_bind, ih hbefore hmid, List.flatMap_append, List.flatMap_singleton]
    exact exec_visit_admitted hadmits hmade

/-- Nothing is handled from the first record on that is objected to. -/
theorem exec_forM_visit_stopped {initial : σ} {more : List Record} {seen : List Handling}
    {e : Error} (hguarded : S.Guarded done) (hfold : done.foldlM S.handle initial = .ok target)
    (h : S.Objects done target r seen e) : ∃ left,
    ((done ++ r :: more).forM S.visit).exec (start initial) =
      (.error e, ⟨left, .ofRecords done, done.flatMap Handling.both ++ seen⟩) := by
  obtain ⟨left, hleft⟩ : ∃ left,
      (S.visit r).exec ⟨target, .ofRecords done, done.flatMap Handling.both⟩ =
        (.error e, ⟨left, .ofRecords done, done.flatMap Handling.both ++ seen⟩) :=
    exec_visit_objects h
  have hfirst : ((done ++ [r]).forM S.visit).exec (start initial) =
      (.error e, ⟨left, .ofRecords done, done.flatMap Handling.both ++ seen⟩) := by
    rw [exec_forM_concat, exec_bind, exec_forM_visit hguarded hfold]
    exact hleft
  refine ⟨left, ?_⟩
  rw [show done ++ r :: more = (done ++ [r]) ++ more by simp]
  -- the run has ended, and the records behind are never met
  induction more using List.reverseRecOn with
  | nil => rw [List.append_nil, hfirst]
  | append_singleton more q ih => rw [← List.append_assoc, exec_forM_concat, exec_bind, ih]

/-- Bytes that spell records of which each is let through, and what they are folded into. -/
structure Parses (S : Schema σ) (initial : σ) (bs : Bytes) (rs : List Record) (target : σ) :
    Prop where
  spelled : ∃ ps, Split bs ps rs
  guarded : S.Guarded rs
  folded : rs.foldlM S.handle initial = .ok target

/-- Where bytes first offend, which handlers were called until then, and what the offence is.
Either no record is spelled behind a front that is in order, or the one that is is objected to. -/
inductive Stops (S : Schema σ) (initial : σ) : Bytes → List Handling → Error → Prop
  | malformed {front rest : Bytes} {rs : List Record} {target : σ} :
    S.Parses initial front rs target → rest ≠ [] →
    (∀ (p : Spelling) (r : Record), p.Spells r → ¬ p.bytes <+: rest) →
    Stops S initial (front ++ rest) (rs.flatMap Handling.both) .malformedTlv
  | record {front more : Bytes} {done : List Record} {target : σ} {p : Spelling} {r : Record}
    {seen : List Handling} {e : Error} :
    S.Parses initial front done target → p.Spells r → S.Objects done target r seen e →
    Stops S initial (front ++ (p.bytes ++ more)) (done.flatMap Handling.both ++ seen) e

/-- What bytes come to, read off their records: the parse, and the run of the stream. -/
theorem Parses.outcome {initial : σ} {bs : Bytes} {rs : List Record}
    (h : S.Parses initial bs rs target) :
    S.parse initial bs = .ok (target, .ofRecords rs) ∧
      (stream S.visit bs).exec (start initial) =
        (.ok (), ⟨target, .ofRecords rs, rs.flatMap Handling.both⟩) := by
  obtain ⟨ps, hps⟩ := h.spelled
  have hrecords := hps.records_eq
  constructor
  · rw [parse_eq_ok, hrecords]
    exact ⟨rfl, h.guarded, h.folded, rfl⟩
  · rw [exec_stream]
    unfold handOver
    rw [hrecords, exec_bind, exec_forM_visit h.guarded h.folded]
    rfl

theorem Stops.outcome {initial : σ} {bs : Bytes} {e : Error} (h : S.Stops initial bs calls e) :
    S.parse initial bs = .error e ∧ ∃ left met,
      (stream S.visit bs).exec (start initial) = (.error e, ⟨left, met, calls⟩) := by
  rw [exec_stream]
  unfold parse handOver
  cases h with
  | @malformed front rest rs target hfront hrest hnone =>
    obtain ⟨ps, hps⟩ := hfront.spelled
    have hread : Record.read? rest = none := by
      rw [Option.eq_none_iff_forall_ne_some]
      rintro ⟨r, more⟩ hread
      obtain ⟨p, hp⟩ := exists_spelling hread
      exact hnone p r hp ⟨more, by rw [hp.bytes_eq, ← Record.raw_append hread]⟩
    have hleft : rest.isEmpty = false := by simpa using hrest
    rw [hps.records_append, records_of_read?_eq_none hread, List.append_nil]
    constructor
    · simp only [foldlM_accept hfront.guarded hfront.folded, hleft]
      rfl
    · refine ⟨target, .ofRecords rs, ?_⟩
      rw [exec_bind, exec_forM_visit hfront.guarded hfront.folded]
      simp [hleft]
  | @record front more done target p r seen e hfront hp hobjects =>
    obtain ⟨ps, hps⟩ := hfront.spelled
    have hnext := records_of_read? (hp.isWhole more)
    rw [hps.records_append, hp.bytes_eq, hnext]
    constructor
    · simp only [foldlM_accept_stopped hfront.guarded hfront.folded hobjects]
      rfl
    · obtain ⟨left, hleft⟩ : ∃ left, ((done ++ r :: (records more).1).forM S.visit).exec
          (start initial) = (.error e, ⟨left, .ofRecords done, _⟩) :=
        exec_forM_visit_stopped hfront.guarded hfront.folded hobjects
      exact ⟨left, .ofRecords done, by rw [exec_bind, hleft]⟩

/-- Bytes are in order, or there is a first point at which they offend. -/
theorem parses_or_stops (S : Schema σ) (initial : σ) (bs : Bytes) :
    (∃ rs target, S.Parses initial bs rs target) ∨ ∃ calls e, S.Stops initial bs calls e := by
  obtain ⟨hwhole, hall⟩ := records_spec bs
  rcases S.taken_or_stopped initial (records bs).1 with ⟨hguarded, target, hfold⟩ |
    ⟨done, r, more, target, seen, e, hcut, hguarded, hfold, hobjects⟩
  · have hfront : S.Parses initial ((records bs).1.flatMap Record.raw) (records bs).1 target :=
      ⟨exists_split_of_whole hwhole, hguarded, hfold⟩
    by_cases hleft : (records bs).2 = []
    · rw [hleft, List.append_nil] at hall
      rw [hall] at hfront
      exact .inl ⟨_, target, hfront⟩
    · have hnone (p : Spelling) (r : Record) : p.Spells r → ¬ p.bytes <+: (records bs).2 := by
        rintro hp ⟨more, hmore⟩
        have hread := hp.isWhole more
        rw [← hp.bytes_eq, hmore, read?_left] at hread
        cases hread
      have hstops := Stops.malformed hfront hleft hnone
      rw [hall] at hstops
      exact .inr ⟨_, _, hstops⟩
  · rw [hcut] at hwhole hall
    have hfront : S.Parses initial (done.flatMap Record.raw) done target :=
      ⟨exists_split_of_whole fun q hq => hwhole q (List.mem_append_left _ hq), hguarded, hfold⟩
    obtain ⟨p, hp⟩ := exists_spelling (hwhole r (by simp) [])
    rw [List.flatMap_append, List.flatMap_cons, List.append_assoc, List.append_assoc,
      ← hp.bytes_eq] at hall
    rw [← hall]
    exact .inr ⟨_, e, .record hfront hp hobjects⟩

/-- Bytes are parsed just if they spell records of known tags, no two of one tag that must not come
again, and the handlers take each record in turn; what is made of them is the fold of the handlers,
and the tags that are handed back are those of the records. Otherwise the error is that of the
first point that offends. While the bytes stream in, the same is found out with the tags in a bit
set, and the handlers that are called are those of the records in front of that point. -/
theorem parsed_as_guarded_fold (S : Schema σ) (initial : σ) (bs : Bytes) :
    let run := (stream S.visit bs).exec (start initial)
    (S.parse initial bs).map Prod.fst = run.1.map (fun _ => run.2.target) ∧
    (∀ target, (∃ tags, S.parse initial bs = .ok (target, tags)) ↔
      ∃ rs, S.Parses initial bs rs target) ∧
    (∀ target tags, S.parse initial bs = .ok (target, tags) → ∀ rs, S.Parses initial bs rs target →
      run.2.calls = rs.flatMap Handling.both ∧ ∀ tag,
        (tags.contains tag = true ↔ ∃ r ∈ rs, r.tag = tag) ∧
        (run.2.met.contains tag = true ↔ ∃ r ∈ rs, r.tag = tag)) ∧
    (∀ e, S.parse initial bs = .error e ↔ ∃ calls, S.Stops initial bs calls e) ∧
    ∀ calls e, S.Stops initial bs calls e → run.2.calls = calls := by
  intro run
  have hcases := S.parses_or_stops initial bs
  refine ⟨?_, fun target => ⟨?_, ?_⟩, ?_, fun e => ⟨?_, ?_⟩, ?_⟩
  · rcases hcases with ⟨rs, target, hparses⟩ | ⟨calls, e, hstops⟩
    · obtain ⟨hparse, hrun⟩ := hparses.outcome
      rw [hparse, show run = _ from hrun]
      rfl
    · obtain ⟨hparse, left, met, hrun⟩ := hstops.outcome
      rw [hparse, show run = _ from hrun]
      rfl
  · rintro ⟨tags, hmade⟩
    rcases hcases with ⟨rs, target', hparses⟩ | ⟨calls, e, hstops⟩
    · rw [hparses.outcome.1] at hmade
      cases hmade
      exact ⟨rs, hparses⟩
    · rw [hstops.outcome.1] at hmade
      cases hmade
  · rintro ⟨rs, hparses⟩
    exact ⟨_, hparses.outcome.1⟩
  · intro target tags hmade rs hparses
    obtain ⟨hparse, hrun⟩ := hparses.outcome
    rw [hparse] at hmade
    cases hmade
    rw [show run = _ from hrun]
    exact ⟨rfl, fun tag => ⟨Tags.contains_ofRecords, TagBits.contains_ofRecords⟩⟩
  · intro herror
    rcases hcases with ⟨rs, target, hparses⟩ | ⟨calls, e', hstops⟩
    · rw [hparses.outcome.1] at herror
      cases herror
    · rw [hstops.outcome.1] at herror
      cases herror
      exact ⟨calls, hstops⟩
  · rintro ⟨calls, hstops⟩
    exact hstops.outcome.1
  · intro calls e hstops
    obtain ⟨-, left, met, hrun⟩ := hstops.outcome
    rw [show run = _ from hrun]

end Schema

end

end ClearSign.Tlv
