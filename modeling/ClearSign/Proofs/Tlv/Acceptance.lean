import ClearSign.Proofs.Refusal
import ClearSign.Proofs.Tlv.Concatenation
import ClearSign.Tlv.Schema

/-!
What a schema accepts: whole records, each of a known tag, and none of them twice unless its tag
may come again.
-/

namespace ClearSign.Tlv

open Refusal

namespace Schema

variable {σ : Type} {S : Schema σ}

/-- A record that is taken in is one of a rule; the rule made the new state, and the tag is new
unless the rule repeats. -/
structure Accepts (S : Schema σ) (before : σ × Tags) (r : Record) (after : σ × Tags)
    (rule : Rule σ) : Prop where
  mem : rule ∈ S.rules
  tag : rule.tag = r.tag
  fresh : rule.repeats = false → r.tag ∉ before.2.list
  applied : ∃ target, S.common r before.1 = .ok target ∧ rule.apply r target = .ok after.1
  tags : after.2.list = r.tag :: before.2.list

theorem accepts_of_accept {before after : σ × Tags} {r : Record}
    (h : S.accept before r = .ok after) :
    ∃ rule, S.rule? r.tag = some rule ∧ S.Accepts before r after rule := by
  unfold accept at h
  cases hrule : S.rule? r.tag with
  | none => simp [hrule, throw_ne_ok] at h
  | some rule =>
    simp only [hrule] at h
    refine ⟨rule, rfl, ?_⟩
    by_cases hdup : (!rule.repeats && before.2.contains r.tag) = true
    · simp [hdup, bind, Except.bind, throw, throwThe, MonadExceptOf.throw] at h
    · simp only [hdup, Bool.false_eq_true, if_false, bind_eq_ok, pure_eq_ok] at h
      obtain ⟨target, hcommon, made, happly, rfl⟩ := h
      refine ⟨List.mem_of_find?_eq_some hrule, ?_, ?_, ⟨target, hcommon, happly⟩, rfl⟩
      · simpa using List.find?_some hrule
      · intro honce hmem
        simp [honce, Tags.contains, hmem] at hdup

/-- The tags of the rules that do not repeat. -/
def isOnce (S : Schema σ) (tag : UInt8) : Bool := (S.rule? tag).any fun rule => !rule.repeats

/-- What records in a row leave behind: their tags, none of them twice if its rule does not
repeat. -/
structure Taken (S : Schema σ) (rs : List Record) (tags : Tags) : Prop where
  tags : tags.list = (rs.map Record.tag).reverse
  once : ((rs.map Record.tag).filter S.isOnce).Nodup

theorem Taken.nil : S.Taken [] Tags.empty := ⟨rfl, List.nodup_nil⟩

theorem Taken.next {done : List Record} {before after : σ × Tags} {r : Record}
    (h : S.Taken done before.2) (ha : S.accept before r = .ok after) :
    S.Taken (done ++ [r]) after.2 := by
  obtain ⟨rule, hrule, accepts⟩ := accepts_of_accept ha
  constructor
  · rw [accepts.tags, h.tags, List.map_append, List.reverse_append]
    rfl
  · rw [List.map_append, List.filter_append, List.nodup_append]
    have hone : ([r].map Record.tag).Nodup := by simp
    refine ⟨h.once, hone.filter _, ?_⟩
    intro t hdone t' hnew heq
    subst heq
    rw [List.mem_filter] at hdone hnew
    obtain ⟨hmem, honce⟩ := hdone
    obtain rfl : t = r.tag := by simpa using hnew.1
    have hfresh := accepts.fresh (by simpa [isOnce, hrule] using honce)
    rw [h.tags, List.mem_reverse] at hfresh
    exact hfresh hmem

/-- Bytes that are parsed are whole records, taken in one after the other. -/
theorem records_of_parse {initial : σ} {bs : Bytes} {result : σ × Tags}
    (h : S.parse initial bs = .ok result) :
    bs = (records bs).1.flatMap Record.raw ∧
      (records bs).1.foldlM S.accept (initial, Tags.empty) = .ok result := by
  unfold parse at h
  rw [bind_eq_ok] at h
  obtain ⟨taken, htaken, hend⟩ := h
  by_cases hleft : (records bs).2.isEmpty = true
  · rw [if_pos hleft, pure_eq_ok] at hend
    subst hend
    have hall := (records_spec bs).2
    rw [List.isEmpty_iff.mp hleft, List.append_nil] at hall
    exact ⟨hall.symm, htaken⟩
  · rw [if_neg hleft] at hend
    exact absurd hend throw_ne_ok

end Schema

theorem Tags.mem_of_require {s : Tags} {tags : List UInt8} (h : s.require tags = .ok ()) :
    ∀ t ∈ tags, t ∈ s.list := by
  unfold require containsAll contains at h
  split at h
  · rename_i hall
    intro t ht
    simpa using List.all_eq_true.mp hall t ht
  · cases h

end ClearSign.Tlv
