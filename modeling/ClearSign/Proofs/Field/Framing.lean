import ClearSign.Field.Basic
import ClearSign.Proofs.Tlv.Acceptance

/-!
What the fields of a call are pinned to when only their concatenation is. The records that every
field has keep their place; a rule of visibility may stand at the end of one field or at the start
of the next one, and its constraints go with it.
-/

namespace ClearSign.Field

open Tlv Refusal

/-- The version, the name, and the kind and the parameter: each field has each of them once. -/
def coreTags : List UInt8 := [0, 1, 2, 3]

def isCore (r : Record) : Bool := coreTags.contains r.tag

/-- The records of a payload that every field has, in order. -/
def core (payload : Bytes) : List Record := (records payload).1.filter isCore

/-- A visibility with its constraints behind it, or nothing. -/
def IsGate : List Record → Prop
  | [] => True
  | r :: rs => r.tag = 4 ∧ ∀ c ∈ rs, c.tag = 5

/-- The records of a field. -/
structure Framed (rs : List Record) : Prop where
  core : (rs.filter isCore).length = 4
  once : ((rs.map Record.tag).filter (· ≠ 5)).Nodup
  known : ∀ r ∈ rs, r.tag ≤ 5
  opening : ∀ r, rs.head? = some r → r.tag ≠ 5

/-- What a draft and the tags met so far say about the records behind them. -/
structure Drafted (done : List Record) (state : Draft × Tags) : Prop where
  taken : schema.Taken done state.2
  known : ∀ r ∈ done, r.tag ≤ 5
  name : state.1.name.isSome → 1 ∈ state.2.list
  kind : state.1.kind.isSome → 2 ∈ state.2.list
  param : state.1.param.isSome → 2 ∈ state.2.list ∧ 3 ∈ state.2.list
  visibility : state.1.visibility.isSome → done ≠ []
  opening : ∀ r, done.head? = some r → r.tag ≠ 5

theorem tag_le_five {t : UInt8} (h : t ≤ 5) :
    t = 0 ∨ t = 1 ∨ t = 2 ∨ t = 3 ∨ t = 4 ∨ t = 5 := by
  rw [UInt8.le_iff_toNat_le] at h
  simp only [← UInt8.toNat_inj, UInt8.toNat_ofNat] at h ⊢
  omega

theorem isOnce_eq {t : UInt8} (h : t ≤ 5) : schema.isOnce t = decide (t ≠ 5) := by
  rcases tag_le_five h with rfl | rfl | rfl | rfl | rfl | rfl <;> rfl

theorem Drafted.nil : Drafted [] (⟨0, none, none, none, none, []⟩, Tags.empty) := by
  constructor
  · exact Schema.Taken.nil
  all_goals simp

/-- A record gives a draft one part, under the tag of that part. -/
theorem draft_of_accept {before after : Draft × Tags} {r : Record}
    (ha : schema.accept before r = .ok after) :
    (r.tag = 0 ∧ ∃ v, after.1 = { before.1 with version := v }) ∨
    (r.tag = 1 ∧ ∃ n, after.1 = { before.1 with name := some n }) ∨
    (r.tag = 2 ∧ ∃ k, after.1 = { before.1 with kind := some k }) ∨
    (r.tag = 3 ∧ before.1.kind.isSome ∧ ∃ p, after.1 = { before.1 with param := some p }) ∨
    (r.tag = 4 ∧ ∃ v, after.1 = { before.1 with visibility := some v }) ∨
    (r.tag = 5 ∧ before.1.visibility.isSome ∧
      ∃ cs, after.1 = { before.1 with constraints := cs }) := by
  obtain ⟨rule, -, hmem, htag, -, ⟨target, hcommon, happly⟩, -⟩ := Schema.accepts_of_accept ha
  obtain rfl : before.1 = target := by simpa [schema, Schema.ofRules] using hcommon
  simp only [schema, Schema.ofRules, List.mem_cons, List.not_mem_nil, or_false] at hmem
  rw [← htag]
  rcases hmem with rfl | rfl | rfl | rfl | rfl | rfl
  · simp only [Rule.once, bind_eq_ok, pure_eq_ok] at happly
    obtain ⟨v, -, hv⟩ := happly
    exact .inl ⟨rfl, v, hv.symm⟩
  · simp only [Rule.once, Except.ok.injEq] at happly
    exact .inr (.inl ⟨rfl, _, happly.symm⟩)
  · simp only [Rule.once, bind_eq_ok, pure_eq_ok] at happly
    obtain ⟨_, -, k, -, hk⟩ := happly
    exact .inr (.inr (.inl ⟨rfl, k, hk.symm⟩))
  · simp only [Rule.once, Draft.withParam] at happly
    split at happly
    · cases happly
    · rename_i kind hkind
      simp only [bind_eq_ok, pure_eq_ok] at happly
      obtain ⟨p, -, hp⟩ := happly
      exact .inr (.inr (.inr (.inl ⟨rfl, by simp [hkind], p, hp.symm⟩)))
  · simp only [Rule.once, bind_eq_ok, pure_eq_ok] at happly
    obtain ⟨_, -, v, -, hv⟩ := happly
    exact .inr (.inr (.inr (.inr (.inl ⟨rfl, v, hv.symm⟩))))
  · simp only [Rule.many, Draft.withConstraint] at happly
    split at happly
    · rename_i hvis
      split at happly
      · have hsome : before.1.visibility.isSome = true := by
          rcases hvis with hvis | hvis <;> simp [hvis]
        exact .inr (.inr (.inr (.inr (.inr ⟨rfl, hsome, _, (Except.ok.inj happly).symm⟩))))
      · cases happly
    · cases happly

theorem Drafted.next {done : List Record} {before after : Draft × Tags} {r : Record}
    (h : Drafted done before) (ha : schema.accept before r = .ok after) :
    Drafted (done ++ [r]) after := by
  obtain ⟨rule, -, accepts⟩ := Schema.accepts_of_accept ha
  have htags := accepts.tags
  have hcases := draft_of_accept ha
  constructor
  · exact h.taken.next ha
  · intro r' hr'
    rcases List.mem_append.mp hr' with hr' | hr'
    · exact h.known r' hr'
    · obtain rfl : r' = r := by simpa using hr'
      rcases hcases with h | h | h | h | h | h <;> rw [h.1] <;> decide
  · have := h.name
    grind
  · have := h.kind
    grind
  · have := h.param
    have := h.kind
    grind
  · simp
  · intro r' hhead
    cases done with
    | cons d done => exact h.opening r' (by simpa using hhead)
    | nil =>
      have := h.visibility
      obtain rfl : r = r' := by simpa using hhead
      rcases hcases with h | h | h | h | h | h <;> simp_all

theorem complete_of_parse {payload : Bytes} {field : Field} (h : parse payload = .ok field) :
    ∃ d tags, schema.parse ⟨0, none, none, none, none, []⟩ payload = .ok (d, tags) ∧
      0 ∈ tags.list ∧ d.name.isSome ∧ d.param.isSome := by
  unfold parse at h
  rw [bind_eq_ok] at h
  obtain ⟨⟨d, tags⟩, hparse, h⟩ := h
  rw [bind_eq_ok] at h
  obtain ⟨⟨⟩, hrequire, h⟩ := h
  refine ⟨d, tags, hparse, Tags.mem_of_require hrequire 0 (by simp), ?_⟩
  by_cases hversion : d.version ≠ 1
  · simp only [if_pos hversion, bind_eq_ok, throw_ne_ok, false_and, exists_false] at h
  · simp only [if_neg hversion] at h
    split at h
    · rename_i hname hparam
      simp [hname, hparam]
    · exact absurd h throw_ne_ok

/-- A payload that makes a field is the records of one. -/
theorem framed_of_parse {payload : Bytes} {field : Field} (h : parse payload = .ok field) :
    payload = (records payload).1.flatMap Record.raw ∧ Framed (records payload).1 := by
  obtain ⟨d, tags, hparse, hversion, hname, hparam⟩ := complete_of_parse h
  obtain ⟨hraw, hfold⟩ := Schema.records_of_parse hparse
  have hdrafted := foldlM_keeps (I := Drafted) (fun _ _ _ _ hd ha => hd.next ha) _
    Drafted.nil hfold
  have hcore : ∀ t ∈ coreTags, t ∈ (records payload).1.map Record.tag := by
    have hname := hdrafted.name hname
    have hparam := hdrafted.param hparam
    rw [hdrafted.taken.tags] at hversion hname hparam
    simp only [List.mem_reverse] at hversion hname hparam
    intro t ht
    simp only [coreTags, List.mem_cons, List.not_mem_nil, or_false] at ht
    rcases ht with rfl | rfl | rfl | rfl
    · exact hversion
    · exact hname
    · exact hparam.1
    · exact hparam.2
  have honce : (((records payload).1.map Record.tag).filter (· ≠ 5)).Nodup := by
    have hknown : ∀ t ∈ (records payload).1.map Record.tag, schema.isOnce t = decide (t ≠ 5) := by
      intro t ht
      obtain ⟨r, hr, rfl⟩ := List.mem_map.mp ht
      exact isOnce_eq (hdrafted.known r hr)
    rw [← List.filter_congr hknown]
    exact hdrafted.taken.once
  refine ⟨hraw, ?_, honce, hdrafted.known, hdrafted.opening⟩
  have hnodup : (((records payload).1.map Record.tag).filter coreTags.contains).Nodup := by
    have hrest : ∀ t ∈ (records payload).1.map Record.tag,
        (coreTags.contains t && decide (t ≠ 5)) = coreTags.contains t := by
      intro t _
      by_cases ht : t = 5
      · subst ht
        rfl
      · simp [ht]
    rw [← List.filter_congr hrest, ← List.filter_filter]
    exact honce.filter coreTags.contains
  have hperm : (((records payload).1.map Record.tag).filter coreTags.contains).Perm coreTags := by
    rw [List.perm_ext_iff_of_nodup hnodup (by decide)]
    intro t
    rw [List.mem_filter, List.contains_iff_mem]
    constructor
    · rintro ⟨-, ht⟩
      exact ht
    · intro ht
      exact ⟨hcore t ht, ht⟩
  have hlength := hperm.length_eq
  rw [List.filter_map, List.length_map] at hlength
  exact hlength

/-- Fields end with what the next one starts with, at most: a gate. -/
theorem isGate_of_prefix {rs gate more : List Record} (h : Framed rs) (hrs : rs = gate ++ more)
    (hgate : gate.filter isCore = []) : IsGate gate := by
  subst hrs
  cases gate with
  | nil => trivial
  | cons r gate =>
    have tag_of : ∀ c ∈ r :: gate, c.tag = 4 ∨ c.tag = 5 := by
      intro c hc
      have hknown := h.known c (List.mem_append_left _ hc)
      have hcore : ¬ isCore c = true := List.filter_eq_nil_iff.mp hgate c hc
      rcases tag_le_five hknown with ht | ht | ht | ht | ht | ht
      · simp [isCore, coreTags, ht] at hcore
      · simp [isCore, coreTags, ht] at hcore
      · simp [isCore, coreTags, ht] at hcore
      · simp [isCore, coreTags, ht] at hcore
      · exact .inl ht
      · exact .inr ht
    have hfirst : r.tag = 4 :=
      (tag_of r List.mem_cons_self).resolve_right (h.opening r rfl)
    refine ⟨hfirst, ?_⟩
    intro c hc
    apply (tag_of c (List.mem_cons_of_mem _ hc)).resolve_left
    -- two visibilities would be in one field
    intro hfour
    have honce := h.once
    rw [List.cons_append, List.map_cons, List.filter_cons_of_pos (by simp [hfirst]),
      List.nodup_cons] at honce
    apply honce.1
    refine List.mem_filter.mpr ⟨?_, by simp [hfirst]⟩
    rw [hfirst, ← hfour]
    exact List.mem_map_of_mem (List.mem_append_left _ hc)

theorem filter_rest {p : Record → Bool} {all front rest : List Record} (h : all = front ++ rest)
    (hsize : (all.filter p).length = (front.filter p).length) :
    all.filter p = front.filter p ∧ rest.filter p = [] := by
  have hfilter := congrArg (List.filter p) h
  rw [List.filter_append] at hfilter
  have hlength := congrArg List.length hfilter
  rw [List.length_append] at hlength
  have hrest : rest.filter p = [] := List.length_eq_zero_iff.mp (by omega)
  rw [hrest, List.append_nil] at hfilter
  exact ⟨hfilter, hrest⟩

/-- The first of two fields, with what is left in front of the other: either covers the other but
for records that no field needs. -/
theorem cut {carry a b as bs : List Record} (ha : Framed a) (hb : Framed b)
    (hcarry : carry.filter isCore = []) (h : a ++ as = carry ++ b ++ bs) :
    a.filter isCore = b.filter isCore ∧
    ((∃ rest, rest.filter isCore = [] ∧ a = carry ++ b ++ rest ∧ bs = rest ++ as) ∨
     (∃ rest, rest.filter isCore = [] ∧ carry ++ b = a ++ rest ∧ as = rest ++ bs)) := by
  have hb' : (carry ++ b).filter isCore = b.filter isCore := by
    rw [List.filter_append, hcarry, List.nil_append]
  have hsize : (a.filter isCore).length = ((carry ++ b).filter isCore).length := by
    rw [hb', ha.core, hb.core]
  rcases List.append_eq_append_iff.mp h with ⟨rest, hrest, has⟩ | ⟨rest, hrest, hbs⟩
  · obtain ⟨hsame, hnone⟩ := filter_rest hrest hsize.symm
    exact ⟨hsame.symm.trans hb', .inr ⟨rest, hnone, hrest, has⟩⟩
  · obtain ⟨hsame, hnone⟩ := filter_rest hrest hsize
    exact ⟨hsame.trans hb', .inl ⟨rest, hnone, hrest, hbs⟩⟩

/-- What the fields behind a cut start with is a gate. -/
theorem isGate_of_flatten {fields : List (List Record)} {gate more : List Record}
    (hframed : ∀ rs ∈ fields, Framed rs) (hgate : gate.filter isCore = [])
    (h : fields.flatten = gate ++ more) : IsGate gate := by
  cases fields with
  | nil =>
    obtain ⟨rfl, -⟩ := List.append_eq_nil_iff.mp h.symm
    trivial
  | cons rs fields =>
    have hrs := hframed rs List.mem_cons_self
    rw [List.flatten_cons] at h
    rcases List.append_eq_append_iff.mp h with ⟨rest, hrest, -⟩ | ⟨rest, hrest, -⟩
    · have hcore := hrs.core
      have hfilter := congrArg (List.filter isCore) hrest
      rw [hgate, List.filter_append, eq_comm, List.append_eq_nil_iff] at hfilter
      rw [hfilter.1] at hcore
      cases hcore
    · exact isGate_of_prefix hrs hrest hgate

/-- The same records as two lists of fields, the second behind a gate: field by field they have
the same core, and at each place one list is ahead of the other by a gate at most. -/
theorem aligned (n : Nat) : ∀ {as bs : List (List Record)} {carry : List Record},
    as.length + bs.length ≤ n → (∀ rs ∈ as, Framed rs) → (∀ rs ∈ bs, Framed rs) →
    carry.filter isCore = [] → IsGate carry → as.flatten = carry ++ bs.flatten →
    as.map (List.filter isCore) = bs.map (List.filter isCore) ∧
    ∀ i, ∃ gate, IsGate gate ∧
      ((as.take i).flatten = carry ++ (bs.take i).flatten ++ gate ∨
       carry ++ (bs.take i).flatten = (as.take i).flatten ++ gate) := by
  -- on the number of fields in both lists, since the list that is ahead changes on the way
  induction n with
  | zero =>
    intro as bs carry hn _ _ _ hgate h
    obtain rfl : as = [] := List.length_eq_zero_iff.mp (by omega)
    obtain rfl : bs = [] := List.length_eq_zero_iff.mp (by omega)
    refine ⟨rfl, ?_⟩
    intro i
    exact ⟨carry, hgate, .inr (by simp)⟩
  | succ n ih =>
    intro as bs carry hn has hbs hcarry hgate h
    cases as with
    | nil =>
      obtain ⟨rfl, hnone⟩ := List.append_eq_nil_iff.mp h.symm
      cases bs with
      | nil =>
        refine ⟨rfl, ?_⟩
        intro i
        exact ⟨[], trivial, .inr (by simp)⟩
      | cons b bs =>
        have hcore := (hbs b List.mem_cons_self).core
        obtain ⟨rfl, -⟩ := List.append_eq_nil_iff.mp hnone
        cases hcore
    | cons a as =>
      have ha := has a List.mem_cons_self
      cases bs with
      | nil =>
        have hcore := ha.core
        have hfilter := congrArg (List.filter isCore) h
        rw [List.flatten_cons, List.flatten_nil, List.append_nil, hcarry, List.filter_append,
          List.append_eq_nil_iff] at hfilter
        rw [hfilter.1] at hcore
        cases hcore
      | cons b bs =>
        have hb := hbs b List.mem_cons_self
        have has' : ∀ rs ∈ as, Framed rs := by
          intro rs hrs
          exact has rs (List.mem_cons_of_mem _ hrs)
        have hbs' : ∀ rs ∈ bs, Framed rs := by
          intro rs hrs
          exact hbs rs (List.mem_cons_of_mem _ hrs)
        simp only [List.length_cons] at hn
        rw [List.flatten_cons, List.flatten_cons, ← List.append_assoc] at h
        obtain ⟨hsame, ⟨rest, hnone, hfront, hmore⟩ | ⟨rest, hnone, hfront, hmore⟩⟩ :=
          cut ha hb hcarry h
        · -- the first field reaches into the fields behind the second: the roles change
          obtain ⟨hmap, hplaces⟩ := ih (by omega) hbs' has' hnone
            (isGate_of_flatten hbs' hnone hmore) hmore
          refine ⟨by rw [List.map_cons, List.map_cons, hsame, hmap], ?_⟩
          intro i
          cases i with
          | zero => exact ⟨carry, hgate, .inr (by simp)⟩
          | succ i =>
            obtain ⟨gate, hg, hplace | hplace⟩ := hplaces i
            · exact ⟨gate, hg, .inr (by simp [hfront, hplace])⟩
            · exact ⟨gate, hg, .inl (by simp [hfront, hplace])⟩
        · obtain ⟨hmap, hplaces⟩ := ih (by omega) has' hbs' hnone
            (isGate_of_flatten has' hnone hmore) hmore
          refine ⟨by rw [List.map_cons, List.map_cons, hsame, hmap], ?_⟩
          intro i
          have hfront' : ∀ more, carry ++ (b ++ more) = a ++ (rest ++ more) := by
            intro more
            rw [← List.append_assoc, hfront, List.append_assoc]
          cases i with
          | zero => exact ⟨carry, hgate, .inr (by simp)⟩
          | succ i =>
            obtain ⟨gate, hg, hplace | hplace⟩ := hplaces i
            · exact ⟨gate, hg, .inl (by simp [hfront', hplace])⟩
            · exact ⟨gate, hg, .inr (by simp [hfront', ← hplace])⟩

/-- A gate between two ways to part the same records starts one of their fields. -/
theorem opens_of_gate {as bs : List (List Record)} {gate : List Record} {v : Record} {i : Nat}
    (hbs : ∀ rs ∈ bs, Framed rs) (h : as.flatten = bs.flatten)
    (hplace : (as.take i).flatten = (bs.take i).flatten ++ v :: gate) :
    ∃ rs ∈ bs, rs.head? = some v := by
  have hall : (as.take i).flatten ++ (as.drop i).flatten =
      (bs.take i).flatten ++ (bs.drop i).flatten := by
    rw [← List.flatten_append, ← List.flatten_append, List.take_append_drop, List.take_append_drop,
      h]
  rw [hplace, List.append_assoc, List.append_cancel_left_eq] at hall
  cases hdrop : bs.drop i with
  | nil => simp [hdrop] at hall
  | cons rs more =>
    have hmem : rs ∈ bs := List.mem_of_mem_drop (i := i) (by rw [hdrop]; exact List.mem_cons_self)
    refine ⟨rs, hmem, ?_⟩
    cases rs with
    | nil => cases (hbs [] hmem).core
    | cons r rs =>
      rw [hdrop, List.flatten_cons, List.cons_append, List.cons_append, List.cons.injEq] at hall
      rw [List.head?_cons, hall.1]

theorem eq_of_take_flatten {as bs : List (List Record)} (hlength : as.length = bs.length)
    (h : ∀ i, (as.take i).flatten = (bs.take i).flatten) : as = bs := by
  apply List.ext_getElem hlength
  intro i ha hb
  have hnext := h (i + 1)
  rw [List.take_succ_eq_append_getElem ha, List.take_succ_eq_append_getElem hb,
    List.flatten_append, List.flatten_append, h i, List.append_cancel_left_eq] at hnext
  simpa using hnext

/-- A payload may start with a visibility: the one place where fields can be parted otherwise. -/
def Opens (payload : Bytes) : Prop := ∃ r, (records payload).1.head? = some r ∧ r.tag = 4

/-- The records of each payload. -/
def pieces (ps : List Bytes) : List (List Record) := ps.map fun p => (records p).1

section
variable {ps : List Bytes} (hp : ∀ p ∈ ps, ∃ field, parse p = .ok field)
include hp

theorem framed_pieces : ∀ rs ∈ pieces ps, Framed rs := by
  intro rs hrs
  obtain ⟨p, hmem, rfl⟩ := List.mem_map.mp hrs
  obtain ⟨field, hfield⟩ := hp p hmem
  exact (framed_of_parse hfield).2

theorem eq_map_pieces : ps = (pieces ps).map fun rs => rs.flatMap Record.raw := by
  rw [pieces, List.map_map]
  apply (List.map_id ps).symm.trans
  apply List.map_congr_left
  intro p hmem
  obtain ⟨field, hfield⟩ := hp p hmem
  exact (framed_of_parse hfield).1

theorem take_flatten (i : Nat) :
    (ps.take i).flatten = ((pieces ps).take i).flatten.flatMap Record.raw := by
  calc (ps.take i).flatten
      = (((pieces ps).map fun rs => rs.flatMap Record.raw).take i).flatten := by
        rw [← eq_map_pieces hp]
    _ = ((pieces ps).take i).flatten.flatMap Record.raw := by
        rw [← List.map_take, ← List.flatMap_def, ← List.flatMap_id, List.flatMap_assoc]
        rfl

/-- Nothing but the pieces is read off payloads that stand one behind the other. -/
theorem records_flatten : records ps.flatten = ((pieces ps).flatten, []) := by
  have h := take_flatten hp ps.length
  rw [List.take_length, List.take_of_length_le (by simp [pieces])] at h
  rw [h]
  apply records_flatMap
  intro r hr
  obtain ⟨rs, hrs, hr⟩ := List.mem_flatten.mp hr
  obtain ⟨p, -, rfl⟩ := List.mem_map.mp hrs
  exact (records_spec p).1 r hr

end

/-- Two lists of fields with the same concatenation have, field by field, the same version, name,
kind and parameter; each field of one ends where that of the other does, or a visibility with its
constraints further on; and if no field starts with a visibility they are the same fields. -/
theorem concatenation_pins {ps qs : List Bytes}
    (hp : ∀ p ∈ ps, ∃ field, parse p = .ok field) (hq : ∀ q ∈ qs, ∃ field, parse q = .ok field)
    (h : ps.flatten = qs.flatten) :
    ps.map core = qs.map core ∧
    (∀ i, ∃ gate, IsGate gate ∧
      ((ps.take i).flatten = (qs.take i).flatten ++ gate.flatMap Record.raw ∨
       (qs.take i).flatten = (ps.take i).flatten ++ gate.flatMap Record.raw)) ∧
    ((∀ p ∈ ps ++ qs, ¬ Opens p) → ps = qs) := by
  have hrecords : (pieces ps).flatten = (pieces qs).flatten := by
    have hps := records_flatten hp
    rw [h, records_flatten hq, Prod.mk.injEq] at hps
    exact hps.1.symm
  have hstart : (pieces ps).flatten = [] ++ (pieces qs).flatten := by
    rw [hrecords, List.nil_append]
  obtain ⟨hcore, hplaces⟩ := aligned _ (Nat.le_refl _) (framed_pieces hp) (framed_pieces hq)
    (by rfl) (by trivial) hstart
  simp only [List.nil_append] at hplaces
  have map_core : ∀ xs : List Bytes, (pieces xs).map (List.filter isCore) = xs.map core := by
    intro xs
    rw [pieces, List.map_map]
    rfl
  rw [map_core, map_core] at hcore
  refine ⟨hcore, ?_, ?_⟩
  · intro i
    obtain ⟨gate, hgate, hplace | hplace⟩ := hplaces i
    · exact ⟨gate, hgate, .inl (by
        rw [take_flatten hp, take_flatten hq, hplace, List.flatMap_append])⟩
    · exact ⟨gate, hgate, .inr (by
        rw [take_flatten hp, take_flatten hq, hplace, List.flatMap_append])⟩
  · intro hnone
    have no_opening {xs : List Bytes} (hx : ∀ x ∈ xs, x ∈ ps ++ qs) {v : Record} (hv : v.tag = 4) :
        ¬ ∃ rs ∈ pieces xs, rs.head? = some v := by
      rintro ⟨rs, hrs, hhead⟩
      obtain ⟨x, hmem, rfl⟩ := List.mem_map.mp hrs
      exact hnone x (hx x hmem) ⟨v, hhead, hv⟩
    have hlength : (pieces ps).length = (pieces qs).length := by
      have hmaps := congrArg List.length hcore
      simpa [pieces] using hmaps
    have hpieces : pieces ps = pieces qs := by
      apply eq_of_take_flatten hlength
      intro i
      obtain ⟨gate, hgate, hplace | hplace⟩ := hplaces i
      · cases gate with
        | nil => rwa [List.append_nil] at hplace
        | cons v gate =>
          exact absurd (opens_of_gate (framed_pieces hq) hrecords hplace)
            (no_opening (fun x hx => List.mem_append_right _ hx) hgate.1)
      · cases gate with
        | nil => rw [hplace, List.append_nil]
        | cons v gate =>
          exact absurd (opens_of_gate (framed_pieces hp) hrecords.symm hplace)
            (no_opening (fun x hx => List.mem_append_left _ hx) hgate.1)
    rw [eq_map_pieces hp, eq_map_pieces hq, hpieces]

/-- A field that shows the number one under a name of one letter. -/
def sample (letter : UInt8) : Bytes :=
  write 0 [1] ++ write 1 [letter] ++ write 2 [0] ++
    write 3 (write 0 [1] ++ write 1 (write 0 [1] ++ write 1 [1] ++ write 5 [1]))

/-- Hides the number one. -/
def sampleGate : Bytes := write 4 [2] ++ write 5 [1]

/-- Two fields, of which the first has the gate. -/
def gateFirst : List Bytes := [sample 97 ++ sampleGate, sample 98]

/-- The same bytes as two fields of which the second has the gate. -/
def gateSecond : List Bytes := [sample 97, sampleGate ++ sample 98]

theorem parse_of_all {ps : List Bytes} (h : ps.all (fun p => (parse p).toBool) = true) :
    ∀ p ∈ ps, ∃ field, parse p = .ok field := by
  intro p hp
  exact exists_of_toBool (List.all_eq_true.mp h p hp)

/-- The gate of the first field, read as one of the second, leaves all that is pinned in place. -/
theorem concatenation_pins_moved_gate : gateFirst.map core = gateSecond.map core := by
  have hfirst : ∀ p ∈ gateFirst, ∃ field, parse p = .ok field :=
    parse_of_all (by decide +kernel)
  have hsecond : ∀ q ∈ gateSecond, ∃ field, parse q = .ok field :=
    parse_of_all (by decide +kernel)
  exact (concatenation_pins hfirst hsecond rfl).1

/-- The concatenation does not say which of two fields a gate between them belongs to. -/
theorem concatenation_moves_gate :
    ¬ ∀ ps qs : List Bytes, (∀ p ∈ ps, ∃ field, parse p = .ok field) →
      (∀ q ∈ qs, ∃ field, parse q = .ok field) → ps.flatten = qs.flatten → ps = qs := by
  intro h
  have hfirst : ∀ p ∈ gateFirst, ∃ field, parse p = .ok field :=
    parse_of_all (by decide +kernel)
  have hsecond : ∀ q ∈ gateSecond, ∃ field, parse q = .ok field :=
    parse_of_all (by decide +kernel)
  have hsame := h gateFirst gateSecond hfirst hsecond rfl
  revert hsame
  decide +kernel

end ClearSign.Field
