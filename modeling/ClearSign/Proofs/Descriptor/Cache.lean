import ClearSign.Descriptor.Cache
import Mathlib.Data.List.DropRight
import Mathlib.Data.List.Nodup

/-!
What a cache makes of the descriptors that were added to it. Either kind is kept as a window on the
order in which entries came: the labels that are kept are the last that came, whatever they name;
the proxies that are bound are the last that had to be given a place, and each is bound as it was
said last.
-/

namespace ClearSign

/-- A contract on a chain. -/
abbrev Proxy := ChainId × Address

namespace ProxyBinding

def proxy (b : ProxyBinding) : Proxy := (b.chain, b.address)

/-- The binding is for a function, or for all of them. -/
def Covers (b : ProxyBinding) (selector : Selector) : Prop :=
  b.selector = none ∨ b.selector = some selector

theorem implementation?_eq_some_iff {b : ProxyBinding} {chain : ChainId} {address i : Address}
    {selector : Selector} :
    b.implementation? chain address selector = some i ↔
      b.proxy = (chain, address) ∧ b.Covers selector ∧ b.implementation = i := by
  unfold implementation? proxy Covers
  split
  · rename_i h
    simp [h.1, h.2.1, h.2.2]
  · rename_i h
    simp only [reduceCtorEq, Prod.mk.injEq, false_iff]
    rintro ⟨⟨hchain, haddress⟩, hcovers, -⟩
    exact h ⟨hchain.symm, haddress.symm, hcovers⟩

end ProxyBinding

/-- An entry that falls out of the window of the last `n + 1` has `n` entries behind it. -/
theorem exists_of_mem_rtake {α : Type} {n : Nat} {as : List α} {a : α} (h : a ∈ as.rtake (n + 1))
    (hgone : a ∉ as.rtake n) : ∃ front later, as = front ++ a :: later ∧ later.length = n := by
  unfold List.rtake at h hgone
  have hlong : n < as.length := by
    by_contra hshort
    rw [show as.length - (n + 1) = as.length - n by omega] at h
    exact hgone h
  have hfirst : as.length - (n + 1) < as.length := by omega
  have hcons := List.drop_eq_getElem_cons hfirst
  rw [show as.length - (n + 1) + 1 = as.length - n by omega] at hcons
  rw [hcons, List.mem_cons] at h
  obtain rfl := h.resolve_right hgone
  refine ⟨as.take (as.length - (n + 1)), as.drop (as.length - n), ?_, ?_⟩
  · rw [← hcons, List.take_append_drop]
  · rw [List.length_drop]
    omega

/-- The window that ends with some entries, if there is room for them. -/
theorem rtake_append_cons {α : Type} {n : Nat} (as : List α) (a : α) {later : List α}
    (h : later.length ≤ n) :
    (as ++ a :: later).rtake (n + 1) = as.rtake (n - later.length) ++ a :: later := by
  unfold List.rtake
  rw [List.drop_append, List.length_append, List.length_cons]
  congr 1
  · congr 1
    omega
  · rw [show as.length + (later.length + 1) - (n + 1) - as.length = 0 by omega, List.drop_zero]

namespace Cache

/-- The last entries, as many as there is room for, are still that with one more. -/
theorem enqueue_rtake {α : Type} (n : Nat) (entries : List α) (entry : α) :
    enqueue (n + 1) (entries.rtake (n + 1)) entry = (entries ++ [entry]).rtake (n + 1) := by
  rw [List.rtake_concat_succ]
  unfold enqueue List.rtake
  rw [List.length_drop, List.drop_drop]
  split
  · rw [show entries.length - (n + 1) + 1 = entries.length - n by omega]
  · rw [show entries.length - (n + 1) = entries.length - n by omega]

theorem map_enqueue {α β : Type} (f : α → β) (capacity : Nat) (entries : List α) (entry : α) :
    (enqueue capacity entries entry).map f = enqueue capacity (entries.map f) (f entry) := by
  unfold enqueue
  rw [List.length_map, List.map_append, List.map_singleton]
  split
  · rw [List.map_drop]
  · rfl

theorem enqueue_sublist {α : Type} (capacity : Nat) (entries : List α) (entry : α) :
    (enqueue capacity entries entry).Sublist (entries ++ [entry]) := by
  unfold enqueue
  refine List.Sublist.append ?_ (List.Sublist.refl _)
  split
  · exact List.drop_sublist _ _
  · exact List.Sublist.refl _

/-- The proxies that are bound. -/
def proxies (c : Cache) : List Proxy := c.bindings.map ProxyBinding.proxy

theorem sameProxy_iff {a b : ProxyBinding} : sameProxy a b = true ↔ b.proxy = a.proxy := by
  unfold sameProxy ProxyBinding.proxy
  rw [Bool.and_eq_true, beq_iff_eq, beq_iff_eq, Prod.mk.injEq, eq_comm, eq_comm (a := a.address)]

theorem any_sameProxy_iff (c : Cache) (b : ProxyBinding) :
    c.bindings.any (sameProxy b) = true ↔ b.proxy ∈ c.proxies := by
  unfold proxies
  simp only [List.any_eq_true, sameProxy_iff, List.mem_map]

/-- Of bindings for different proxies one at most is replaced, by one for the same proxy. -/
theorem replaceFirst_eq_map (b : ProxyBinding) {bindings : List ProxyBinding}
    (h : (bindings.map ProxyBinding.proxy).Nodup) :
    replaceFirst (sameProxy b) b bindings =
      bindings.map fun b' => if b'.proxy = b.proxy then b else b' := by
  induction bindings with
  | nil => rfl
  | cons first rest ih =>
    rw [List.map_cons, List.nodup_cons] at h
    unfold replaceFirst
    by_cases hsame : first.proxy = b.proxy
    · rw [if_pos (sameProxy_iff.mpr hsame), List.map_cons, if_pos hsame]
      congr 1
      -- Behind the one that is replaced there is none for the same proxy, so nothing else changes.
      have hothers : ∀ b' ∈ rest, (if b'.proxy = b.proxy then b else b') = b' := by
        intro b' hb'
        refine if_neg fun hb => h.1 ?_
        rw [hsame, ← hb]
        exact List.mem_map_of_mem hb'
      rw [List.map_congr_left hothers, List.map_id']
    · rw [if_neg (mt sameProxy_iff.mp hsame), List.map_cons, if_neg hsame, ih h.2]

section

variable {c : Cache} {b : ProxyBinding}

/-- A proxy that is bound keeps its place, and all others keep their bindings. -/
theorem bindings_addBinding_bound (hdistinct : c.proxies.Nodup) (h : b.proxy ∈ c.proxies) :
    (c.addBinding b).bindings =
      c.bindings.map fun b' => if b'.proxy = b.proxy then b else b' := by
  unfold addBinding
  rw [if_pos ((any_sameProxy_iff c b).mpr h)]
  exact replaceFirst_eq_map b hdistinct

theorem proxies_addBinding_bound (hdistinct : c.proxies.Nodup) (h : b.proxy ∈ c.proxies) :
    (c.addBinding b).proxies = c.proxies := by
  unfold proxies
  rw [bindings_addBinding_bound hdistinct h, List.map_map]
  refine List.map_congr_left fun b' _ => ?_
  show ProxyBinding.proxy (if b'.proxy = b.proxy then b else b') = b'.proxy
  by_cases hsame : b'.proxy = b.proxy
  · rw [if_pos hsame, hsame]
  · rw [if_neg hsame]

theorem bindings_addBinding_new (h : b.proxy ∉ c.proxies) :
    (c.addBinding b).bindings = enqueue maxBindings c.bindings b := by
  unfold addBinding
  rw [if_neg (mt (any_sameProxy_iff c b).mp h)]

theorem proxies_addBinding_new (h : b.proxy ∉ c.proxies) :
    (c.addBinding b).proxies = enqueue maxBindings c.proxies b.proxy := by
  unfold proxies
  rw [bindings_addBinding_new h, map_enqueue]

/-- What is bound after one more binding is that binding, or was bound before for another proxy. -/
theorem mem_addBinding (hdistinct : c.proxies.Nodup) {b' : ProxyBinding}
    (h : b' ∈ (c.addBinding b).bindings) :
    b' = b ∨ b' ∈ c.bindings ∧ b'.proxy ≠ b.proxy := by
  by_cases hbound : b.proxy ∈ c.proxies
  · rw [bindings_addBinding_bound hdistinct hbound, List.mem_map] at h
    obtain ⟨old, hold, hb'⟩ := h
    by_cases hsame : old.proxy = b.proxy
    · rw [if_pos hsame] at hb'
      exact .inl hb'.symm
    · rw [if_neg hsame] at hb'
      subst hb'
      exact .inr ⟨hold, hsame⟩
  · rw [bindings_addBinding_new hbound] at h
    rcases List.mem_append.mp ((enqueue_sublist _ _ _).subset h) with hold | hnew
    · refine .inr ⟨hold, fun hsame => hbound ?_⟩
      rw [← hsame]
      exact List.mem_map_of_mem hold
    · exact .inl (List.mem_singleton.mp hnew)

theorem mem_addBinding_self (hdistinct : c.proxies.Nodup) : b ∈ (c.addBinding b).bindings := by
  by_cases hbound : b.proxy ∈ c.proxies
  · rw [bindings_addBinding_bound hdistinct hbound, List.mem_map]
    obtain ⟨old, hold, hsame⟩ := List.mem_map.mp hbound
    exact ⟨old, hold, if_pos hsame⟩
  · rw [bindings_addBinding_new hbound]
    exact List.mem_append_right _ (List.mem_singleton_self b)

theorem nodup_addBinding (hdistinct : c.proxies.Nodup) : (c.addBinding b).proxies.Nodup := by
  by_cases hbound : b.proxy ∈ c.proxies
  · rwa [proxies_addBinding_bound hdistinct hbound]
  · rw [proxies_addBinding_new hbound]
    refine List.Nodup.sublist (enqueue_sublist _ _ _) ?_
    rw [List.nodup_append]
    refine ⟨hdistinct, List.nodup_singleton _, ?_⟩
    rintro p hp q hq rfl
    rw [List.mem_singleton] at hq
    exact hbound (hq ▸ hp)

/-- Where no proxy is bound twice, a function of a proxy is run by what its binding says. -/
theorem implementation?_eq_some_iff (hdistinct : c.proxies.Nodup) {chain : ChainId}
    {address i : Address} {selector : Selector} :
    c.implementation? chain address selector = some i ↔
      ∃ b ∈ c.bindings, b.proxy = (chain, address) ∧ b.Covers selector ∧ b.implementation = i := by
  unfold implementation?
  constructor
  · intro h
    obtain ⟨b, hb, hfound⟩ := List.exists_of_findSome?_eq_some h
    exact ⟨b, hb, ProxyBinding.implementation?_eq_some_iff.mp hfound⟩
  · rintro ⟨b, hb, hproxy, hrest⟩
    have hsome : (c.bindings.findSome? fun b => b.implementation? chain address selector).isSome :=
      List.findSome?_isSome_iff.mpr ⟨b, hb, Option.isSome_iff_exists.mpr
        ⟨i, ProxyBinding.implementation?_eq_some_iff.mpr ⟨hproxy, hrest⟩⟩⟩
    obtain ⟨j, hj⟩ := Option.isSome_iff_exists.mp hsome
    obtain ⟨b', hb', hfound⟩ := List.exists_of_findSome?_eq_some hj
    obtain ⟨hproxy', -, rfl⟩ := ProxyBinding.implementation?_eq_some_iff.mp hfound
    obtain rfl : b' = b := List.inj_on_of_nodup_map hdistinct hb' hb (hproxy'.trans hproxy.symm)
    rw [hj, hrest.2]

end

/-- The proxies that had to be given a place, in the order in which they got it. -/
def arrivals : Cache → List ProxyBinding → List Proxy
  | _, [] => []
  | c, b :: added =>
    (if b.proxy ∈ c.proxies then [] else [b.proxy]) ++ arrivals (c.addBinding b) added

theorem arrivals_concat (c : Cache) (added : List ProxyBinding) (b : ProxyBinding) :
    arrivals c (added ++ [b]) = arrivals c added ++
      if b.proxy ∈ (added.foldl addBinding c).proxies then [] else [b.proxy] := by
  induction added generalizing c with
  | nil =>
    show _ ++ [] = [] ++ _
    rw [List.append_nil, List.nil_append]
    rfl
  | cons first added ih => rw [List.cons_append, arrivals, arrivals, ih, List.append_assoc]; rfl

/-- The binding that was added last for a proxy. -/
def last? (added : List ProxyBinding) (p : Proxy) : Option ProxyBinding :=
  added.reverse.find? fun b => b.proxy == p

theorem last?_concat (added : List ProxyBinding) (b : ProxyBinding) (p : Proxy) :
    last? (added ++ [b]) p = if b.proxy = p then some b else last? added p := by
  unfold last?
  rw [List.reverse_append, List.reverse_singleton, List.singleton_append, List.find?_cons]
  by_cases hsame : b.proxy = p
  · rw [if_pos hsame, beq_iff_eq.mpr hsame]
  · rw [if_neg hsame, beq_eq_false_iff_ne.mpr hsame]

/-- What some additions to an empty cache have come to: no proxy is bound twice, the proxies that
are bound are the last that were given a place, and each has the binding that was added last. -/
structure Keeps (added : List ProxyBinding) (c : Cache) : Prop where
  distinct : c.proxies.Nodup
  window : c.proxies = (arrivals empty added).rtake maxBindings
  latest : ∀ b ∈ c.bindings, last? added b.proxy = some b

theorem keeps_added (added : List ProxyBinding) : Keeps added (added.foldl addBinding empty) := by
  induction added using List.reverseRecOn with
  | nil =>
    refine ⟨List.nodup_nil, rfl, fun b hb => ?_⟩
    cases hb
  | append_singleton added b ih =>
    rw [List.foldl_concat]
    refine ⟨nodup_addBinding ih.distinct, ?_, ?_⟩
    · rw [arrivals_concat]
      by_cases hbound : b.proxy ∈ (added.foldl addBinding empty).proxies
      · rw [proxies_addBinding_bound ih.distinct hbound, if_pos hbound, List.append_nil, ih.window]
      · rw [proxies_addBinding_new hbound, if_neg hbound, ih.window]
        exact enqueue_rtake 3 _ _
    · intro b' hb'
      rw [last?_concat]
      rcases mem_addBinding ih.distinct hb' with rfl | ⟨hold, hother⟩
      · exact if_pos rfl
      · rw [if_neg hother.symm, ih.latest b' hold]

/-- The bindings of a cache are a map from at most four proxies. Whatever was added to an empty
cache, no proxy is bound twice, and a function of a proxy is run by what the binding says that was
added last for the proxy, as long as that is kept and covers the function; so it is from the moment
it is added. One that is added for a proxy that is bound takes the place of the old one and leaves
all others as they are, and a proxy loses its binding only to the fourth proxy that had to be given
a place after it. -/
theorem bindings_map_proxies (added : List ProxyBinding) :
    let c := added.foldl addBinding empty
    c.proxies.Nodup ∧ c.bindings.length ≤ 4 ∧
    (∀ chain address selector i, c.implementation? chain address selector = some i ↔
      ∃ b, last? added (chain, address) = some b ∧ b ∈ c.bindings ∧ b.Covers selector ∧
        b.implementation = i) ∧
    (∀ b selector, b.Covers selector →
      (c.addBinding b).implementation? b.chain b.address selector = some b.implementation) ∧
    (∀ b, b.proxy ∈ c.proxies → (c.addBinding b).bindings =
      c.bindings.map fun b' => if b'.proxy = b.proxy then b else b') ∧
    ∀ b p, p ∈ c.proxies → p ∉ (c.addBinding b).proxies →
      b.proxy ∉ c.proxies ∧ ∃ front later, later.length = 3 ∧
        arrivals empty (added ++ [b]) = front ++ p :: (later ++ [b.proxy]) := by
  intro c
  obtain ⟨hdistinct, hwindow, hlatest⟩ := keeps_added added
  refine ⟨hdistinct, ?_, ?_, ?_, fun b => bindings_addBinding_bound hdistinct, ?_⟩
  · have hlength : c.proxies.length = ((arrivals empty added).rtake maxBindings).length :=
      congrArg List.length hwindow
    rw [proxies, List.length_map, List.rtake, List.length_drop, maxBindings] at hlength
    omega
  · intro chain address selector i
    rw [implementation?_eq_some_iff hdistinct]
    constructor
    · rintro ⟨b, hb, hproxy, hrest⟩
      exact ⟨b, hproxy ▸ hlatest b hb, hb, hrest⟩
    · rintro ⟨b, hlast, hb, hrest⟩
      have hproxy := List.find?_some hlast
      exact ⟨b, hb, beq_iff_eq.mp hproxy, hrest⟩
  · intro b selector hcovers
    exact (implementation?_eq_some_iff (nodup_addBinding hdistinct)).mpr
      ⟨b, mem_addBinding_self hdistinct, rfl, hcovers, rfl⟩
  · intro b p hbound hgone
    have hnew : b.proxy ∉ c.proxies := by
      intro hold
      rw [proxies_addBinding_bound hdistinct hold] at hgone
      exact hgone hbound
    have hkept : (c.addBinding b).proxies =
        (arrivals empty added).rtake 3 ++ [b.proxy] := by
      rw [proxies_addBinding_new hnew, hwindow, ← List.rtake_concat_succ]
      exact enqueue_rtake 3 _ _
    rw [hkept] at hgone
    rw [hwindow] at hbound
    obtain ⟨front, later, harrivals, hlength⟩ :=
      exists_of_mem_rtake hbound fun hlast => hgone (List.mem_append_left _ hlast)
    refine ⟨hnew, front, later, hlength, ?_⟩
    rw [arrivals_concat, if_neg hnew, harrivals, List.append_assoc, List.cons_append]

end Cache

end ClearSign
