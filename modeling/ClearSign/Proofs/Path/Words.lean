import ClearSign.Proofs.Path.NestedLoops
import ClearSign.Proofs.Refusal

/-!
What a path makes of the words that it does not show: the size of an array, the length of a byte
string and the offset that a reference follows. Of each only the low 16 bits count, and of an offset
only whole words. The bits above and below do not make a reading fail either: words that differ
nowhere else are read alike.
-/

namespace ClearSign

open Refusal Odometer

/-- The unsigned number that a word spells. -/
def Word.toNat (w : Word) : Nat := Bytes.toNat w.bytes

namespace Element

/-- The elements that read a word as a size, a length or an offset. -/
def readsNumber : Element → Bool
  | .array .. | .ref | .leaf .dynamic => true
  | .tuple _ | .leaf _ | .slice _ => false

/-- What is left of a number: its low 16 bits, and of an offset the whole words. -/
def reduce : Element → Nat → Nat
  | .ref, n => n % radix / 32 * 32
  | _, n => n % radix

/-- A number is left as it is if it fits, and if an offset leads to the start of a word. -/
theorem reduce_eq_iff (e : Element) (n : Nat) :
    e.reduce n = n ↔ n < radix ∧ (e = .ref → 32 ∣ n) := by
  have hradix : n % radix = n ↔ n < radix := by
    constructor
    · intro h
      rw [← h]
      exact Nat.mod_lt n (by decide)
    · exact Nat.mod_eq_of_lt
  cases e with
  | ref =>
    simp only [reduce, forall_const]
    unfold radix at *
    omega
  | tuple | array | leaf | slice => simpa [reduce] using hradix

end Element

namespace Cursor

/-- A cursor in an array of which the places from `first` up to `stop` are gone through. -/
def within (c : Cursor) (weight : UInt8) (first stop : Nat) : Cursor :=
  let left := c.pending.headD (stop - first)
  { c with
    position := c.position + 1 + (first + (stop - first - left)) * weight.toNat
    base := c.position + 1
    visited := left :: c.visited
    pending := c.pending.tail }

/-- From `c` to `d` an element acts on a number: it goes through the window of an array of that
size, goes that many bytes on from the word that references count from, or captures that many
bytes. -/
def ActsOn (args : Calldata) (c d : Cursor) (n : Nat) : Element → Prop
  | .array weight window =>
    ∃ first stop, window.resolve n = .ok (first, stop) ∧ d = c.within weight first stop
  | .ref => c.base ≤ d.position ∧ n = 32 * (d.position - c.base) ∧
    d = { c with position := d.position }
  | .leaf .dynamic => ∃ bs, bs.length = n ∧ readBytes args (c.position + 1) n = .ok bs ∧
    d = { c with position := c.position + 1, captures := c.captures ++ [Capture.whole bs] }
  | .tuple _ | .leaf _ | .slice _ => True

/-- Where the passes over some elements lead: the elements that are still ahead, and the cursor in
front of them. -/
inductive Visits (args : Calldata) (elements : List Element) : Cursor → List Element → Prop
  | start : Visits args elements (Cursor.start [] []) elements
  | step {c d : Cursor} {e : Element} {ahead : List Element} :
      Visits args elements c (e :: ahead) → step args c e = .ok d → Visits args elements d ahead
  | again {c : Cursor} : Visits args elements c [] → advance c.counters ≠ [] →
      Visits args elements (Cursor.start (advance c.counters) c.captures) elements

theorem enter_eq {args : Calldata} {c : Cursor} {weight : UInt8} {window : Window} {d : Cursor}
    (h : c.enter args weight window = .ok d) :
    ∃ w first stop, args.word c.position = .ok w ∧
      window.resolve (lowHalf w) = .ok (first, stop) ∧ d = c.within weight first stop := by
  unfold enter at h
  split at h
  · cases h
  · split at h
    · cases h
    · rename_i w hword
      split at h
      · cases h
      · rename_i first stop hwindow
        cases h
        exact ⟨w, first, stop, hword, hwindow, rfl⟩

theorem capture_eq {c d : Cursor} {bs : Bytes} (h : c.capture bs = .ok d) :
    d = { c with captures := c.captures ++ [Capture.whole bs] } := by
  obtain ⟨captures, hpush, hd⟩ := bind_eq_ok.mp h
  cases hd
  unfold Captures.push at hpush
  split at hpush
  · rw [← Except.ok.inj hpush]
  · cases hpush

theorem length_readBytes {args : Calldata} {position n : Nat} {bs : Bytes}
    (h : readBytes args position n = .ok bs) : bs.length = n := by
  obtain ⟨words, hwords, hbs⟩ := bind_eq_ok.mp h
  cases hbs
  have hcount : words.length = (n + 31) / 32 := by
    rw [length_mapM hwords, List.length_range]
  have hbytes : (words.flatMap Fixed.bytes).length = words.length * 32 := by
    rw [List.length_flatMap, List.map_congr_left fun w _ => w.length_bytes, List.map_const',
      List.sum_replicate_nat]
  rw [List.length_take, hbytes, hcount]
  omega

/-- An element that is passed has acted on what is left of the number that it read. -/
theorem step_actsOn {args : Calldata} {c d : Cursor} {e : Element} (h : step args c e = .ok d)
    (he : e.readsNumber = true) :
    ∃ w, args.word c.position = .ok w ∧ c.ActsOn args d (e.reduce w.toNat) e := by
  cases e with
  | tuple | slice => cases he
  | array weight window =>
    obtain ⟨w, first, stop, hword, hwindow, hd⟩ := enter_eq h
    exact ⟨w, hword, first, stop, hwindow, hd⟩
  | ref =>
    obtain ⟨w, hword, hd⟩ := bind_eq_ok.mp h
    cases hd
    refine ⟨w, hword, Nat.le_add_left _ _, ?_, rfl⟩
    show lowHalf w / 32 * 32 = 32 * (lowHalf w / 32 + c.base - c.base)
    omega
  | leaf kind =>
    cases kind with
    | array | tuple | static => cases he
    | dynamic =>
      obtain ⟨w, hword, h⟩ := bind_eq_ok.mp h
      obtain ⟨bs, hbs, h⟩ := bind_eq_ok.mp h
      exact ⟨w, hword, bs, length_readBytes hbs, hbs, capture_eq h⟩

/-- The end of a pass is where it leads. -/
theorem Visits.pass {args : Calldata} {elements ahead : List Element} {c d : Cursor}
    (h : Visits args elements c ahead) (hpass : Cursor.pass args ahead c = .ok d) :
    Visits args elements d [] := by
  induction ahead generalizing c with
  | nil =>
    cases hpass
    exact h
  | cons e ahead ih =>
    unfold Cursor.pass at hpass ih
    rw [List.foldlM_cons] at hpass
    obtain ⟨c', hstep, hpass⟩ := bind_eq_ok.mp hpass
    exact ih (h.step hstep) hpass

end Cursor

namespace DataPath

open Cursor

variable {args : Calldata} {elements : List Element}

theorem passes_of_error {counters : List Nat} (hvalid : Valid counters) {captures : Captures}
    {e : Error} (h : pass args elements (Cursor.start counters captures) = .error e) :
    passes args elements counters hvalid captures = .error e := by
  rw [passes]
  split
  · rename_i e' hread
    rw [h] at hread
    cases hread
    rfl
  · rename_i c hread
    rw [h] at hread
    cases hread

/-- The passes end behind the first of them, or go on with the counters that it leaves. -/
theorem passes_of_pass {counters : List Nat} (hvalid : Valid counters) {captures : Captures}
    {c : Cursor} (h : pass args elements (Cursor.start counters captures) = .ok c) :
    (advance c.counters = [] → passes args elements counters hvalid captures = .ok c.captures) ∧
    ∀ hmore : Valid (advance c.counters), advance c.counters ≠ [] →
      passes args elements counters hvalid captures =
        passes args elements (advance c.counters) hmore c.captures := by
  rw [passes]
  split
  · rename_i e hread
    rw [h] at hread
    cases hread
  · rename_i c' hread
    obtain rfl : c' = c := Except.ok.inj (hread.symm.trans h)
    exact ⟨fun hdone => dif_pos hdone, fun _ hmore => dif_neg hmore⟩

/-- What is captured once the passes behind a cursor at the end of one are done. -/
def Finishes (args : Calldata) (elements : List Element) (cs : Captures) (c : Cursor) : Prop :=
  (advance c.counters = [] ∧ c.captures = cs) ∨ (advance c.counters ≠ [] ∧
    ∃ hvalid, passes args elements (advance c.counters) hvalid c.captures = .ok cs)

theorem finishes_of_passes {counters : List Nat} {hvalid : Valid counters} {captures cs : Captures}
    (h : passes args elements counters hvalid captures = .ok cs) :
    ∃ c, pass args elements (Cursor.start counters captures) = .ok c ∧
      Finishes args elements cs c := by
  rw [passes] at h
  split at h
  · cases h
  · rename_i c hpass
    split at h
    · rename_i hdone
      exact ⟨c, hpass, .inl ⟨hdone, Except.ok.inj h⟩⟩
    · rename_i hmore
      exact ⟨c, hpass, .inr ⟨hmore, _, h⟩⟩

/-- Wherever a reading that succeeds leads, the rest of the pass succeeds, and the passes behind. -/
theorem finishes_of_visits {p : DataPath} {cs : Captures} (h : p.read args = .ok cs) {c : Cursor}
    {ahead : List Element} (hvisits : Visits args p.elements c ahead) :
    ∃ d, pass args ahead c = .ok d ∧ Finishes args p.elements cs d := by
  induction hvisits with
  | start => exact finishes_of_passes h
  | step _ hstep ih =>
    obtain ⟨d, hpass, hfinishes⟩ := ih
    unfold Cursor.pass at hpass
    rw [List.foldlM_cons, hstep] at hpass
    exact ⟨d, hpass, hfinishes⟩
  | again _ hmore ih =>
    obtain ⟨d, hpass, hfinishes⟩ := ih
    cases hpass
    obtain ⟨hdone, -⟩ | ⟨-, hvalid, hpasses⟩ := hfinishes
    · exact absurd hdone hmore
    · exact finishes_of_passes hpasses

/-- What is left of the number that an element reads. -/
def number (args : Calldata) (c : Cursor) (e : Element) : Except Error Nat :=
  (args.word c.position).map fun w => e.reduce w.toNat

/-- Two calls give an element the same: what is left of the number that it reads, and all bytes that
it captures. -/
structure Alike (args args' : Calldata) (c : Cursor) (e : Element) : Prop where
  number : e.readsNumber = true → number args' c e = number args c e
  static : e = .leaf .static → readBytes args' c.position 32 = readBytes args c.position 32
  dynamic : e = .leaf .dynamic → ∀ n, DataPath.number args c e = .ok n →
    readBytes args' (c.position + 1) n = readBytes args (c.position + 1) n

/-- Calls that give the same number have words that it is left of, or the same objection. -/
theorem words_of_number {args args' : Calldata} {c : Cursor} {e : Element}
    (h : number args' c e = number args c e) :
    (∃ objection, args'.word c.position = .error objection ∧
      args.word c.position = .error objection) ∨
    ∃ w' w, args'.word c.position = .ok w' ∧ args.word c.position = .ok w ∧
      e.reduce w'.toNat = e.reduce w.toNat := by
  unfold number at h
  cases hword' : args'.word c.position <;> cases hword : args.word c.position <;>
    simp_all [Except.map]

theorem Alike.step {args args' : Calldata} {c : Cursor} {e : Element} (h : Alike args args' c e) :
    Cursor.step args' c e = Cursor.step args c e := by
  cases e with
  | tuple | slice => rfl
  | array weight window =>
    show c.enter args' weight window = c.enter args weight window
    unfold enter
    obtain ⟨objection, hword', hword⟩ | ⟨w', w, hword', hword, hsame⟩ :=
      words_of_number (h.number rfl)
    · rw [hword', hword]
    · have hlow : lowHalf w' = lowHalf w := hsame
      rw [hword', hword]
      simp only [hlow]
  | ref =>
    show (args'.word c.position >>= fun w => pure { c with position := lowHalf w / 32 + c.base }) =
      (args.word c.position >>= fun w => pure { c with position := lowHalf w / 32 + c.base })
    obtain ⟨objection, hword', hword⟩ | ⟨w', w, hword', hword, hsame⟩ :=
      words_of_number (h.number rfl)
    · rw [hword', hword]
    · have hlow : lowHalf w' / 32 * 32 = lowHalf w / 32 * 32 := hsame
      have hword32 : lowHalf w' / 32 = lowHalf w / 32 := by omega
      rw [hword', hword]
      simp only [bind, Except.bind, hword32]
  | leaf kind =>
    cases kind with
    | array | tuple => rfl
    | static =>
      show (readBytes args' c.position 32 >>= c.capture) =
        (readBytes args c.position 32 >>= c.capture)
      rw [h.static rfl]
    | dynamic =>
      show (args'.word c.position >>= fun w => readBytes args' (c.position + 1) (lowHalf w) >>=
          { c with position := c.position + 1 }.capture) =
        (args.word c.position >>= fun w => readBytes args (c.position + 1) (lowHalf w) >>=
          { c with position := c.position + 1 }.capture)
      obtain ⟨objection, hword', hword⟩ | ⟨w', w, hword', hword, hsame⟩ :=
        words_of_number (h.number rfl)
      · rw [hword', hword]
        rfl
      · have hlow : lowHalf w' = lowHalf w := hsame
        have hbytes := h.dynamic rfl (lowHalf w) (by rw [DataPath.number, hword]; rfl)
        rw [hword', hword]
        simp only [bind, Except.bind, hlow, hbytes]

/-- Calls that are alike wherever the path leads are read alike. -/
theorem passes_alike {args args' : Calldata} {counters : List Nat} {hvalid : Valid counters}
    {captures : Captures}
    (hstart : Visits args elements (Cursor.start counters captures) elements)
    (h : ∀ c e ahead, Visits args elements c (e :: ahead) → Alike args args' c e) :
    passes args' elements counters hvalid captures =
      passes args elements counters hvalid captures := by
  have hpass : ∀ c ahead, Visits args elements c ahead →
      pass args' ahead c = pass args ahead c := by
    intro c ahead hvisits
    induction ahead generalizing c with
    | nil => rfl
    | cons e ahead ih =>
      unfold Cursor.pass at ih ⊢
      rw [List.foldlM_cons, List.foldlM_cons, (h c e ahead hvisits).step]
      cases hstep : Cursor.step args c e with
      | error e => rfl
      | ok d => exact ih d (hvisits.step hstep)
  fun_induction passes args elements counters hvalid captures with
  | case1 counters hvalid captures e hread =>
    exact passes_of_error hvalid ((hpass _ _ hstart).trans hread)
  | case2 counters hvalid captures c hread _ hdone =>
    exact (passes_of_pass hvalid ((hpass _ _ hstart).trans hread)).1 hdone
  | case3 counters hvalid captures c hread hcounters hmore ih =>
    rw [(passes_of_pass hvalid ((hpass _ _ hstart).trans hread)).2 (valid_advance hcounters.2) hmore]
    exact ih ((hstart.pass hread).again hmore)

/-- Of a word that is a size, a length or an offset only the low 16 bits count, and of an offset
only whole words. Wherever a reading that succeeds leads, an element that reads such a word acts on
what is left of it, which is the number that the word spells just if that fits 16 bits and, for an
offset, is a multiple of 32. What is dropped does not make a reading fail: calls that give the
elements the same are read alike. -/
theorem read_acts_on_reduced (p : DataPath) (args : Calldata) :
    (∀ cs, p.read args = .ok cs → ∀ c e ahead, Visits args p.elements c (e :: ahead) →
      e.readsNumber = true → ∃ w d, args.word c.position = .ok w ∧ Cursor.step args c e = .ok d ∧
        c.ActsOn args d (e.reduce w.toNat) e ∧
        (e.reduce w.toNat = w.toNat ↔ w.toNat < 0x10000 ∧ (e = .ref → 32 ∣ w.toNat))) ∧
    ∀ args', (∀ c e ahead, Visits args p.elements c (e :: ahead) → Alike args args' c e) →
      p.read args' = p.read args := by
  constructor
  · intro cs h c e ahead hvisits he
    obtain ⟨d, hpass, -⟩ := finishes_of_visits h hvisits
    unfold Cursor.pass at hpass
    rw [List.foldlM_cons] at hpass
    obtain ⟨c', hstep, -⟩ := bind_eq_ok.mp hpass
    obtain ⟨w, hword, hacts⟩ := step_actsOn hstep he
    exact ⟨w, c', hword, hstep, hacts, e.reduce_eq_iff w.toNat⟩
  · intro args' h
    exact passes_alike .start h

/-- Wherever a reading that succeeds leads, elements act on the very numbers that words spell. -/
def ActsOnAll (p : DataPath) (args : Calldata) : Prop :=
  ∀ cs, p.read args = .ok cs → ∀ c e ahead, Visits args p.elements c (e :: ahead) →
    e.readsNumber = true → ∃ w d, args.word c.position = .ok w ∧ Cursor.step args c e = .ok d ∧
      c.ActsOn args d w.toNat e

/-- The offset 0x10021 leads to the second word, as 0x20 would. -/
theorem not_actsOnAll : ¬ ∀ p args, ActsOnAll p args := by
  intro h
  let p : DataPath := ⟨1, [.ref, .leaf .static]⟩
  let args : Calldata := ⟨⟨[1, 2, 3, 4], rfl⟩, 64, 64,
    [PackedWord.pack (Fixed.align 32 [1, 0, 0x21]), PackedWord.pack (Fixed.align 32 [5])], []⟩
  obtain ⟨cs, hcs⟩ : ∃ cs, p.read args = .ok cs := by
    rw [read, passes_eq_foldlM args p.elements [] valid_nil [] (Spot.counts_nil _ _ _) (.inl rfl)]
    exact exists_of_toBool (by decide +kernel)
  obtain ⟨w, d, hword, hstep, -, hoffset, -⟩ := h p args cs hcs _ _ _ .start rfl
  have hw : (args.word 0).toOption.map Word.toNat = some 0x10021 := by decide +kernel
  have hd : (Cursor.step args (Cursor.start [] []) .ref).toOption.map Cursor.position = some 1 := by
    decide +kernel
  rw [hstep] at hd
  change args.word 0 = .ok w at hword
  rw [hword] at hw
  have hspelled : w.toNat = 0x10021 := Option.some.inj hw
  have hreached : d.position = 1 := Option.some.inj hd
  rw [hspelled, hreached] at hoffset
  cases hoffset

end DataPath

end ClearSign
