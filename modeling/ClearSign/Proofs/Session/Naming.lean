import ClearSign.Proofs.Descriptor.Cache
import ClearSign.Proofs.Session.Reset

/-!
Which of the labels that a session was told answers for a value. The cache keeps the last labels
that came since all was dropped last, those for one value side by side, and the oldest of them is
found: a label that is told again, under another name, does not count until the old ones have made
room.
-/

namespace ClearSign

open Refusal

/-- What a label names: a value of an enumeration of a function of a contract on a chain. -/
def EnumLabel.subject (l : EnumLabel) : ChainId × Address × Selector × UInt8 × UInt8 :=
  (l.chain, l.contract, l.selector, l.id, l.value)

/-- Of a contract that no binding leads away from, the first label for a value is found. -/
theorem Cache.label?_subject {c : Cache} {l : EnumLabel}
    (h : c.implementation? l.chain l.contract l.selector = none) :
    c.label? l.chain l.contract l.selector l.id l.value =
      c.labels.find? fun l' => l'.subject = l.subject := by
  unfold label? resolve
  rw [h, Option.getD_none]
  congr 1
  funext l'
  rw [Bool.eq_iff_iff]
  simp only [Bool.and_eq_true, beq_iff_eq, decide_eq_true_eq, EnumLabel.subject, Prod.mk.injEq,
    and_assoc]

namespace Session

open ClearSign.Action

section

variable {device : Device} {s s' : Session}

/-- The label that a payload brings. -/
def labelIn (device : Device) : Command → Option Bytes → Option EnumLabel
  | .enumLabel, some payload => (EnumLabel.parse device.verifier payload).toOption
  | _, _ => none

/-- A payload that is handled brings its label, if it is one, and no other. -/
theorem handle_labels {command : Command} {payload : Bytes}
    (h : (handle device command payload).exec s = (.ok (), s')) :
    s'.cache.labels = (labelIn device command (some payload)).elim s.cache.labels
      fun l => (s.cache.addLabel l).labels := by
  have hkept (hkeeps : Keeps (fun s => s.cache.labels) (handle device command payload)) :
      s'.cache.labels = s.cache.labels := by
    have h' := hkeeps s
    rwa [h] at h'
  cases command with
  | field => exact hkept (keeps_handleField (fun _ _ _ => rfl) payload)
  | transactionInfo => exact hkept (keeps_handleInfo (fun _ _ _ => rfl) payload)
  | proxyBinding => exact hkept (keeps_handleBinding (fun _ => rfl) (fun _ _ => rfl) payload)
  | enumLabel =>
    obtain ⟨l, mid, hparsed, hadded⟩ := bind_answers.mp h
    obtain ⟨hparse, rfl⟩ := ofExcept_answers.mp hparsed
    cases hadded
    show _ = (EnumLabel.parse device.verifier payload).toOption.elim _ _
    rw [hparse]
    rfl

/-- The labels that were told, after one more operation. A command that is refused and cleaning up
drop all of them. -/
def toldNext (device : Device) (s : Session) (told : List EnumLabel) :
    Operation → List EnumLabel
  | .command command mark chunk =>
    if (s.run device command mark chunk).1 = .ok then
      told ++ (labelIn device command (s.completed device mark chunk)).toList
    else []
  | .cleanup => []
  | .begin _ | .park _ | .append _ | .roll => told

/-- The labels that were told in a run since all was dropped last, in the order they came in. -/
def told (device : Device) (ops : List Operation) : List EnumLabel :=
  (noted device (toldNext device) [] ops).2

theorem labels_step (s : Session) (told : List EnumLabel) (op : Operation)
    (h : s.cache.labels = told.rtake Cache.maxLabels) :
    (s.step device op).cache.labels = (toldNext device s told op).rtake Cache.maxLabels := by
  let part : Session → List EnumLabel := fun s => s.cache.labels
  have hpart : ∀ s review parked, part { s with review := review, parked := parked } = part s :=
    fun _ _ _ => rfl
  cases op with
  | begin t => exact (keeps_begin hpart t s).trans h
  | park data => exact h
  | append bs => exact (keeps_append hpart bs s).trans h
  | roll => exact h
  | cleanup => rfl
  | command command mark chunk =>
    show (s.run device command mark chunk).2.cache.labels = _
    rw [toldNext]
    obtain ⟨hrefused, challenge, hwiped⟩ | ⟨hok, hwaits, r, hsame⟩ |
      ⟨hok, -, payload, r, hcompleted, hdone⟩ := run_cases device command mark chunk s
    · rw [if_neg hrefused, hwiped]
      rfl
    · have hnone : labelIn device command none = none := by cases command <;> rfl
      rw [if_pos hok, hwaits, hsame, hnone, Option.toList_none, List.append_nil]
      exact h
    · rw [if_pos hok, hcompleted, handle_labels hdone]
      cases labelIn device command (some payload) with
      | none =>
        rw [Option.toList_none, List.append_nil]
        exact h
      | some l =>
        show Cache.enqueue Cache.maxLabels s.cache.labels l = _
        rw [h]
        exact Cache.enqueue_rtake 31 told l

/-- The cache keeps the labels that were told last, whatever they name. -/
theorem labels_after (device : Device) (ops : List Operation) :
    (after device ops).cache.labels = (told device ops).rtake Cache.maxLabels :=
  noted_keeps (fun s (told : List EnumLabel) => s.cache.labels = told.rtake Cache.maxLabels) rfl
    labels_step ops

end

/-- Where no binding leads away from its contract, a label is kept until thirty-two more have come,
and its value has a name till then: that of the oldest label for the value that is kept. So the
value goes by the label itself just if no older one is kept that gives another name. -/
theorem oldest_label_answers (device : Device) (ops : List Operation) (older later : List EnumLabel)
    (l : EnumLabel) (htold : told device ops = older ++ l :: later) (hroom : later.length < 32)
    (hdirect : (after device ops).cache.implementation? l.chain l.contract l.selector = none) :
    let held := (older.rtake (31 - later.length)).find? fun l' => l'.subject = l.subject
    let answer := (after device ops).cache.label? l.chain l.contract l.selector l.id l.value
    answer = some (held.getD l) ∧
      (answer.map EnumLabel.name = some l.name ↔ ∀ l', held = some l' → l'.name = l.name) := by
  intro held answer
  have hanswer : answer = some (held.getD l) := by
    show Cache.label? _ _ _ _ _ _ = _
    rw [Cache.label?_subject hdirect, labels_after, htold]
    have hwindow := rtake_append_cons older l (Nat.le_of_lt_succ hroom)
    rw [show Cache.maxLabels = 31 + 1 from rfl, hwindow, List.find?_append,
      List.find?_cons_of_pos (by simp)]
    show held.or (some l) = _
    cases held <;> rfl
  refine ⟨hanswer, ?_⟩
  rw [hanswer]
  cases held <;> simp

open Tlv in
/-- A name for a number of the fifth enumeration of a function. -/
def sampleLabel (value name : UInt8) : Operation :=
  whole .enumLabel (write 0 [1] ++ write 1 [1] ++ write 2 [7] ++ write 3 [1, 2, 3, 4] ++
    write 4 [5] ++ write 5 [value] ++ write 6 [name] ++ write 0xff [])

/-- The label that `sampleLabel` brings. -/
def sampleName (value : UInt8) (name : String) : EnumLabel :=
  ⟨1, Fixed.align 20 [7], Fixed.align 4 [1, 2, 3, 4], 5, value, name⟩

/-- Of three names for the number two, told after one for the number three, the first is the one
that answers where the second is asked for. -/
theorem oldest_label_answers_between :
    let device := sampleDevice .transaction
    let ops := [sampleLabel 3 97, sampleLabel 2 98, sampleLabel 2 99, sampleLabel 2 100]
    let answer := (after device ops).cache.label? 1 (Fixed.align 20 [7])
      (Fixed.align 4 [1, 2, 3, 4]) 5 2
    answer = some (sampleName 2 "b") ∧ answer.map EnumLabel.name ≠ some "c" := by
  intro device ops answer
  obtain ⟨hanswer, hown⟩ := oldest_label_answers device ops [sampleName 3 "a", sampleName 2 "b"]
    [sampleName 2 "d"] (sampleName 2 "c") (by decide +kernel) (by decide) (by decide +kernel)
  have holder : ([sampleName 3 "a", sampleName 2 "b"].rtake 30).find?
      (fun l => l.subject = (sampleName 2 "c").subject) = some (sampleName 2 "b") := by
    decide +kernel
  constructor
  · exact hanswer.trans (congrArg (fun held => some (held.getD (sampleName 2 "c"))) holder)
  · intro hname
    exact absurd (hown.mp hname (sampleName 2 "b") holder) (by decide)

/-- The number is told a second name, and still goes by the first. -/
theorem not_last_label_answers :
    ¬ ∀ (device : Device) (ops : List Operation) (older later : List EnumLabel) (l : EnumLabel),
      told device ops = older ++ l :: later → later.length < 32 →
      (∀ l' ∈ later, l'.subject ≠ l.subject) →
      (after device ops).cache.implementation? l.chain l.contract l.selector = none →
      ((after device ops).cache.label? l.chain l.contract l.selector l.id l.value).map
        EnumLabel.name = some l.name := by
  intro h
  have hname := h (sampleDevice .transaction) [sampleLabel 2 98, sampleLabel 2 99]
    [sampleName 2 "b"] [] (sampleName 2 "c") (by decide +kernel) (by decide) (by simp)
    (by decide +kernel)
  revert hname
  decide +kernel

end Session

end ClearSign
