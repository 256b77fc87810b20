import ClearSign.Proofs.Field.NestedCalls
import ClearSign.Proofs.Field.Showing
import ClearSign.Proofs.Review.Telling
import ClearSign.Proofs.Session.Absorption
import ClearSign.Proofs.Session.LegChain

/-!
Which rows close an intent. A row is marked by whether the current call is complete at the moment
when it is shown, so the rows of one field are marked alike, and those of a call that is flushed
are marked for the call that is current.
-/

namespace ClearSign

open Refusal

namespace Row

@[simp] theorem endsIntent_make_intent (key value : String) (extra : Option Extra) (closes : Bool) :
    (make .intent key value extra closes).endsIntent = false := rfl

@[simp] theorem endsIntent_make_param (kind : ParamKind) (key value : String)
    (extra : Option Extra) (closes : Bool) :
    (make (.param kind) key value extra closes).endsIntent = closes := rfl

/-- None of the rows closes an intent, the last one apart. -/
def OnlyLastCloses (rows : List Row) : Prop := ∀ row ∈ rows.dropLast, row.endsIntent = false

/-- The last of the rows closes an intent just if the intent is complete; no other row does. -/
structure ClosesLast (complete : Prop) (rows : List Row) : Prop where
  others : OnlyLastCloses rows
  last : ∀ row ∈ rows.getLast?, row.endsIntent = true ↔ complete

theorem onlyLastCloses_iff {rows : List Row} {marks : List Bool}
    (hmarks : rows.map Row.endsIntent = marks) :
    OnlyLastCloses rows ↔ ∀ mark ∈ marks.dropLast, mark = false := by
  rw [← hmarks, ← List.map_dropLast, List.forall_mem_map]
  rfl

/-- Rows that are marked alike close an intent as they should just if a complete one has no more
than one of them. -/
theorem closesLast_iff {complete : Prop} {rows : List Row}
    (halike : ∀ row ∈ rows, row.endsIntent = true ↔ complete) :
    ClosesLast complete rows ↔ (complete → rows.length ≤ 1) := by
  constructor
  · intro hcloses hcomplete
    by_contra hmore
    obtain ⟨row, hrow⟩ := List.exists_mem_of_length_pos (l := rows.dropLast)
      (by rw [List.length_dropLast]; omega)
    have hopen := hcloses.others row hrow
    rw [(halike row ((List.dropLast_sublist rows).subset hrow)).mpr hcomplete] at hopen
    cases hopen
  · intro hone
    refine ⟨?_, fun row hrow => halike row (List.mem_of_mem_getLast? hrow)⟩
    intro row hrow
    have hmore := List.length_pos_of_mem hrow
    rw [List.length_dropLast] at hmore
    rw [← Bool.not_eq_true, halike row ((List.dropLast_sublist rows).subset hrow)]
    intro hcomplete
    have := hone hcomplete
    omega

end Row

namespace CallStack

variable {s : CallStack} {slot : Nat}

theorem isVerified_leave (h : s.current ≠ some slot) :
    (s.leave slot).isVerified = s.isVerified := by
  have hcall : (s.leaveAll [slot]).currentCall = s.currentCall := by
    apply currentCall_leaveAll
    rintro i hi hmem
    rw [hi, List.mem_singleton.mp hmem] at h
    exact h rfl
  unfold isVerified
  rw [← hcall]
  rfl

end CallStack

namespace Review

open ClearSign.Action

variable {host : Host} {r r' : Review}

/-- The row that announces a call closes an intent if it opens none. -/
theorem addIntent_marks {operation : String}
    (h : (addIntent host operation).exec r = (.ok (), r')) :
    ∃ row : Row, row.endsIntent = (r.calls.batchSize == 1 && r.calls.isVerified) ∧
      r' = { r with table := r.table ++ [row] } := by
  unfold addIntent at h
  rw [exec_get_bind] at h
  refine ⟨_, ?_, addRow_makes h⟩
  by_cases hlone : r.calls.batchSize = 1 <;> simp [hlone]

theorem addDestination_marks {c : Call} (h : (addDestination host c).exec r = (.ok (), r')) :
    ∃ row : Row, row.endsIntent = r.calls.isVerified ∧
      r' = { r with table := r.table ++ [row] } := by
  unfold addDestination at h
  split at h
  · exact ⟨_, Row.endsIntent_make_param .., addRow_makes h⟩
  · exact ⟨_, Row.endsIntent_make_param .., addRow_makes h⟩

/-- The marks of the rows for a call without arguments: whether it came alone in its batch, whether
it sends an amount, and whether the current call is complete. -/
def legMarks (lone sends complete : Bool) : List Bool :=
  (lone && complete) :: if sends then [complete, complete] else [complete]

theorem describe_marks {slot : Nat} (h : (describe host slot).exec r = (.ok (), r')) :
    ∃ leg rows, r.calls.call? slot = some leg ∧ LegRows host leg rows ∧
      r'.table = r.table ++ rows ∧ rows.map Row.endsIntent =
        legMarks (r.calls.batchSize == 1) leg.amount.isSome (r.calls.leave slot).isVerified := by
  obtain ⟨leg, rows, hleg, hrows, rfl⟩ := describe_answers h
  refine ⟨leg, rows, hleg, hrows, rfl, ?_⟩
  -- what follows the table is the same however the step is taken apart
  have hmarks (marked : List Row) (htable : r.table ++ rows = r.table ++ marked) :
      rows.map Row.endsIntent = marked.map Row.endsIntent := by
    rw [List.append_cancel_left htable]
  unfold describe at h
  simp only [exec_get_bind, hleg, exec_set_bind] at h
  cases hamount : leg.amount with
  | none =>
    simp only [hamount, bind_answers] at h
    obtain ⟨⟨⟩, _, hannounce, haddress⟩ := h
    obtain ⟨intent, hintent, rfl⟩ := addIntent_marks hannounce
    obtain ⟨payee, hpayee, hlast⟩ := addDestination_marks haddress
    rw [hmarks [intent, payee] (by simpa using congrArg table hlast), List.map_cons, hintent,
      List.map_singleton, hpayee]
    rfl
  | some amount =>
    simp only [hamount, exec_get_bind, bind_answers, ofExcept_answers] at h
    obtain ⟨chain, _, ⟨-, rfl⟩, ⟨⟩, _, hannounce, ⟨⟩, _, hshow, haddress⟩ := h
    obtain ⟨intent, hintent, rfl⟩ := addIntent_marks hannounce
    have hshown := addRow_makes hshow
    subst hshown
    obtain ⟨payee, hpayee, hlast⟩ := addDestination_marks haddress
    rw [hmarks [intent, _, payee] (by simpa using congrArg table hlast), List.map_cons, hintent,
      List.map_cons, Row.endsIntent_make_param, List.map_singleton, hpayee]
    rfl

/-- Of those rows the last one alone closes an intent, unless the current call is complete and
either an amount is sent or the call came alone. -/
theorem onlyLast_legMarks (lone sends complete : Bool) :
    (∀ mark ∈ (legMarks lone sends complete).dropLast, mark = false) ↔
      (complete = true → sends = false ∧ lone = false) := by
  cases lone <;> cases sends <;> cases complete <;> decide

end Review

namespace Field

open ClearSign.Action

variable {host : Host} {cache : Cache} {field : Field} {r r' : Review}

/-- A field that opens calls shows no rows. -/
theorem format_opens_table {p : Param.NestedCall} (hparam : field.param = .calldata p)
    (h : (field.format host cache).exec r = (.ok (), r')) : r'.table = r.table := by
  rw [exec_format_calldata hparam] at h
  split at h
  · rw [exec_openCalls] at h
    exact (opens_forM (fun _ _ _ => True) (fun _ _ _ _ => trivial) h).1
  · cases h

/-- The rows of a field are marked alike. -/
theorem format_marks (h : (field.format host cache).exec r = (.ok (), r')) {rows : List Row}
    (htable : r'.table = r.table ++ rows) : ∀ row ∈ rows, row.endsIntent = r.calls.isVerified := by
  intro row hrow
  by_cases hkind : field.param.kind = .calldata
  · obtain ⟨p, hparam⟩ : ∃ p, field.param = .calldata p := by
      cases hparam : field.param <;> simp_all [Param.kind]
    rw [format_opens_table hparam h, List.self_eq_append_right] at htable
    rw [htable] at hrow
    cases hrow
  · cases hcells : field.param.cells ⟨host, cache, r.calls.currentCall⟩ field with
    | error e =>
      rw [exec_format_refused hkind hcells] at h
      cases h
    | ok cells =>
      rw [exec_format hkind hcells, exec_forM_addCell, Prod.mk.injEq] at h
      obtain ⟨-, rfl⟩ := h
      rw [← List.append_cancel_left htable, List.mem_map] at hrow
      obtain ⟨c, -, rfl⟩ := hrow
      rfl

end Field

namespace Session

open CallStack

variable {device : Device} {s : Session} {payload : Bytes} {c : Call} {rows : List Row}

/-- A call that has met one field more has met all that its descriptor announces. -/
def CompletedBy (payload : Bytes) (c : Call) : Prop :=
  ∃ info, c.info = some info ∧ Call.fieldsDigest (c.absorbed ++ payload) = info.fieldsHash

/-- A payload is a field that is formatted to its end for the current call, and these are the rows
that it shows. -/
inductive ShowsField (device : Device) (s : Session) (payload : Bytes) : Call → List Row → Prop
  | formatted {field : Field} {slot : Nat} {c : Call} {r : Review} {rows : List Row}
    (hparse : Field.parse payload = .ok field) (hslot : s.review.calls.current = some slot)
    (hcall : s.review.calls.call? slot = some c)
    (hformat : (field.format device.toHost s.cache).exec
      ⟨s.review.calls.modifyAt slot (Call.withField payload), s.review.table⟩ = (.ok (), r))
    (htable : r.table = s.review.table ++ rows) : ShowsField device s payload c rows

theorem ShowsField.marks (h : ShowsField device s payload c rows) :
    ∀ row ∈ rows, row.endsIntent = true ↔ CompletedBy payload c := by
  obtain ⟨-, hslot, hcall, hformat, htable⟩ := h
  intro row hrow
  rw [Field.format_marks hformat htable row hrow]
  unfold isVerified
  rw [currentCall_modifyAt hslot hcall, Option.any_some, Call.isVerified_iff]
  rfl

/-- A field that completes its payload and is answered well shows its rows first; after them come
those of the calls that leave. -/
theorem showsField_of_run {mark : UInt8} {chunk : Bytes}
    (hpayload : s.completed device mark chunk = some payload)
    (hrun : (s.run device .field mark chunk).1 = .ok) :
    ∃ c rows more, ShowsField device s payload c rows ∧
      (s.run device .field mark chunk).2.review.table = s.review.table ++ rows ++ more := by
  rcases run_cases device .field mark chunk s with ⟨hrefused, -⟩ | ⟨-, hwaits, -⟩ |
    ⟨-, -, payload', r, hcompleted, hhandle⟩
  · exact absurd hrun hrefused
  · rw [hpayload] at hwaits
    cases hwaits
  · obtain rfl : payload = payload' := Option.some.inj (hpayload.symm.trans hcompleted)
    obtain ⟨field, slot, c, -, -, rows, formatted, hparse, hslot, hcall, -, hformat, -, htable,
      hsettle⟩ := handleField_stages hhandle
    obtain ⟨book, htells⟩ := Review.Tells.settle hsettle
    exact ⟨c, rows, book.rows, .formatted hparse hslot hcall hformat htable,
      by rw [htells.table, htable]⟩

/-- A call that is described while a payload is handled is not the current one. -/
theorem Leaves.not_current {slot : Nat} {r r' : Review} (h : Leaves device s slot r r') :
    r.calls.current ≠ some slot := by
  obtain @⟨start, r, -, done, rest, hflush, hdone, -⟩ := h
  rw [Review.forM_describe_calls hdone, current_leaveAll]
  have hslot : slot ∈ done ++ slot :: rest := by simp
  generalize done ++ slot :: rest = slots at hflush hslot
  intro hcurrent
  cases hflush with
  | before => exact notMem_emptyBefore hcurrent hslot
  | after => exact notMem_emptyAfter hcurrent hslot

/-- The marks of the rows for a call that is flushed are set for the call that is current: the
amount and the recipient are marked just if that call is complete, and so is the row that announces
the call, if it came alone in its batch. -/
theorem Leaves.marks {slot : Nat} {r r' : Review} (h : Leaves device s slot r r') :
    ∃ leg rows, r.calls.call? slot = some leg ∧ Review.LegRows device.toHost leg rows ∧
      r'.table = r.table ++ rows ∧ rows.map Row.endsIntent =
        Review.legMarks (r.calls.batchSize == 1) leg.amount.isSome r.calls.isVerified := by
  have hother := h.not_current
  obtain ⟨-, -, hdescribe⟩ := h
  obtain ⟨leg, rows, hleg, hrows, htable, hmarks⟩ := Review.describe_marks hdescribe
  rw [isVerified_leave hother] at hmarks
  exact ⟨leg, rows, hleg, hrows, htable, hmarks⟩

/-- A row closes an intent if the current call is complete when the row is shown. So each row of
a field closes one just if the field completes the call, and the field's last row alone does so
just if a field that completes the call has no more than one row. Of the rows for a call that is
flushed the last one alone closes an intent, unless the current call is complete and either an
amount is sent or the call came alone in its batch. -/
theorem closes_last_iff (device : Device) (ops : List Operation) :
    let s := after device ops
    (∀ mark chunk payload, s.completed device mark chunk = some payload →
      (s.run device .field mark chunk).1 = .ok →
      ∃ c rows more, ShowsField device s payload c rows ∧
        (s.run device .field mark chunk).2.review.table = s.review.table ++ rows ++ more ∧
        (∀ row ∈ rows, row.endsIntent = true ↔ CompletedBy payload c) ∧
        (Row.ClosesLast (CompletedBy payload c) rows ↔
          (CompletedBy payload c → rows.length ≤ 1))) ∧
    ∀ slot r r', Leaves device s slot r r' →
      ∃ leg rows, r.calls.call? slot = some leg ∧ Review.LegRows device.toHost leg rows ∧
        r'.table = r.table ++ rows ∧ rows.map Row.endsIntent =
          Review.legMarks (r.calls.batchSize == 1) leg.amount.isSome r.calls.isVerified ∧
        (Row.OnlyLastCloses rows ↔
          (r.calls.isVerified = true → leg.amount = none ∧ r.calls.batchSize ≠ 1)) := by
  intro s
  constructor
  · intro mark chunk payload hpayload hrun
    obtain ⟨c, rows, more, hshows, htable⟩ := showsField_of_run hpayload hrun
    exact ⟨c, rows, more, hshows, htable, hshows.marks, Row.closesLast_iff hshows.marks⟩
  · intro slot r r' hleaves
    obtain ⟨leg, rows, hleg, hrows, htable, hmarks⟩ := hleaves.marks
    refine ⟨leg, rows, hleg, hrows, htable, hmarks, ?_⟩
    rw [Row.onlyLastCloses_iff hmarks, Review.onlyLast_legMarks]
    simp

section

open Tlv

/-- A field that shows each number of a list, the first argument. -/
def sampleList : Bytes :=
  write 0 [1] ++ write 1 [97] ++ write 2 [0] ++ write 3 (write 0 [1] ++ write 1
    (write 0 [1] ++ write 1 [1] ++ write 3 (write 0 [1] ++ write 2 (write 1 [1]) ++ write 4 [3])))

/-- A call with a list of two numbers, and the descriptor that announces that field for it. -/
def sampleListed : List Operation :=
  sampleWords [2, 5, 6] (Call.fieldsDigest sampleList).bytes

end

/-- The field shows two rows, and both close the intent. -/
theorem showsField_list : ∃ c rows,
    ShowsField (sampleDevice .transaction) (after (sampleDevice .transaction) sampleListed)
      sampleList c rows ∧ rows.map Row.endsIntent = [true, true] := by
  let device := sampleDevice .transaction
  let s := after device sampleListed
  have hrun : ((Field.parse sampleList).toOption.any fun field =>
      (s.review.calls.call? 0).any fun c => decide (s.review.calls.current = some 0) &&
        decide (s.review.table = []) &&
        let shown := (field.format device.toHost s.cache).exec
          ⟨s.review.calls.modifyAt 0 (Call.withField sampleList), s.review.table⟩
        shown.1.isOk && decide (shown.2.table.map Row.endsIntent = [true, true])) = true := by
    decide +kernel
  obtain ⟨field, hparse, hrun⟩ := (Option.any_eq_true _ _).mp hrun
  obtain ⟨c, hcall, hrun⟩ := (Option.any_eq_true _ _).mp hrun
  simp only [Bool.and_eq_true, decide_eq_true_eq] at hrun
  obtain ⟨⟨hcurrent, hempty⟩, hok, hmarks⟩ := hrun
  rcases hformat : (field.format device.toHost s.cache).exec
      ⟨s.review.calls.modifyAt 0 (Call.withField sampleList), s.review.table⟩ with ⟨e | ⟨⟩, r⟩
  · rw [hformat] at hok
    cases hok
  · rw [hformat] at hmarks
    have htable : r.table = s.review.table ++ r.table := by rw [hempty, List.nil_append]
    have hshows : ShowsField device s sampleList c r.table :=
      .formatted (toOption_eq_some.mp hparse) hcurrent hcall hformat htable
    exact ⟨c, r.table, hshows, hmarks⟩

/-- Both rows of a field that completes its call close the intent. -/
theorem not_closes_last : ¬ ∀ (device : Device) (ops : List Operation) (mark : UInt8)
    (chunk payload : Bytes) (c : Call) (rows : List Row),
    (after device ops).completed device mark chunk = some payload →
    ((after device ops).run device .field mark chunk).1 = .ok →
    ShowsField device (after device ops) payload c rows →
    Row.ClosesLast (CompletedBy payload c) rows := by
  intro hall
  let device := sampleDevice .transaction
  let s := after device sampleListed
  let chunk := Bytes.ofNat 2 sampleList.length ++ sampleList
  have hrun : s.completed device Reassembly.firstMark chunk = some sampleList ∧
      (s.run device .field Reassembly.firstMark chunk).1 = .ok := by decide +kernel
  obtain ⟨hpayload, hok⟩ := hrun
  obtain ⟨c, rows, hshows, hmarks⟩ := showsField_list
  have hfirst := (Row.onlyLastCloses_iff hmarks).mp (hall _ _ _ _ _ _ _ hpayload hok hshows).others
  exact absurd (hfirst true (by simp)) (by decide)

end Session
end ClearSign
