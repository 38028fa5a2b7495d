import Slurmy.Batch.Call
import Slurmy.Monitor.Summaries

/-!
# What the monitor shows of a call

`call.sh` decides on the status of a pair; both summaries of the monitor correct it again.

* `corrected_call`, `normalized_call`: what the corrections do to the row of a call;
* `Call.Plain`: measured values without separators, as `runsolver` writes them;
* `decided_shown_iff`: when the summaries count what `call.sh` has decided.
-/

namespace Slurmy
namespace Summaries

open Batch (Call Evidence Status ResultRow tableOf isWordChar)
open TaskPages (lower)

/-! ### The corrections -/

section Corrections

variable {e : Evidence} {c : Call}

theorem text_solverError {status : Status} : status.text = solverError ↔ status = .solverError := by
  constructor
  · intro h
    cases status with
    | solverError => rfl
    | _ => exact absurd h (by decide)
  · rintro rfl
    rfl

/-- What is wrong with a crash: the solver had said that there is a counter-model. -/
def Misread (c : Call) : Prop := c.evidence.Crashed ∧ lower c.evidence.szs = "countersatisfiable".toList

instance : Decidable (Misread c) := by
  unfold Misread
  infer_instance

/-- The same for awk, which has one spelling only. -/
def MisreadExactly (c : Call) : Prop := c.evidence.Crashed ∧ c.evidence.szs = "CounterSatisfiable".toList

instance : Decidable (MisreadExactly c) := by
  unfold MisreadExactly
  infer_instance

theorem awkStatus_row (c : Call) :
    awkStatus c.row = corrected c.evidence.status.text c.evidence.code c.evidence.szs := rfl

theorem statusOf_row (c : Call) : statusOf c.row = c.evidence.status.text := rfl

theorem szs_ne_timeout (h : lower e.szs ≠ "timeout".toList) : e.szs ≠ "Timeout".toList :=
  fun heq => h (by rw [heq]; decide)

/-- awk keeps the decision, but for crashes with `CounterSatisfiable`. -/
theorem corrected_call (c : Call) :
    awkStatus c.row = if MisreadExactly c then counterSatisfiable else c.evidence.status.text := by
  rw [awkStatus_row]
  by_cases hstatus : c.evidence.status = .solverError
  · obtain ⟨htimeout, hcases⟩ := Evidence.solverError_cases hstatus
    have htext : c.evidence.status.text = solverError := text_solverError.mpr hstatus
    rw [htext, corrected_solverError, if_neg (szs_ne_timeout htimeout), leadingNumber_of_isDigits c.evidence.isDigits_code]
    by_cases hexact : c.evidence.szs = "CounterSatisfiable".toList
    · have hcrashed : c.evidence.Crashed := by
        refine ⟨hstatus, hcases.resolve_right fun h => h.1 ?_⟩
        rw [hexact]
        decide
      have hmisread : MisreadExactly c := ⟨hcrashed, hexact⟩
      rw [if_pos hexact, if_pos hmisread]
    · have hnot : ¬ MisreadExactly c := fun h => hexact h.2
      rw [if_neg hexact, if_neg hnot, if_neg]
      rintro ⟨hne, hcode, hword, -, -⟩
      rcases hcases with hlarge | ⟨-, hmem | hnil⟩
      · have hnumber := Evidence.le_number hlarge
        omega
      · exact hword hmem
      · exact hne hnil
  · have hnot : ¬ MisreadExactly c := fun h => hstatus h.1.1
    rw [corrected_of_ne (mt text_solverError.mp hstatus), if_neg hnot]

/-- `normalize_szs_result` keeps the decision, but for crashes with a counter-model in whatever spelling. -/
theorem normalized_call (asFloat : Text → Option ℚ) (c : Call) :
    pythonStatus asFloat c.row = if Misread c then counterSatisfiable else c.evidence.status.text := by
  have hcode : codeOf c.row = c.evidence.code := rfl
  have hszs : szsOf c.row = c.evidence.szs := rfl
  by_cases hstatus : c.evidence.status = .solverError
  · obtain ⟨htimeout, hcases⟩ := Evidence.solverError_cases hstatus
    have htext : statusOf c.row = solverError := text_solverError.mpr hstatus
    have hsolver : c.evidence.status.text = solverError := htext
    rw [pythonStatus, status_normalized asFloat c.row htext, hszs, hcode, if_neg htimeout, hsolver]
    by_cases hcounter : lower c.evidence.szs = "countersatisfiable".toList
    · have hmisread : Misread c := ⟨⟨hstatus, hcases.resolve_right fun h => h.1 hcounter⟩, hcounter⟩
      rw [if_pos hcounter, if_pos hmisread]
    · have hnot : ¬ Misread c := fun h => hcounter h.2
      rw [if_neg hcounter, if_neg hnot, if_neg]
      rintro ⟨hne, -, hsmall, hword⟩
      rcases hcases with hlarge | ⟨-, hmem | hnil⟩
      · have hnumber := Evidence.le_number hlarge
        omega
      · exact hword hmem
      · rw [hnil] at hne
        exact hne rfl
  · have hnot : ¬ Misread c := fun h => hstatus h.1.1
    have hne : (recordOf asFloat c.row).status ≠ solverError := mt text_solverError.mp hstatus
    rw [pythonStatus, normalizeSzsResult, if_pos hne, if_neg hnot]
    rfl

end Corrections

/-! ### Rows of calls -/

/-- A text without separators. -/
def Unseparated (t : Text) : Prop := ',' ∉ t ∧ '"' ∉ t ∧ '\n' ∉ t

instance (t : Text) : Decidable (Unseparated t) := by
  unfold Unseparated
  infer_instance

/-- The measured values have no separators, the key and the ID of SLURM are words, and Python's reader takes all fields. -/
structure PlainCall (c : Call) : Prop where
  measured : ∀ t ∈ [c.wall, c.cpu, c.user, c.system, c.cpuUsage, c.maxVm, c.memory], Unseparated t
  timedOut : Unseparated c.evidence.timedOut
  memoryOut : Unseparated c.evidence.memoryOut
  taskKey : ∀ ch ∈ c.taskKey, isWordChar ch = true
  slurmId : ∀ ch ∈ c.slurmId, isWordChar ch = true
  short : ∀ f ∈ c.row.fields, f.length ≤ Csv.fieldLimit

section Rows

variable {c : Call}

theorem unseparated_word {t : Text} (h : ∀ ch ∈ t, isWordChar ch = true) : Unseparated t :=
  ⟨fun hmem => absurd (h _ hmem) (by decide), fun hmem => absurd (h _ hmem) (by decide),
    fun hmem => absurd (h _ hmem) (by decide)⟩

theorem word_decimal (n : ℕ) : ∀ ch ∈ decimal n, isWordChar ch = true := by
  intro ch hch
  have hdigit := isDigit_of_mem_decimal hch
  simp [isWordChar, Char.isAlphanum, hdigit]

theorem word_padded (w n : ℕ) : ∀ ch ∈ padded w n, isWordChar ch = true := by
  intro ch hch
  have hdigit := isDigit_of_mem_padded hch
  simp [isWordChar, Char.isAlphanum, hdigit]

theorem word_status (status : Status) : ∀ ch ∈ status.text, isWordChar ch = true := by
  cases status <;> exact List.all_eq_true.mp (by decide)

theorem word_code (e : Evidence) : ∀ ch ∈ e.code, isWordChar ch = true := by
  intro ch hch
  have hdigits := e.isDigits_code
  rw [isDigits, Bool.and_eq_true] at hdigits
  have hdigit := List.all_eq_true.mp hdigits.2 ch hch
  simp [isWordChar, Char.isAlphanum, hdigit]

theorem unseparated_orFalse {t : Text} (h : Unseparated t) : Unseparated (Call.orFalse t) := by
  unfold Call.orFalse
  split_ifs
  · exact unseparated_word (List.all_eq_true.mp (by decide))
  · exact h

/-- The characters of the name of the archive. -/
theorem mem_archive (h : PlainCall c) : ∀ ch ∈ c.archive, isWordChar ch = true ∨ ch = '.' := by
  have hword {t : Text} (ht : ∀ ch ∈ t, isWordChar ch = true) : ∀ ch ∈ t, isWordChar ch = true ∨ ch = '.' :=
    fun ch hch => .inl (ht ch hch)
  unfold Call.archive
  simp only [List.forall_mem_append, List.forall_mem_cons]
  refine ⟨⟨⟨⟨⟨⟨⟨hword ?_, hword (word_decimal _)⟩, hword ?_⟩, hword (word_padded _ _)⟩, .inl (by decide),
    hword h.taskKey⟩, .inl (by decide), hword h.slurmId⟩, .inl (by decide), hword (word_decimal _)⟩, ?_⟩
  · exact List.all_eq_true.mp (by decide)
  · exact List.all_eq_true.mp (by decide)
  · exact List.all_iff_forall_prop.mp (by decide)

/-- The row of such a call is plain. -/
theorem plainRow_row (h : PlainCall c) : PlainRow c.row where
  fields := by
    have harchive : Unseparated c.archive := by
      refine ⟨fun hmem => ?_, fun hmem => ?_, fun hmem => ?_⟩ <;>
      · rcases mem_archive h _ hmem with hch | hch <;> exact absurd hch (by decide)
    have hmeasured := h.measured
    simp only [List.forall_mem_cons, List.not_mem_nil, false_imp_iff, implies_true, and_true] at hmeasured
    obtain ⟨hwall, hcpu, huser, hsystem, husage, hvm, hmemory⟩ := hmeasured
    have hall : ∀ f ∈ c.row.rest, Unseparated f := by
      simp only [Call.row, List.forall_mem_cons, List.not_mem_nil, false_imp_iff, implies_true, and_true]
      exact ⟨unseparated_word (word_status _), unseparated_word (word_code _), hwall, hcpu, huser, hsystem, husage, hvm,
        hmemory, unseparated_orFalse h.timedOut, unseparated_orFalse h.memoryOut, unseparated_word h.taskKey, harchive,
        unseparated_word (Evidence.found_word _ _), unseparated_word (Evidence.found_word _ _)⟩
    exact hall
  status := word_status _
  szs := Evidence.found_word _ _
  code := c.evidence.isDigits_code
  archive ch hch := by
    rcases mem_archive h ch hch with hword | rfl
    · exact isSpace_of_isWordChar hword
    · decide
  short := h.short

end Rows

/-! ### The counts -/

section Decided

variable {tables : List (List Call)} (awk : Awk) (asFloat : Text → Option ℚ)

/-- The calls that count: the last one of each pair. -/
def lastCalls (tables : List (List Call)) : List Call :=
  (tables.flatten.foldl (fun found c => Dict.put found c.taskId c) []).map Prod.snd

/-- The tables that the calls leave. -/
def callTables (tables : List (List Call)) : List (List ResultRow) := tables.map fun calls => calls.map Call.row

/-- The number of calls with a status, among those that are complete or those that are not. -/
def decided (complete : Bool) (calls : List Call) (status : Text) : ℤ :=
  ((calls.filter fun c => c.evidence.status.complete == complete && decide (c.evidence.status.text = status)).length : ℤ)

theorem counting_callTables (tables : List (List Call)) : counting (callTables tables) = (lastCalls tables).map Call.row := by
  have hflatten : (callTables tables).flatten = tables.flatten.map Call.row := by
    rw [callTables, List.map_flatten]
  have hfold : ∀ (calls : List Call) (found : List (ℕ × Call)),
      (calls.map Call.row).foldl (fun found r => Dict.put found r.taskId r) (Dict.mapValues Call.row found) =
        Dict.mapValues Call.row (calls.foldl (fun found c => Dict.put found c.taskId c) found) := by
    intro calls
    induction calls with
    | nil => exact fun _ => rfl
    | cons c calls ih =>
      intro found
      rw [List.map_cons, List.foldl_cons, List.foldl_cons, ← ih, Dict.mapValues_put]
      rfl
  have hlatest : Export.latestRows (tables.flatten.map Call.row) =
      Dict.mapValues Call.row (tables.flatten.foldl (fun found c => Dict.put found c.taskId c) []) := hfold tables.flatten []
  rw [counting, hflatten, hlatest, lastCalls, Dict.mapValues, List.map_map, List.map_map]
  rfl

theorem plain_callTables (h : ∀ calls ∈ tables, ∀ c ∈ calls, PlainCall c) :
    ∀ rows ∈ callTables tables, ∀ r ∈ rows, PlainRow r := by
  intro rows hrows r hr
  obtain ⟨calls, hcalls, rfl⟩ := List.mem_map.mp hrows
  obtain ⟨c, hc, rfl⟩ := List.mem_map.mp hr
  exact plainRow_row (h calls hcalls c hc)

theorem numberOf_decided (calls : List Call) (complete : Bool) (q : ResultRow → Bool)
    (hq : ∀ c, q (Call.row c) = (c.evidence.status.complete == complete)) (status : Text) :
    numberOf q statusOf (calls.map Call.row) status = decided complete calls status := by
  unfold numberOf decided
  rw [List.filter_map, List.length_map]
  refine congrArg (fun l : List Call => (l.length : ℤ)) (List.filter_congr fun c _ => ?_)
  rw [Function.comp_apply, hq, statusOf_row]

/-- A correction that only takes away errors shows in the counts. -/
theorem numbers_eq_iff (calls : List Call) (shown : ResultRow → Text) {changed : Call → Prop} [DecidablePred changed]
    (hshown : ∀ c, shown c.row = if changed c then counterSatisfiable else c.evidence.status.text)
    (hchanged : ∀ c, changed c → c.evidence.status = .solverError) :
    ((∀ status, numberOf ResultRow.complete shown (calls.map Call.row) status = decided true calls status) ∧
      ∀ status, numberOf (fun r => !r.complete) shown (calls.map Call.row) status = decided false calls status) ↔
    ∀ c ∈ calls, ¬ changed c := by
  have hstatus (c : Call) : shown c.row ≠ statusOf c.row ↔ changed c := by
    rw [hshown, statusOf_row]
    by_cases hc : changed c
    · have hne : counterSatisfiable ≠ c.evidence.status.text := by
        rw [text_solverError.mpr (hchanged c hc)]
        decide
      rw [if_pos hc]
      exact iff_of_true hne hc
    · rw [if_neg hc]
      exact iff_of_false (fun hne => hne rfl) hc
  -- a correction takes an error away and makes none
  have hnested : ∀ r ∈ calls.map Call.row, statusOf r ≠ shown r → statusOf r = solverError ∧ shown r ≠ solverError := by
    intro r hr hne
    obtain ⟨c, -, rfl⟩ := List.mem_map.mp hr
    have hc := (hstatus c).mp hne.symm
    refine ⟨text_solverError.mpr (hchanged c hc), ?_⟩
    rw [hshown, if_pos hc]
    decide
  have hcomplete := numbers_congr_iff ResultRow.complete hnested
  have hrest := numbers_congr_iff (fun r => !r.complete) hnested
  -- the counts of all rows, and the counts of what has been decided
  have hcompleteNumber := numberOf_decided calls true ResultRow.complete fun c => by
    show c.evidence.status.complete = (c.evidence.status.complete == true)
    cases c.evidence.status.complete <;> rfl
  have hrestNumber := numberOf_decided calls false (fun r => !r.complete) fun c => by
    show (!c.evidence.status.complete) = (c.evidence.status.complete == false)
    cases c.evidence.status.complete <;> rfl
  simp only [hcompleteNumber, hrestNumber] at hcomplete hrest
  constructor
  · rintro ⟨hcomplete', hrest'⟩ c hc hchange
    have hmem : c.row ∈ calls.map Call.row := List.mem_map_of_mem hc
    refine (hstatus c).mpr hchange (Eq.symm ?_)
    cases hq : c.row.complete with
    | true => exact hcomplete.mp (fun status => (hcomplete' status).symm) c.row hmem hq
    | false => exact hrest.mp (fun status => (hrest' status).symm) c.row hmem (by rw [hq]; rfl)
  · intro hnone
    have hsame : ∀ r ∈ calls.map Call.row, statusOf r = shown r := by
      intro r hr
      obtain ⟨c, hc, rfl⟩ := List.mem_map.mp hr
      by_contra hne
      exact hnone c hc ((hstatus c).mp (Ne.symm hne))
    exact ⟨fun status => (hcomplete.mpr (fun r hr _ => hsame r hr) status).symm,
      fun status => (hrest.mpr (fun r hr _ => hsame r hr) status).symm⟩

/-- Both summaries have as many complete pairs as `call.sh` has decided on.  The summary of awk counts the statuses that
`call.sh` has decided on exactly when no call that counts is a crash with the SZS status `CounterSatisfiable`; the one of
the rows exactly when none is a crash with that status in any spelling. -/
theorem decided_shown_iff (hplain : ∀ calls ∈ tables, ∀ c ∈ calls, PlainCall c) :
    ∃ overview results, parseSummary (awk.output ((callTables tables).map tableOf)) = some overview ∧
      detailedResults asFloat ((callTables tables).map tableOf) = some results ∧
      overview.completed = (((lastCalls tables).filter fun c => c.evidence.status.complete).length : ℤ) ∧
      (summarizeResults results).completed = overview.completed ∧
      (((∀ status, Counter.count overview.statusCounts status = decided true (lastCalls tables) status) ∧
        ∀ status, Counter.count overview.unresolvedCounts status = decided false (lastCalls tables) status) ↔
        ∀ c ∈ lastCalls tables, ¬ MisreadExactly c) ∧
      (((∀ status, Counter.count (summarizeResults results).statusCounts status =
          decided true (lastCalls tables) status) ∧
        ∀ status, Counter.count (summarizeResults results).unresolvedCounts status =
          decided false (lastCalls tables) status) ↔
        ∀ c ∈ lastCalls tables, ¬ Misread c) := by
  obtain ⟨overview, hoverview, -, hcompleted, hstatus, hunresolved⟩ := overview_counts awk (plain_callTables hplain)
  obtain ⟨results, hresults, hcompleted', hstatus', hunresolved', -⟩ := detail_counts asFloat (plain_callTables hplain)
  rw [counting_callTables] at hcompleted hcompleted'
  simp only [counting_callTables] at hstatus hunresolved hstatus' hunresolved'
  refine ⟨overview, results, hoverview, hresults, ?_, hcompleted'.trans hcompleted.symm, ?_, ?_⟩
  · rw [hcompleted, List.filter_map, List.length_map]
    rfl
  · simp only [hstatus, hunresolved]
    exact numbers_eq_iff (lastCalls tables) awkStatus corrected_call fun c h => h.1.1
  · simp only [hstatus', hunresolved']
    exact numbers_eq_iff (lastCalls tables) (pythonStatus asFloat) (normalized_call asFloat) fun c h => h.1.1

def sampleCall (task : ℕ) (child log : String) : Call where
  evidence := ⟨false, 0, some ("Child status: " ++ child ++ "\n").toList, some "TIMEOUT=false\nMEMOUT=false\n".toList,
    [log.toList]⟩
  taskId := task
  taskKey := "0a1b".toList
  batchId := 0
  slurmId := "17".toList
  ended := 1700000000
  wall := "1.5".toList
  cpu := "1.4".toList
  user := "1.3".toList
  system := "0.1".toList
  cpuUsage := "93".toList
  maxVm := "2048".toList
  memory := "1024".toList

/-- A pair that was tried twice, and one whose solver crashed after it had found a counter-model. -/
def sampleCalls : List (List Call) :=
  [[sampleCall 0 "1" "", sampleCall 1 "139" "% SZS status CounterSatisfiable for a\n"],
    [sampleCall 0 "0" "% SZS status Theorem for b\n"]]

theorem plainCall_sampleCalls : ∀ calls ∈ sampleCalls, ∀ c ∈ calls, PlainCall c := by
  simp only [sampleCalls, List.forall_mem_cons, List.not_mem_nil, false_imp_iff, implies_true, and_true]
  refine ⟨⟨?_, ?_⟩, ?_⟩ <;>
  · constructor
    case measured => decide +kernel
    case timedOut => decide +kernel
    case memoryOut => decide +kernel
    case taskKey => exact List.all_eq_true.mp (by decide +kernel)
    case slurmId => exact List.all_eq_true.mp (by decide +kernel)
    case short => decide +kernel

theorem decided_shown_sample : ∃ overview results,
    parseSummary (backwards.output ((callTables sampleCalls).map tableOf)) = some overview ∧
      detailedResults (fun _ => none) ((callTables sampleCalls).map tableOf) = some results ∧
      overview.completed = (((lastCalls sampleCalls).filter fun c => c.evidence.status.complete).length : ℤ) ∧
      (summarizeResults results).completed = overview.completed ∧
      (((∀ status, Counter.count overview.statusCounts status = decided true (lastCalls sampleCalls) status) ∧
        ∀ status, Counter.count overview.unresolvedCounts status = decided false (lastCalls sampleCalls) status) ↔
        ∀ c ∈ lastCalls sampleCalls, ¬ MisreadExactly c) ∧
      (((∀ status, Counter.count (summarizeResults results).statusCounts status =
          decided true (lastCalls sampleCalls) status) ∧
        ∀ status, Counter.count (summarizeResults results).unresolvedCounts status =
          decided false (lastCalls sampleCalls) status) ↔
        ∀ c ∈ lastCalls sampleCalls, ¬ Misread c) :=
  decided_shown_iff backwards (fun _ => none) plainCall_sampleCalls

/-- The crash is one that both misread. -/
example : ((lastCalls sampleCalls).map fun c => decide (MisreadExactly c)) = [false, true] := by decide +kernel

end Decided

end Summaries
end Slurmy
