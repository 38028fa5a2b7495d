import Mathlib.Data.Finset.Card
import Mathlib.Data.Finset.Dedup
import Mathlib.Data.List.GetD
import Slurmy.Text

/-!
# `submission.csv`

The record of accepted batches: a header, and one row per acceptance.  A batch that is submitted
again has several rows.

* `Row`, `table`: the file as the controllers write it;
* `checkPrior`, `countSubmitted`: the two readers at the start of a controller;
* `Contiguous`: every batch has been seen before or is the next one;
* `checkPrior_table`, `countSubmitted_table`: what the readers make of a written file.
-/

namespace Slurmy
namespace Submission

/-- The columns of `submission.csv`. -/
def columns : List Text :=
  ["slurm_job_id".toList, "offset".toList, "array_size".toList, "submitted_epoch".toList,
    "batch_id".toList]

/-- An accepted batch. -/
structure Row where
  id : Text
  batch : ℕ
  epoch : ℕ
  isDigits_id : isDigits id = true

def Row.fields (r : Row) : List Text :=
  [r.id, decimal r.batch, ['1'], decimal r.epoch, decimal r.batch]

/-- The line appended after an acceptance. -/
def Row.line (r : Row) : Text := csvRow r.fields

/-- The whole file. -/
def table (rows : List Row) : Text := csvRow columns ++ rows.flatMap Row.line

/-! ### The readers -/

/-- `row[key]` where the text of the field is used. -/
def field (row : Csv.DictRow) (key : String) : Option Text := (row.get? key.toList).join

/-- `int(row['batch_id'])`. -/
def batchId (row : Csv.DictRow) : Option ℤ := (field row "batch_id").bind toInt

/-- The loop of the consistency check over the rows; `none` is a failure. -/
def checkRows : List Csv.DictRow → List ℤ → Option (List ℤ)
  | [], seen => some seen
  | row :: rows, seen => do
      let batch ← batchId row
      let id ← field row "slurm_job_id"
      if !isDigits id || (batch ∉ seen && batch ≠ seen.length) then none
      else checkRows rows (seen.insert batch)

/-- The check that `submission.csv` is a contiguous batch prefix. -/
def checkPrior (t : Text) : Option (List ℤ) := do
  let rows ← Csv.dictReader t
  checkRows rows []

/-- The number of submitted batches, `len({int(row['batch_id']) for row in …})`. -/
def countSubmitted (t : Text) : Option ℕ := do
  let rows ← Csv.dictReader t
  let ids ← rows.mapM batchId
  pure ids.dedup.length

/-! ### Contiguous batches -/

/-- Each batch has been seen before or is the number of distinct batches seen before. -/
def Contiguous (ids : List ℕ) : Prop :=
  ∀ seen b later, ids = seen ++ b :: later → b ∈ seen ∨ b = seen.toFinset.card

theorem contiguous_nil : Contiguous [] := by
  intro seen b later h
  cases seen <;> cases h

theorem contiguous_append_singleton {ids : List ℕ} {b : ℕ} :
    Contiguous (ids ++ [b]) ↔ Contiguous ids ∧ (b ∈ ids ∨ b = ids.toFinset.card) := by
  constructor
  · intro h
    refine ⟨fun seen c later heq => ?_, h ids b [] rfl⟩
    exact h seen c (later ++ [b]) (by rw [heq]; simp)
  · rintro ⟨hids, hb⟩ seen c later heq
    rcases List.append_eq_append_iff.1 heq with ⟨mid, hseen, hlast⟩ | ⟨mid, hids', hlast⟩
    · -- the split point lies in the last element, or behind it
      cases mid with
      | nil =>
        rw [List.append_nil] at hseen
        rw [List.nil_append] at hlast
        cases hlast
        rw [hseen]
        exact hb
      | cons d mid =>
        have hlen := congrArg List.length hlast
        simp only [List.length_append, List.length_cons, List.length_nil] at hlen
        omega
    · cases mid with
      | nil =>
        rw [List.append_nil] at hids'
        rw [List.nil_append] at hlast
        cases hlast
        rw [← hids']
        exact hb
      | cons d mid =>
        rw [List.cons_append] at hlast
        cases hlast
        exact hids seen c mid hids'

/-- The batches seen are an initial segment of the natural numbers. -/
theorem Contiguous.mem_iff {ids : List ℕ} (h : Contiguous ids) (b : ℕ) :
    b ∈ ids ↔ b < ids.toFinset.card := by
  induction ids using List.reverseRecOn generalizing b with
  | nil => simp
  | append_singleton ids a ih =>
    obtain ⟨hids, ha⟩ := contiguous_append_singleton.1 h
    have hins : (ids ++ [a]).toFinset = insert a ids.toFinset := by
      ext c
      simp
    rw [hins, List.mem_append, List.mem_singleton, ih hids b]
    by_cases hmem : a ∈ ids
    · have hlt := (ih hids a).1 hmem
      rw [Finset.insert_eq_of_mem (List.mem_toFinset.2 hmem)]
      omega
    · have heq := ha.resolve_left hmem
      rw [Finset.card_insert_of_notMem (mt List.mem_toFinset.1 hmem)]
      omega

theorem Contiguous.of_append {ids later : List ℕ} (h : Contiguous (ids ++ later)) :
    Contiguous ids := by
  intro seen b rest heq
  exact h seen b (rest ++ later) (by rw [heq]; simp)

/-! ### A written file -/

theorem batchId_row (r : Row) : batchId (Csv.dictRow columns r.fields) = some (r.batch : ℤ) :=
  toInt_decimal r.batch

theorem slurmJobId_row (r : Row) :
    field (Csv.dictRow columns r.fields) "slurm_job_id" = some r.id := rfl

theorem dictReader_table (rows : List Row) :
    Csv.dictReader (table rows) = some (rows.map fun r => Csv.dictRow columns r.fields) := by
  have h := @Csv.dictReader_rows columns (rows.map Row.fields) (by decide) fun fs hfs => by
    obtain ⟨r, -, rfl⟩ := List.mem_map.1 hfs
    exact List.cons_ne_nil _ _
  rw [List.flatMap_map, List.map_map] at h
  simp only [table, csvRow_eq_row]
  exact h

/-- The batches of a file, row by row. -/
theorem mapM_batchId (rows : List Row) :
    (rows.map fun r => Csv.dictRow columns r.fields).mapM batchId =
      some (rows.map fun r => (r.batch : ℤ)) := by
  induction rows with
  | nil => rfl
  | cons r rows ih => simp [batchId_row, ih]

theorem countSubmitted_table (rows : List Row) :
    countSubmitted (table rows) = some (rows.map Row.batch).toFinset.card := by
  have hcard : (rows.map fun r => (r.batch : ℤ)).dedup.length =
      (rows.map Row.batch).toFinset.card := by
    have hmap : (rows.map fun r => (r.batch : ℤ)) = (rows.map Row.batch).map Nat.cast := by
      rw [List.map_map]
      rfl
    rw [hmap, List.dedup_map_of_injective Nat.cast_injective, List.length_map, List.card_toFinset]
  rw [countSubmitted, dictReader_table]
  show ((rows.map fun r => Csv.dictRow columns r.fields).mapM batchId >>= _) = _
  rw [mapM_batchId]
  exact congrArg some hcard

/-- The check passes over rows that continue what has been seen contiguously. -/
theorem checkRows_isSome {rows : List Row} {seen : List ℕ}
    (h : Contiguous (seen ++ rows.map Row.batch)) (known : List ℤ)
    (hmem : ∀ b : ℕ, (b : ℤ) ∈ known ↔ b ∈ seen) (hlen : known.length = seen.toFinset.card) :
    (checkRows (rows.map fun r => Csv.dictRow columns r.fields) known).isSome = true := by
  induction rows generalizing seen known with
  | nil => rfl
  | cons r rows ih =>
    rw [List.map_cons] at h
    have hr := h seen r.batch (rows.map Row.batch) rfl
    have hins : (seen ++ [r.batch]).toFinset = insert r.batch seen.toFinset := by
      ext c
      simp
    rw [List.map_cons, checkRows, batchId_row, slurmJobId_row]
    have hguard : (!isDigits r.id || ((r.batch : ℤ) ∉ known && (r.batch : ℤ) ≠ known.length)) =
        false := by
      rw [r.isDigits_id, hlen]
      rcases hr with hr | hr
      · simp [(hmem r.batch).2 hr]
      · simp [← hr]
    show (if _ then none else checkRows _ _).isSome = true
    rw [hguard]
    have hnext : Contiguous ((seen ++ [r.batch]) ++ rows.map Row.batch) := by simpa using h
    refine ih hnext _ (fun b => ?_) ?_
    · rw [List.mem_insert_iff, hmem b, List.mem_append, List.mem_singleton, Nat.cast_inj, or_comm]
    · by_cases hb : r.batch ∈ seen
      · rw [List.insert_of_mem ((hmem _).2 hb), hins,
          Finset.insert_eq_of_mem (List.mem_toFinset.2 hb), hlen]
      · rw [List.length_insert_of_not_mem (mt (hmem _).1 hb), hins,
          Finset.card_insert_of_notMem (mt List.mem_toFinset.1 hb), hlen]

/-- The consistency check passes on a contiguous file. -/
theorem checkPrior_table {rows : List Row} (h : Contiguous (rows.map Row.batch)) :
    (checkPrior (table rows)).isSome = true := by
  rw [checkPrior, dictReader_table]
  exact @checkRows_isSome rows [] h [] (fun b => by simp) rfl

end Submission
end Slurmy
