import Slurmy.Lib.CsvStream
import Slurmy.Text

/-!
# Rows between the cluster and the monitor

The shell functions of the job write rows with `csv_row`, and `parse_csv_results` reads them with `csv.reader`.

* `substituted`, `Record.written`: a row that a script has kept in a variable, and what it writes;
* `csv_rows_read`: the monitor reads the rows that were written.
-/

namespace Slurmy
namespace CsvRows

/-- `$(…)` of an output without null characters. -/
def substituted (t : Text) : Text := t.rdropWhile (· = '\n')

/-- The output for a row: that of `csv_row`, or `printf '%s\n' "$row"` with `row=$(csv_row …)`. -/
def written (direct : Bool) (fields : List Text) : Text :=
  if direct then csvRow fields else substituted (csvRow fields) ++ ['\n']

/-- The row's own newline is the only one that the substitution takes away. -/
theorem substituted_csvRow {fields : List Text} (hne : fields ≠ []) : substituted (csvRow fields) = Csv.line fields := by
  have hquote (f : Text) : ∃ t, Csv.quote f = t ++ ['"'] := ⟨'"' :: Csv.escape f, rfl⟩
  have hline : ∃ t, Csv.line fields = t ++ ['"'] := by
    induction fields with
    | nil => exact absurd rfl hne
    | cons f fs ih =>
      cases fs with
      | nil => exact hquote f
      | cons g fs =>
        obtain ⟨t, ht⟩ := ih (List.cons_ne_nil g fs)
        exact ⟨Csv.quote f ++ ',' :: t, by rw [Csv.line, ht, List.append_assoc, List.cons_append]⟩
  obtain ⟨t, ht⟩ := hline
  unfold substituted
  rw [csvRow_eq_row, Csv.row_eq_line, ht, List.rdropWhile_concat_pos _ _ _ (by decide),
    List.rdropWhile_concat_neg _ _ _ (by decide)]

theorem written_eq_row {fields : List Text} (hne : fields ≠ []) (direct : Bool) : written direct fields = Csv.row fields := by
  unfold written
  cases direct with
  | true => rw [if_pos rfl, csvRow_eq_row]
  | false => rw [if_neg Bool.false_ne_true, substituted_csvRow hne, Csv.row_eq_line]

/-- The monitor reads exactly the rows that were written, in either way. -/
theorem csv_rows_read {limit : ℕ} {rows : List (Bool × List Text)} (hne : ∀ row ∈ rows, row.2 ≠ [])
    (hlimit : ∀ row ∈ rows, ∀ field ∈ row.2, field.length ≤ limit) :
    Csv.readStream limit .init (rows.flatMap fun row => written row.1 row.2) = some (rows.map Prod.snd) := by
  have hrows : (rows.flatMap fun row => written row.1 row.2) = (rows.map Prod.snd).flatMap Csv.row := by
    rw [List.flatMap_map]
    exact List.flatMap_congr fun row hrow => written_eq_row (hne row hrow) row.1
  rw [hrows]
  refine Csv.readStream_rows (fun fs hfs => ?_) fun fs hfs => ?_
  · obtain ⟨row, hrow, rfl⟩ := List.mem_map.1 hfs
    exact hne row hrow
  · obtain ⟨row, hrow, rfl⟩ := List.mem_map.1 hfs
    exact hlimit row hrow

theorem csv_rows_read_sample :
    Csv.readStream 131072 .init ([(false, [['\n', '"', '\r'], []]), (true, [[',']])].flatMap fun row => written row.1 row.2) =
      some [[['\n', '"', '\r'], []], [[',']]] :=
  csv_rows_read (by decide) (by decide)

end CsvRows
end Slurmy
