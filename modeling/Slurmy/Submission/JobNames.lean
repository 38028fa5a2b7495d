import Slurmy.Lib.Json
import Slurmy.Lib.Lines
import Slurmy.Lib.PosixPath
import Slurmy.Text

/-!
# Names of jobs

`job_names.py`, and what `remote_submit.sh` reads from the metadata of jobs.

* `candidate`, `unusedJobName`: a name, numbered when it is taken;
* `unusedJobName_spec`: it is always found, and nobody has it;
* `currentName`: the name of a job, also of one without a name or without metadata;
* `isNamed`, `keptName`, `withName`: whether a job has been named, and the new metadata.
-/

namespace Slurmy
namespace JobNames

/-! ### `unused_job_name` -/

/-- `t[:stop]`; a negative number counts from the end. -/
def upto (t : Text) (stop : ℤ) : Text :=
  if 0 ≤ stop then t.take stop.toNat else t.take (t.length - (-stop).toNat)

/-- `f' ({number})'`. -/
def numbering (number : ℕ) : Text := ' ' :: '(' :: (decimal number ++ [')'])

def candidate (base : Text) (number : ℕ) : Text := upto base (100 - (numbering number).length) ++ numbering number

/-- The `while` loop, from `number` on. -/
def search (existing : List Text) (base : Text) : ℕ → ℕ → Option Text
  | 0, _ => none
  | fuel + 1, number =>
      if candidate base number ∉ existing then some (candidate base number) else search existing base fuel (number + 1)

/-- `str(workflow_name).strip()[:100]`. -/
def baseName (workflowName : Text) : Text := (Lines.strip workflowName).take 100

/-- The loop is run `fuel` times at most; a blank name raises. -/
def unusedJobName (fuel : ℕ) (workflowName : Text) (existing : List Text) : Option Text :=
  let base := baseName workflowName
  if base = [] then none
  else if base ∉ existing then some base
  else search existing base fuel 1

/-- A name that can be made from `base`. -/
def IsCandidate (base n : Text) : Prop := n = base ∨ ∃ number, n = candidate base number

/-- The number is what follows the last parenthesis. -/
theorem candidate_injective (base : Text) : Function.Injective (candidate base) := by
  intro i j h
  have hbefore : ∀ number, before '(' (candidate base number).reverse = (decimal number ++ [')']).reverse := by
    intro number
    have hparen : '(' ∉ (decimal number ++ [')']).reverse := by
      rw [List.mem_reverse, List.mem_append, not_or]
      refine ⟨fun hmem => ?_, by decide⟩
      exact absurd (isDigit_of_mem_decimal hmem) (by decide)
    have hsplit : (candidate base number).reverse =
        (decimal number ++ [')']).reverse ++ '(' :: ' ' :: (upto base (100 - (numbering number).length)).reverse := by
      simp [candidate, numbering]
    rw [hsplit, before_append hparen]
  have hdigits := (hbefore i).symm.trans ((congrArg (fun t => before '(' t.reverse) h).trans (hbefore j))
  exact decimal_injective (List.append_cancel_right (List.reverse_injective hdigits))

/-- The first number that is not taken. -/
theorem search_eq {existing : List Text} {base : Text} {k fuel number : ℕ} (hk : k < fuel)
    (htaken : ∀ i < k, candidate base (number + i) ∈ existing) (hfree : candidate base (number + k) ∉ existing) :
    search existing base fuel number = some (candidate base (number + k)) := by
  induction k generalizing fuel number with
  | zero =>
    obtain ⟨fuel, rfl⟩ : ∃ m, fuel = m + 1 := ⟨fuel - 1, by omega⟩
    rw [Nat.add_zero] at hfree
    rw [search, if_pos hfree, Nat.add_zero]
  | succ k ih =>
    obtain ⟨fuel, rfl⟩ : ∃ m, fuel = m + 1 := ⟨fuel - 1, by omega⟩
    have hfirst : candidate base number ∈ existing := htaken 0 (Nat.succ_pos k)
    have hnext : number + 1 + k = number + (k + 1) := by omega
    rw [search, if_neg (not_not_intro hfirst), ih (by omega) (fun i hi => ?_) (hnext ▸ hfree), hnext]
    have hshift : number + 1 + i = number + (i + 1) := by omega
    rw [hshift]
    exact htaken (i + 1) (by omega)

/-- Numbers that are taken are not more than the names. -/
theorem taken_le {existing : List Text} {base : Text} {k : ℕ} (h : ∀ i < k, candidate base (1 + i) ∈ existing) :
    k ≤ existing.length := by
  have hnodup : ((List.range k).map fun i => candidate base (1 + i)).Nodup :=
    (List.nodup_map_iff fun i j hij => Nat.add_left_cancel (candidate_injective base hij)).2 List.nodup_range
  have hsub : ((List.range k).map fun i => candidate base (1 + i)) ⊆ existing := by
    intro n hn
    obtain ⟨i, hi, rfl⟩ := List.mem_map.1 hn
    exact h i (List.mem_range.1 hi)
  have hlen := (List.subperm_of_subset hnodup hsub).length_le
  rwa [List.length_map, List.length_range] at hlen

theorem exists_free (existing : List Text) (base : Text) :
    ∃ k ≤ existing.length, (∀ i < k, candidate base (1 + i) ∈ existing) ∧ candidate base (1 + k) ∉ existing := by
  have hfree : ∃ k, candidate base (1 + k) ∉ existing := by
    by_contra hall
    have htaken := taken_le (k := existing.length + 1) fun i _ => not_not.1 (not_exists.1 hall i)
    omega
  have hbefore : ∀ i < Nat.find hfree, candidate base (1 + i) ∈ existing := fun i hi => not_not.1 (Nat.find_min hfree hi)
  exact ⟨Nat.find hfree, taken_le hbefore, hbefore, Nat.find_spec hfree⟩

theorem length_upto_le (t : Text) {stop : ℤ} (h : 0 ≤ stop) : ((upto t stop).length : ℤ) ≤ stop := by
  rw [upto, if_pos h, List.length_take]
  omega

theorem length_numbering {number k : ℕ} (hk : 0 < k) (h : number < 10 ^ k) : (numbering number).length ≤ k + 3 := by
  have hdigits : (decimal number).length ≤ k := (Nat.length_toDigits_le_iff (by decide) hk).2 h
  simp only [numbering, List.length_cons, List.length_append, List.length_nil]
  omega

theorem length_candidate_le (base : Text) {number : ℕ} (h : number < 10 ^ 97) : (candidate base number).length ≤ 100 := by
  have hlen := length_numbering (by decide) h
  have hupto := length_upto_le base (show (0 : ℤ) ≤ 100 - (numbering number).length by omega)
  rw [candidate, List.length_append]
  omega

theorem length_baseName_le (t : Text) : (baseName t).length ≤ 100 := by
  rw [baseName, List.length_take]
  exact Nat.min_le_left _ _

/-- A name that nobody has is found after finitely many numbers. -/
theorem unusedJobName_spec {workflowName : Text} (hname : baseName workflowName ≠ []) (existing : List Text) :
    ∃ n, (∀ fuel, existing.length < fuel → unusedJobName fuel workflowName existing = some n) ∧ n ∉ existing ∧
      (n = baseName workflowName ∨ ∃ number ≤ existing.length + 1, n = candidate (baseName workflowName) number) := by
  by_cases hbase : baseName workflowName ∈ existing
  · obtain ⟨k, hk, htaken, hfree⟩ := exists_free existing (baseName workflowName)
    refine ⟨_, fun fuel hfuel => ?_, hfree, Or.inr ⟨1 + k, by omega, rfl⟩⟩
    dsimp only [unusedJobName]
    rw [if_neg hname, if_neg (not_not_intro hbase), search_eq (by omega) htaken hfree]
  · refine ⟨_, fun fuel _ => ?_, hbase, Or.inl rfl⟩
    dsimp only [unusedJobName]
    rw [if_neg hname, if_pos hbase]

/-! ### Names without blanks at the ends -/

theorem baseName_of_le {t : Text} (h : t.length ≤ 100) : baseName t = Lines.strip t :=
  List.take_of_length_le ((Lines.length_strip_le t).trans h)

theorem strip_candidate {base : Text} (hbase : base ≠ []) (hhead : ∀ c ∈ base.head?, Lines.isSpace c = false) {number : ℕ}
    (h : number < 10 ^ 96) : Lines.strip (candidate base number) = candidate base number := by
  have hlen := length_numbering (by decide) h
  refine Lines.strip_of_ends (fun c hc => ?_) fun c hc => ?_
  · obtain ⟨k, hk⟩ : ∃ k : ℕ, (100 : ℤ) - (numbering number).length = (k + 1 : ℕ) :=
      ⟨99 - (numbering number).length, by omega⟩
    cases base with
    | nil => exact absurd rfl hbase
    | cons a base =>
      rw [candidate, hk, upto, if_pos (Int.natCast_nonneg _), Int.toNat_natCast, List.take_succ_cons] at hc
      exact hhead c hc
  · have hsplit : candidate base number =
        (upto base (100 - (numbering number).length) ++ ' ' :: '(' :: decimal number) ++ [')'] := by
      rw [List.append_assoc]
      rfl
    rw [hsplit, List.getLast?_concat] at hc
    cases hc
    decide

/-! ### Metadata -/

/-- `t.rsplit('_', 1)[0]`. -/
def beforeLast (t : Text) : Text := if '_' ∈ t then (t.rdropWhile (· ≠ '_')).dropLast else t

/-- What a folder adds to `existing`: `none` when this raises, `some none` for a value that is no text. A folder
without readable metadata is called `directory.name.rsplit('_', 2)[0]`. -/
def currentName (directory : Text) : Option Json → Option (Option Text)
  | none => some (some (beforeLast (beforeLast directory)))
  | some (.object fields) =>
      match (Dict.get fields "job_name".toList).filter Json.truthy with
      | some (.string n) => some (some n)
      | some (.array _) | some (.object _) => none
      | some _ => some none
      | none =>
          match (Dict.get fields "workflow_directory".toList).filter Json.truthy with
          | some (.string w) => some (some (PosixPath.parse w).name)
          | some _ => none
          | none => some (some (PosixPath.parse directory).name)
  | some _ => none

/-- `metadata.get('job_id') == Path.cwd().name and metadata.get('job_name')`. -/
def isNamed (directory : Text) (fields : List (Text × Json)) : Bool :=
  (match Dict.get fields "job_id".toList with
    | some (.string i) => i = directory
    | _ => false) &&
  (Dict.get fields "job_name".toList).any Json.truthy

/-- The name that is kept; another value has no `strip`. -/
def keptName (fields : List (Text × Json)) : Option Text :=
  match Dict.get fields "job_name".toList with
  | some (.string n) => some (Lines.strip n)
  | _ => none

/-- The metadata with a name and an ID. -/
def withName (directory : Text) (fields : List (Text × Json)) (n : Text) : List (Text × Json) :=
  Dict.put (Dict.put fields "job_name".toList (.string n)) "job_id".toList (.string directory)

/-- The test of the name that was asked for. -/
def isValidName (name : Text) : Bool :=
  Lines.strip name ≠ [] && name.length ≤ 100 && !name.any fun c => c.toNat < 32 || c.toNat = 127

section WithName

variable (directory : Text) (fields : List (Text × Json)) (n : Text)

theorem get_withName : Dict.get (withName directory fields n) "job_name".toList = some (.string n) := by
  rw [withName, Dict.get_put_of_ne _ _ (by decide +kernel), Dict.get_put, if_pos rfl]

theorem get_withName_id : Dict.get (withName directory fields n) "job_id".toList = some (.string directory) := by
  rw [withName, Dict.get_put, if_pos rfl]

theorem isNamed_withName (h : n ≠ []) : isNamed directory (withName directory fields n) = true := by
  rw [isNamed, get_withName, get_withName_id]
  simp [Json.truthy, h]

end WithName

end JobNames
end Slurmy
